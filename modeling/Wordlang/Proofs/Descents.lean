import Wordlang.Proofs.Steps
import Wordlang.Tree.Descent

/-! # Descents and fuel

Parsing without bounds beside parsing by fuel. Both do the same on every parser that has fewer
tokens left than there is fuel: a loop takes a token before it goes on, and a nesting takes one
before it goes deeper, so that what is left of the fuel is enough there.
-/

namespace Wordlang.Descent

open Wordlang.Parse

variable {α β : Type}

/-- A descent does what work by fuel does on every parser with fewer than `n` tokens left. -/
def Agrees (n : Nat) (descent : Descent α) (work : Parse α) : Prop :=
  ∀ s, s.left.length < n → descent s = ofParse work s

/-- A descent does what work by fuel does on every parser with fewer than `n` tokens left and with
    the token in view. -/
def AgreesAt (token : Token) (n : Nat) (descent : Descent α) (work : Parse α) : Prop :=
  ∀ s, s.stream.lookahead = some token → s.left.length < n → descent s = ofParse work s

section Rules

variable {n m : Nat} {token : Token} {descent : Descent α} {work : Parse α}
  {later : α → Descent β} {next : α → Parse β}

private theorem bind_of_ok {s s' : Parser} {a : α} (ran : descent s = some (.ok a, s')) :
    (descent >>= later) s = later a s' := by
  simp only [bind, ExceptT.bind, ExceptT.mk, StateT.bind, ran, Option.bind, ExceptT.bindCont]

private theorem bind_of_error {s s' : Parser} {error : CompileError}
    (ran : descent s = some (.error error, s')) :
    (descent >>= later) s = some (.error error, s') := by
  simp only [bind, ExceptT.bind, ExceptT.mk, StateT.bind, ran, Option.bind, ExceptT.bindCont]
  rfl

theorem ofParse_bind_of_ok {s s' : Parser} {a : α} (ran : work s = .ok a s') :
    ofParse (work >>= next) s = ofParse (next a) s' := by
  simp only [ofParse, run_bind_of_ok ran]

theorem bind_eq {s : Parser} (first : descent s = ofParse work s)
    (second : ∀ a s', work s = .ok a s' → later a s' = ofParse (next a) s') :
    (descent >>= later) s = ofParse (work >>= next) s := by
  cases ran : work s with
  | ok a s' =>
      rw [ofParse_eq_ok.mpr ran] at first
      rw [bind_of_ok first, ofParse_bind_of_ok ran]
      exact second a s' ran
  | error error s' =>
      rw [ofParse_eq_error.mpr ran] at first
      rw [bind_of_error first, ofParse_eq_error.mpr (run_bind_of_error ran)]

theorem agrees_zero : Agrees 0 descent work := fun _ fewer => absurd fewer (Nat.not_lt_zero _)

theorem agrees_lift (n : Nat) (work : Parse α) : Agrees n (ofParse work) work := fun _ _ => rfl

theorem agrees_pure (n : Nat) (a : α) : Agrees n (pure a) (pure a) := fun _ _ => rfl

theorem Agrees.mono (agrees : Agrees n descent work) (le : m ≤ n) : Agrees m descent work :=
  fun s fewer => agrees s (Nat.lt_of_lt_of_le fewer le)

theorem Agrees.at (agrees : Agrees n descent work) (token : Token) :
    AgreesAt token n descent work :=
  fun s _ => agrees s

theorem Agrees.bind (first : Agrees n descent work) (stepwise : Stepwise work)
    (second : ∀ a, Agrees n (later a) (next a)) :
    Agrees n (descent >>= later) (work >>= next) := by
  intro s fewer
  apply bind_eq (first s fewer)
  intro a s' ran
  exact second a s' (Nat.lt_of_le_of_lt (stepwise.left_le ran) fewer)

theorem Agrees.bind_advances (first : Agrees (n + 1) descent work) (advances : Advances work)
    (second : ∀ a, Agrees n (later a) (next a)) :
    Agrees (n + 1) (descent >>= later) (work >>= next) := by
  intro s fewer
  apply bind_eq (first s fewer)
  intro a s' ran
  exact second a s' (Nat.lt_of_lt_of_le (advances.left_lt _ _ _ ran) (Nat.le_of_lt_succ fewer))

theorem AgreesAt.bind_advances (first : AgreesAt token (n + 1) descent work)
    (advances : AdvancesAt token work) (second : ∀ a, Agrees n (later a) (next a)) :
    AgreesAt token (n + 1) (descent >>= later) (work >>= next) := by
  intro s inView fewer
  apply bind_eq (first s inView fewer)
  intro a s' ran
  exact second a s'
    (Nat.lt_of_lt_of_le (advances.left_lt _ inView _ _ ran) (Nat.le_of_lt_succ fewer))

theorem agrees_peek_bind {later : Token → Descent β} {next : Token → Parse β}
    (second : ∀ token, AgreesAt token n (later token) (next token)) :
    Agrees n (ofParse Parser.peek >>= later) (Parser.peek >>= next) := by
  intro s fewer
  apply bind_eq rfl
  intro token s' peeked
  exact second token s' (Parser.peek_inView peeked)
    (Nat.lt_of_le_of_lt (stepwise_peek.left_le peeked) fewer)

theorem agreesAt_next_bind {later : Token → Descent β} {next : Token → Parse β}
    (some : token.kind ≠ .eof) (second : ∀ token, Agrees n (later token) (next token)) :
    AgreesAt token (n + 1) (ofParse Parser.next >>= later) (Parser.next >>= next) :=
  AgreesAt.bind_advances ((agrees_lift _ _).at token) (advancesAt_next some) second

end Rules

section Lists

variable {n fuel : Nat} {test : Parse Bool} {item : Descent α} {work : Parse α}

theorem agrees_whileM (tests : Stepwise test) (items : Advances work) (agrees : Agrees n item work)
    (enough : n ≤ fuel) : Agrees n (whileM test item) (Parser.whileM test work fuel) := by
  -- on what may be left: an item takes a token before the loop goes on with less fuel
  induction n generalizing fuel with
  | zero => exact agrees_zero
  | succ n ih =>
      cases fuel with
      | zero => exact absurd enough (Nat.not_succ_le_zero n)
      | succ fuel =>
        have less : n ≤ fuel := Nat.le_of_succ_le_succ enough
        rw [whileM, Parser.whileM]
        apply (agrees_lift _ test).bind tests
        intro goesOn
        split
        · apply agrees.bind_advances items
          intro first
          have rest := ih (agrees.mono n.le_succ) less
          exact rest.bind (stepwise_whileM tests items.stepwise fuel) fun rest => agrees_pure _ _
        · exact agrees_pure _ _

theorem agrees_commaList (items : Advances work) (agrees : Agrees n item work)
    (enough : n ≤ fuel) : Agrees n (commaList item) (Parser.commaList work fuel) := by
  apply agrees.bind items.stepwise
  intro first
  have rest := agrees_whileM (stepwise_accept .comma) items agrees enough
  exact rest.bind (stepwise_whileM (stepwise_accept _) items.stepwise fuel) fun rest =>
    agrees_pure _ _

theorem agrees_parenList (items : Advances work) (agrees : Agrees n item work)
    (enough : n ≤ fuel) : Agrees n (parenList item) (Parser.parenList work fuel) := by
  apply (agrees_lift _ _).bind (stepwise_accept _)
  intro ends
  split
  · exact agrees_pure _ _
  · apply (agrees_commaList items agrees enough).bind (advances_commaList items fuel).stepwise
    intro list
    exact (agrees_lift _ _).bind (stepwise_mark _) fun _ => agrees_pure _ _

end Lists

section Expressions

variable {n fuel : Nat} {operand inner : Parse Expr}

theorem agrees_chain {tighter : List BinOp.Level} (operands : Advances operand)
    (agrees : Agrees n (Phrase.read (.binary tighter)) operand) (enough : n ≤ fuel)
    (level : BinOp.Level) (left : Expr) :
    Agrees n (Phrase.read (.chain level tighter left))
      (Parser.chain operand level fuel left) := by
  induction n generalizing fuel left with
  | zero => exact agrees_zero
  | succ n ih =>
      cases fuel with
      | zero => exact absurd enough (Nat.not_succ_le_zero n)
      | succ fuel =>
        have less : n ≤ fuel := Nat.le_of_succ_le_succ enough
        rw [Phrase.read, Parser.chain]
        apply agrees_peek_bind
        intro token
        cases isOp : BinOp.ofKind? level token.kind with
        | none => exact (agrees_pure _ left).at token
        | some op =>
            apply agreesAt_next_bind (BinOp.ne_eof_of_ofKind? isOp)
            intro _
            apply (agrees.mono n.le_succ).bind operands.stepwise
            intro right
            apply (agrees_lift _ _).bind (stepwise_node _)
            intro node
            exact ih (agrees.mono n.le_succ) less
              (.binary node op left right)

theorem agrees_binary (operands : Advances operand) (agrees : Agrees n (Phrase.read .unary) operand)
    (enough : n ≤ fuel) (levels : List BinOp.Level) :
    Agrees n (Phrase.read (.binary levels)) (Parser.binary operand fuel levels) := by
  induction levels with
  | nil =>
      rw [Phrase.read, Parser.binary]
      exact agrees
  | cons level tighter ih =>
      have tighters := advances_binary operands fuel tighter
      rw [Phrase.read, Parser.binary]
      exact ih.bind tighters.stepwise fun left => agrees_chain tighters ih enough level left

theorem agrees_unary (operands : Advances operand)
    (agrees : Agrees n (Phrase.read .primary) operand) (enough : n ≤ fuel) :
    Agrees n (Phrase.read .unary) (Parser.unary operand fuel) := by
  induction n generalizing fuel with
  | zero => exact agrees_zero
  | succ n ih =>
      cases fuel with
      | zero => exact absurd enough (Nat.not_succ_le_zero n)
      | succ fuel =>
        have less : n ≤ fuel := Nat.le_of_succ_le_succ enough
        rw [Phrase.read, Parser.unary]
        apply agrees_peek_bind
        intro token
        cases isOp : UnOp.ofKind? token.kind with
        | none => exact agrees.at token
        | some op =>
            apply agreesAt_next_bind (UnOp.ne_eof_of_ofKind? isOp)
            intro _
            have inner := ih (agrees.mono n.le_succ) less
            apply inner.bind (advances_unary operands fuel).stepwise
            intro inner
            exact (agrees_lift _ _).bind (stepwise_node _) fun node => agrees_pure _ _

theorem agrees_primary (inners : Stepwise inner) (agrees : Agrees n expr inner) :
    Agrees (n + 1) (Phrase.read .primary) (Parser.primary inner) := by
  rw [Phrase.read, Parser.primary]
  apply agrees_peek_bind
  intro token
  have leaf : ∀ make : Node → Expr, token.kind ≠ .eof → AgreesAt token (n + 1)
      (ofParse Parser.next >>= fun _ => ofParse (Parser.node token.line) >>= fun node =>
        pure (make node))
      (Parser.next >>= fun _ => Parser.node token.line >>= fun node => pure (make node)) := by
    intro make some
    exact agreesAt_next_bind some fun _ =>
      (agrees_lift _ _).bind (stepwise_node _) fun node => agrees_pure _ _
  generalize isKind : token.kind = kind
  split
  · exact leaf (.int · _) (by simp [isKind])
  · exact leaf (.bool · true) (by simp [isKind])
  · exact leaf (.bool · false) (by simp [isKind])
  · apply agreesAt_next_bind (by simp [isKind])
    intro _
    apply (agrees_lift _ _).bind (stepwise_accept _)
    intro opens
    split
    · apply agrees.bind inners
      intro index
      apply (agrees_lift _ _).bind (stepwise_mark _)
      intro _
      exact (agrees_lift _ _).bind (stepwise_node _) fun node => agrees_pure _ _
    · exact (agrees_lift _ _).bind (stepwise_node _) fun node => agrees_pure _ _
  · apply agreesAt_next_bind (by simp [isKind])
    intro _
    apply agrees.bind inners
    intro e
    exact (agrees_lift _ _).bind (stepwise_mark _) fun _ => agrees_pure _ _
  · apply agreesAt_next_bind (by simp [isKind])
    intro _
    apply agrees.bind inners
    intro e
    apply (agrees_lift _ _).bind (stepwise_mark _)
    intro _
    exact (agrees_lift _ _).bind (stepwise_node _) fun node => agrees_pure _ _
  -- the match on the other side may still be there, over the same kinds
  · try simp only
    exact (agrees_lift _ _).at token

/-- An expression nests less deeply than it has tokens. -/
theorem agrees_expr (fuel : Nat) : Agrees fuel expr (Parser.expr fuel) := by
  induction fuel with
  | zero => exact agrees_zero
  | succ fuel ih =>
      have primaries := advances_primary (stepwise_expr fuel)
      have operand := agrees_unary primaries (agrees_primary (stepwise_expr fuel) ih)
        (Nat.le_refl _)
      exact agrees_binary (advances_unary primaries _) operand (Nat.le_refl _) BinOp.levels

end Expressions

section Statements

variable {n fuel : Nat} {work : Parse Stmt}

theorem agrees_args (fuel : Nat) :
    Agrees fuel (parenList expr) (Parser.parenList (Parser.expr fuel) fuel) :=
  agrees_parenList (advances_expr fuel) (agrees_expr fuel) (Nat.le_refl _)

theorem agrees_callOf (value : Expr) (fuel : Nat) :
    Agrees fuel (callOf value) (Parser.callOf value fuel) := by
  unfold callOf Parser.callOf
  split
  · apply (agrees_lift _ _).bind (stepwise_accept _)
    intro opens
    split
    · exact (agrees_args fuel).bind (stepwise_args fuel) fun args => agrees_pure _ _
    · exact agrees_pure _ _
  · try simp only
    exact agrees_pure _ _

theorem agrees_assignment (target : String) (line fuel : Nat) :
    Agrees fuel (assignment target line) (Parser.assignment target line fuel) := by
  apply (agrees_expr fuel).bind (stepwise_expr fuel)
  intro value
  apply (agrees_callOf value fuel).bind (stepwise_callOf value fuel)
  intro call
  exact (agrees_lift _ _).bind (stepwise_mark _) fun _ => agrees_pure _ _

theorem agrees_indexAssignment (target : String) (index : Expr) (line fuel : Nat) :
    Agrees fuel (indexAssignment target index line)
      (Parser.indexAssignment target index line fuel) := by
  apply (agrees_expr fuel).bind (stepwise_expr fuel)
  intro value
  apply (agrees_callOf value fuel).bind (stepwise_callOf value fuel)
  intro call
  exact (agrees_lift _ _).bind (stepwise_mark _) fun _ => agrees_pure _ _

theorem agrees_condition (fuel : Nat) : Agrees fuel condition (Parser.condition fuel) := by
  apply (agrees_lift _ _).bind (stepwise_mark _)
  intro _
  apply (agrees_expr fuel).bind (stepwise_expr fuel)
  intro cond
  exact (agrees_lift _ _).bind (stepwise_mark _) fun _ => agrees_pure _ _

theorem agrees_stmts (stmts : Advances work) (agrees : Agrees n stmt work) (enough : n ≤ fuel) :
    Agrees n (Block.read .stmts)
      (Parser.whileM (return !(← Parser.accept .closeBrace)) work fuel) := by
  induction n generalizing fuel with
  | zero => exact agrees_zero
  | succ n ih =>
      cases fuel with
      | zero => exact absurd enough (Nat.not_succ_le_zero n)
      | succ fuel =>
        have less : n ≤ fuel := Nat.le_of_succ_le_succ enough
        rw [Block.read, Parser.whileM, bind_assoc]
        apply (agrees_lift _ _).bind (stepwise_accept _)
        intro ends
        rw [pure_bind]
        cases ends with
        | true => exact agrees_pure _ _
        | false =>
            apply agrees.bind_advances stmts
            intro first
            have rest := ih (agrees.mono n.le_succ) less
            exact rest.bind (stepwise_stmts stmts.stepwise fuel) fun rest => agrees_pure _ _

theorem agrees_block (stmts : Advances work) (agrees : Agrees n stmt work) (enough : n ≤ fuel) :
    Agrees (n + 1) (Block.read .block) (Parser.block work fuel) := by
  rw [Block.read, Parser.block]
  exact (agrees_lift _ _).bind_advances (advances_mark _) fun _ =>
    agrees_stmts stmts agrees enough

/-- A statement nests less deeply than it has tokens. -/
theorem agrees_stmt (fuel : Nat) : Agrees fuel stmt (Parser.stmt fuel) := by
  induction fuel with
  | zero => exact agrees_zero
  | succ fuel ih =>
      have blocks : Stepwise (Parser.block (Parser.stmt fuel) fuel.succ) :=
        (advances_block (stepwise_stmt fuel) fuel.succ).stepwise
      have block := agrees_block (advances_stmt fuel) ih fuel.le_succ
      have inner := block.mono fuel.le_succ
      rw [stmt, Block.read, Parser.stmt]
      apply agrees_peek_bind
      intro token
      generalize isKind : token.kind = kind
      split
      · apply agreesAt_next_bind (by simp [isKind])
        intro _
        apply (agrees_lift _ _).bind (stepwise_accept _)
        intro opens
        split
        · apply ((agrees_expr _).mono fuel.le_succ).bind (stepwise_expr _)
          intro index
          apply (agrees_lift _ _).bind (stepwise_mark _)
          intro _
          apply (agrees_lift _ _).bind (stepwise_mark _)
          intro _
          exact (agrees_indexAssignment _ _ _ _).mono fuel.le_succ
        · apply (agrees_lift _ _).bind (stepwise_mark _)
          intro _
          exact (agrees_assignment _ _ _).mono fuel.le_succ
      · apply agreesAt_next_bind (by simp [isKind])
        intro _
        apply ((agrees_condition _).mono fuel.le_succ).bind (advances_condition _).stepwise
        intro cond
        apply inner.bind blocks
        intro thens
        apply (agrees_lift _ _).bind (stepwise_acceptWord _)
        intro more
        split
        · exact inner.bind blocks fun elses => agrees_pure _ _
        · exact agrees_pure _ _
      · apply agreesAt_next_bind (by simp [isKind])
        intro _
        apply ((agrees_condition _).mono fuel.le_succ).bind (advances_condition _).stepwise
        intro cond
        exact inner.bind blocks fun body => agrees_pure _ _
      · exact (block.bind blocks fun body => agrees_pure _ _).at token
      · try simp only
        exact (agrees_lift _ _).at token

end Statements

section Programs

theorem agrees_names (fuel : Nat) :
    Agrees fuel (commaList (ofParse Parser.ident)) (Parser.commaList Parser.ident fuel) :=
  agrees_commaList advances_ident (agrees_lift _ _) (Nat.le_refl _)

theorem agrees_params (fuel : Nat) :
    Agrees fuel (parenList (ofParse Parser.param)) (Parser.parenList Parser.param fuel) :=
  agrees_parenList advances_param (agrees_lift _ _) (Nat.le_refl _)

theorem agrees_decl (fuel : Nat) : Agrees fuel decl (Parser.decl fuel) := by
  apply (agrees_lift _ _).bind stepwise_peek
  intro token
  apply (agrees_lift _ _).bind (stepwise_word _)
  intro _
  apply (agrees_names fuel).bind (advances_names fuel).stepwise
  intro names
  apply (agrees_lift _ _).bind (stepwise_mark _)
  intro _
  apply (agrees_lift _ _).bind stepwise_type
  intro type
  exact (agrees_lift _ _).bind (stepwise_mark _) fun _ => agrees_pure _ _

theorem agrees_decls (fuel : Nat) :
    Agrees fuel (whileM (Parser.sees (.keyword .var)) decl)
      (Parser.whileM (Parser.sees (.keyword .var)) (Parser.decl fuel) fuel) :=
  agrees_whileM (stepwise_sees _) (advances_decl fuel) (agrees_decl fuel) (Nat.le_refl _)

theorem agrees_body (fuel : Nat) :
    Agrees fuel (whileM Parser.bodyGoesOn stmt)
      (Parser.whileM Parser.bodyGoesOn (Parser.stmt fuel) fuel) :=
  agrees_whileM stepwise_bodyGoesOn (advances_stmt fuel) (agrees_stmt fuel) (Nat.le_refl _)

theorem agrees_func (fuel : Nat) : Agrees fuel func (Parser.func fuel) := by
  apply (agrees_lift _ _).bind stepwise_peek
  intro token
  apply (agrees_lift _ _).bind (stepwise_word _)
  intro _
  apply (agrees_lift _ _).bind advances_ident.stepwise
  intro name
  apply (agrees_lift _ _).bind (stepwise_mark _)
  intro _
  apply (agrees_params fuel).bind (stepwise_params fuel)
  intro params
  apply (agrees_lift _ _).bind (stepwise_mark _)
  intro _
  apply (agrees_lift _ _).bind stepwise_type
  intro returns
  apply (agrees_lift _ _).bind (stepwise_mark _)
  intro _
  apply (agrees_decls fuel).bind (stepwise_decls fuel)
  intro decls
  apply (agrees_body fuel).bind (stepwise_body fuel)
  intro body
  apply (agrees_lift _ _).bind (stepwise_word _)
  intro _
  apply (agrees_expr fuel).bind (stepwise_expr fuel)
  intro result
  apply (agrees_lift _ _).bind (stepwise_mark _)
  intro _
  exact (agrees_lift _ _).bind (stepwise_mark _) fun _ => agrees_pure _ _

theorem agrees_functions (fuel : Nat) :
    Agrees fuel (whileM (Parser.sees (.keyword .function)) func)
      (Parser.whileM (Parser.sees (.keyword .function)) (Parser.func fuel) fuel) :=
  agrees_whileM (stepwise_sees _) (advances_func fuel) (agrees_func fuel) (Nat.le_refl _)

end Programs

end Wordlang.Descent
