import Wordlang.Proofs.Following.Program
import Wordlang.Tree.Calls

/-! # Steps of a parser

Whatever a parser does is made of four kinds of steps: it scans a token and has it in view, it
fails on a character and passes it, it takes the token in view, and it gives out an id. The end
of the text is never taken, so it is never scanned again. What all steps keep holds of all work
on a parser, also where it fails. Work advances if it cannot succeed without taking a token, and
all parts of a program are read by such work.
-/

namespace Wordlang

open Token (Kind)

theorem UnOp.ne_eof_of_ofKind? {kind : Kind} {op : UnOp} (isOp : ofKind? kind = some op) :
    kind ≠ .eof := by
  intro isEof
  rw [isEof] at isOp
  cases isOp

theorem BinOp.ne_eof_of_ofKind? {level : Level} {kind : Kind} {op : BinOp}
    (isOp : ofKind? level kind = some op) : kind ≠ .eof := by
  rw [(ofKind?_eq_some isOp).1]
  nofun

namespace Parser

/-- One step of a parser, and what it finds in the text. -/
inductive Step : Parser → List Item → Parser → Prop where
  /-- A token is scanned, and comes into view. -/
  | scan {cursor after : Cursor} {token : Token} {scanned : Array Token} {nextId : Nat} :
      cursor.scan = (.ok token, after) →
      Step { stream := { cursor, lookahead := none, scanned }, nextId } [.ok token]
        { stream := { cursor := after, lookahead := some token, scanned := scanned.push token },
          nextId }
  /-- What cannot be scanned is passed. -/
  | pass {cursor after : Cursor} {error : CompileError} {scanned : Array Token} {nextId : Nat} :
      cursor.scan = (.error error, after) →
      Step { stream := { cursor, lookahead := none, scanned }, nextId } [.error error]
        { stream := { cursor := after, lookahead := none, scanned }, nextId }
  /-- The token in view is taken, unless it is the end of the text. -/
  | take {cursor : Cursor} {token : Token} {scanned : Array Token} {nextId : Nat} :
      token.kind ≠ .eof →
      Step { stream := { cursor, lookahead := some token, scanned }, nextId } []
        { stream := { cursor, lookahead := none, scanned }, nextId }
  /-- An id is given out. -/
  | number {stream : Stream} {nextId : Nat} :
      Step { stream, nextId } [] { stream, nextId := nextId + 1 }

/-- Some steps of a parser, and what they find in the text. -/
inductive Steps : Parser → List Item → Parser → Prop where
  | refl (s : Parser) : Steps s [] s
  | head {s s' s'' : Parser} {items later : List Item} :
      Step s items s' → Steps s' later s'' → Steps s (items ++ later) s''

namespace Steps

variable {s s' s'' : Parser} {items later : List Item}

theorem single (step : Step s items s') : Steps s items s' :=
  items.append_nil ▸ .head step (.refl s')

theorem trans (first : Steps s items s') (second : Steps s' later s'') :
    Steps s (items ++ later) s'' := by
  induction first with
  | refl => exact second
  | head step _ ih => exact List.append_assoc .. ▸ .head step (ih second)

end Steps

end Parser

namespace Stream

/-- The token in view, if there is one, is the one that was scanned last. -/
def Fits (stream : Stream) : Prop :=
  ∀ token, stream.lookahead = some token →
    (∃ taken, stream.scanned.toList = taken ++ [token]) ∧ stream.cursor.line = token.line ∧
      (token.kind ≠ .eof → token.kind.Writable)

theorem fits_ofText (text : String) : (ofText text).Fits := nofun

end Stream

namespace Parser

variable {s s' : Parser} {items : List Item}

namespace Step

theorem unscanned (step : Step s items s') :
    s.stream.unscanned = items ++ s'.stream.unscanned := by
  cases step with
  | @scan _ _ token _ _ found =>
      by_cases isEof : token.kind = .eof
      · simp [Stream.unscanned, isEof, Cursor.items_of_eof found isEof]
      · simp [Stream.unscanned, isEof, Cursor.items_of_ok found isEof]
  | pass found => simp [Stream.unscanned, Cursor.items_of_error found]
  | take some => simp [Stream.unscanned, some]
  | number => rfl

theorem scanned (step : Step s items s') : s'.stream.scanned.toList =
    s.stream.scanned.toList ++ items.filterMap Except.toOption := by
  cases step with
  | scan => simp [Except.toOption]
  | pass | take | number => simp [Except.toOption]

theorem nextId_le (step : Step s items s') : s.nextId ≤ s'.nextId := by
  cases step with
  | scan | pass | take => exact Nat.le_refl _
  | number => exact Nat.le_succ _

theorem fits (step : Step s items s') (fits : s.stream.Fits) : s'.stream.Fits := by
  cases step with
  | @scan _ _ token scanned _ found =>
      intro token' inView
      obtain rfl : token = token' := Option.some.inj inView
      obtain ⟨read, line⟩ := Cursor.scan_eq_ok found
      exact ⟨⟨scanned.toList, Array.toList_push⟩, line, Lexeme.writable_read read⟩
  | pass | take => nofun
  | number => exact fits

end Step

namespace Steps

theorem unscanned (steps : Steps s items s') :
    s.stream.unscanned = items ++ s'.stream.unscanned := by
  induction steps with
  | refl => rfl
  | head step _ ih => rw [step.unscanned, ih, List.append_assoc]

theorem scanned (steps : Steps s items s') : s'.stream.scanned.toList =
    s.stream.scanned.toList ++ items.filterMap Except.toOption := by
  induction steps with
  | refl => simp
  | head step _ ih => rw [ih, step.scanned, List.append_assoc, List.filterMap_append]

theorem nextId_le (steps : Steps s items s') : s.nextId ≤ s'.nextId := by
  induction steps with
  | refl => exact Nat.le_refl _
  | head step _ ih => exact Nat.le_trans step.nextId_le ih

theorem fits (steps : Steps s items s') (fits : s.stream.Fits) : s'.stream.Fits := by
  induction steps with
  | refl => exact fits
  | head step _ ih => exact ih (step.fits fits)

end Steps

section Takes

variable {s'' : Parser} {tokens later : List Token}

theorem Takes.refl (s : Parser) : s.Takes [] s :=
  ⟨[], (List.append_nil _).symm, List.append_nil _⟩

theorem Takes.trans (first : s.Takes tokens s') (second : s'.Takes later s'') :
    s.Takes (tokens ++ later) s'' := by
  obtain ⟨found, scanned, taken⟩ := first
  obtain ⟨found', scanned', taken'⟩ := second
  refine ⟨found ++ found', ?_, ?_⟩
  · rw [scanned', scanned, List.append_assoc]
  · rw [← List.append_assoc, taken, List.append_assoc, taken', List.append_assoc]

/-- The tokens that were taken are known from where the way begins and where it ends. -/
theorem Takes.unique (takes : s.Takes tokens s') (takes' : s.Takes later s') :
    tokens = later := by
  obtain ⟨found, scanned, taken⟩ := takes
  obtain ⟨found', scanned', taken'⟩ := takes'
  have same : found = found' := List.append_cancel_left (scanned.symm.trans scanned')
  rw [same, taken'] at taken
  exact (List.append_cancel_right taken).symm

theorem Step.takes (step : Step s items s') :
    ∃ tokens, s.Takes tokens s' ∧ ∀ token ∈ tokens, token.kind ≠ .eof := by
  cases step with
  | @scan _ _ token => exact ⟨[], ⟨[token], Array.toList_push, rfl⟩, nofun⟩
  | pass | number => exact ⟨[], ⟨[], (List.append_nil _).symm, List.append_nil _⟩, nofun⟩
  | @take _ token _ _ some =>
      exact ⟨[token], ⟨[], (List.append_nil _).symm, rfl⟩, List.forall_mem_singleton.mpr some⟩

theorem Steps.takes (steps : Steps s items s') :
    ∃ tokens, s.Takes tokens s' ∧ ∀ token ∈ tokens, token.kind ≠ .eof := by
  induction steps with
  | refl s => exact ⟨[], .refl s, nofun⟩
  | head step _ ih =>
      obtain ⟨tokens, takes, some⟩ := step.takes
      obtain ⟨later, takes', some'⟩ := ih
      exact ⟨tokens ++ later, takes.trans takes', List.forall_mem_append.mpr ⟨some, some'⟩⟩

/-- What is taken on some steps are the first tokens of those that were left. -/
theorem Steps.left_eq (steps : Steps s items s') (takes : s.Takes tokens s')
    (some : ∀ token ∈ tokens, token.kind ≠ .eof) : s.left = tokens ++ s'.left := by
  obtain ⟨found, scanned, taken⟩ := takes
  have isFound : items.filterMap Except.toOption = found :=
    List.append_cancel_left (steps.scanned.symm.trans scanned)
  have kept : tokens.filter (fun token => token.kind ≠ .eof) = tokens :=
    List.filter_eq_self.mpr fun token mem => decide_eq_true (some token mem)
  have ahead : s.stream.lookahead.toList ++ s.stream.unscanned.filterMap Except.toOption =
      tokens ++ (s'.stream.lookahead.toList ++
        s'.stream.unscanned.filterMap Except.toOption) := by
    rw [steps.unscanned, List.filterMap_append, isFound, ← List.append_assoc, taken,
      List.append_assoc]
  rw [left, ahead, List.filter_append, kept, ← left]

theorem Steps.left_le (steps : Steps s items s') : s'.left.length ≤ s.left.length := by
  obtain ⟨tokens, takes, some⟩ := steps.takes
  rw [steps.left_eq takes some, List.length_append]
  exact Nat.le_add_left _ _

end Takes

end Parser

theorem Parser.onStream_bind {α β : Type} (work : Reading α) (next : α → Reading β) :
    onStream (work >>= next) = onStream work >>= fun a => onStream (next a) := by
  funext ⟨stream, nextId⟩
  simp only [onStream, bind, EStateM.bind]
  cases work stream <;> rfl

namespace Parse

open Wordlang.Parser (Step Steps)

variable {α β : Type}

/-- How work ends that is made of steps: it finds tokens, and last the character on which it
    fails if it does. -/
inductive Stepped (s : Parser) : EStateM.Result CompileError Parser α → Prop where
  | ok {a : α} {s' : Parser} (tokens : List Token) :
      Steps s (tokens.map .ok) s' → Stepped s (.ok a s')
  | broken {character : Char} {line : Nat} {s' : Parser} (tokens : List Token) :
      Steps s (tokens.map .ok ++ [.error (.badCharacter character line)]) s' →
      Stepped s (.error (.badCharacter character line) s')
  | refused {found : Kind} {expected : Expected} {line : Nat} {s' : Parser}
      (tokens : List Token) : Steps s (tokens.map .ok) s' →
      Stepped s (.error (.unexpected found expected line) s')

def Stepwise (work : Parse α) : Prop := ∀ s, Stepped s (work s)

/-- Work is made of steps where it begins with a token in view. -/
def StepwiseAt (token : Token) (work : Parse α) : Prop :=
  ∀ s, s.stream.lookahead = some token → Stepped s (work s)

/-- Work is made of steps, and when it succeeds, there are fewer tokens left. -/
structure Advances (work : Parse α) : Prop where
  stepwise : Stepwise work
  left_lt : ∀ s a s', work s = .ok a s' → s'.left.length < s.left.length

/-- Work advances where it begins with a token in view. -/
structure AdvancesAt (token : Token) (work : Parse α) : Prop where
  stepwise : StepwiseAt token work
  left_lt : ∀ s, s.stream.lookahead = some token →
    ∀ a s', work s = .ok a s' → s'.left.length < s.left.length

section Rules

variable {work : Parse α} {next : α → Parse β} {token : Token}

theorem Stepped.after {s s' : Parser} {r : EStateM.Result CompileError Parser α}
    {tokens : List Token} (steps : Steps s (tokens.map .ok) s') (later : Stepped s' r) :
    Stepped s r := by
  cases later with
  | ok more steps' => exact .ok (tokens ++ more) (List.map_append ▸ steps.trans steps')
  | broken more steps' =>
      refine .broken (tokens ++ more) ?_
      rw [List.map_append, List.append_assoc]
      exact steps.trans steps'
  | refused more steps' => exact .refused (tokens ++ more) (List.map_append ▸ steps.trans steps')

theorem Stepped.bind {s : Parser} (first : Stepped s (work s))
    (second : ∀ a s', work s = .ok a s' → Stepped s' (next a s')) :
    Stepped s ((work >>= next) s) := by
  cases ran : work s with
  | ok a s' =>
      rw [run_bind_of_ok ran]
      rw [ran] at first
      cases first with
      | ok tokens steps => exact (second a s' ran).after steps
  | error error s' =>
      rw [run_bind_of_error ran]
      rw [ran] at first
      cases first with
      | broken tokens steps => exact .broken tokens steps
      | refused tokens steps => exact .refused tokens steps

theorem stepwise_pure (a : α) : Stepwise (pure a) := fun s => .ok [] (.refl s)

theorem Stepwise.at (stepwise : Stepwise work) (token : Token) : StepwiseAt token work :=
  fun s _ => stepwise s

theorem Stepwise.bind (first : Stepwise work) (second : ∀ a, Stepwise (next a)) :
    Stepwise (work >>= next) :=
  fun s => (first s).bind fun a s' _ => second a s'

theorem StepwiseAt.bind (first : StepwiseAt token work) (second : ∀ a, Stepwise (next a)) :
    StepwiseAt token (work >>= next) :=
  fun s inView => (first s inView).bind fun a s' _ => second a s'

/-- Looking at the next token scans it if it is not in view, and nothing else. -/
theorem stepwise_peek : Stepwise Parser.peek := by
  rintro ⟨⟨cursor, _ | token, scanned⟩, nextId⟩
  · simp only [Parser.peek, Parser.onStream, Stream.peek, Stream.advance]
    cases found : cursor.scan with
    | mk item after =>
        cases item with
        | ok token => exact .ok [token] (.single (.scan found))
        | error error =>
            obtain ⟨character, rfl⟩ := Cursor.scan_eq_error found
            exact .broken [] (.single (.pass found))
  · exact .ok [] (.refl _)

theorem stepwise_peek_bind {next : Token → Parse β}
    (later : ∀ token, StepwiseAt token (next token)) : Stepwise (Parser.peek >>= next) :=
  fun s => (stepwise_peek s).bind fun token s' peeked => later token s' (Parser.peek_inView peeked)

theorem Stepwise.left_le (stepwise : Stepwise work) {s s' : Parser} {a : α}
    (ran : work s = .ok a s') : s'.left.length ≤ s.left.length := by
  have stepped := stepwise s
  rw [ran] at stepped
  cases stepped with
  | ok tokens steps => exact steps.left_le

theorem Advances.at (advances : Advances work) (token : Token) : AdvancesAt token work :=
  ⟨advances.stepwise.at token, fun s _ => advances.left_lt s⟩

theorem Advances.bind (first : Advances work) (second : ∀ a, Stepwise (next a)) :
    Advances (work >>= next) := by
  refine ⟨first.stepwise.bind second, fun s b s' ran => ?_⟩
  obtain ⟨a, middle, ranFirst, ranSecond⟩ := run_bind_eq_ok.mp ran
  exact Nat.lt_of_le_of_lt ((second a).left_le ranSecond) (first.left_lt _ _ _ ranFirst)

theorem AdvancesAt.bind (first : AdvancesAt token work) (second : ∀ a, Stepwise (next a)) :
    AdvancesAt token (work >>= next) := by
  refine ⟨first.stepwise.bind second, fun s inView b s' ran => ?_⟩
  obtain ⟨a, middle, ranFirst, ranSecond⟩ := run_bind_eq_ok.mp ran
  exact Nat.lt_of_le_of_lt ((second a).left_le ranSecond) (first.left_lt _ inView _ _ ranFirst)

theorem Stepwise.advances_bind (first : Stepwise work) (second : ∀ a, Advances (next a)) :
    Advances (work >>= next) := by
  refine ⟨first.bind fun a => (second a).stepwise, fun s b s' ran => ?_⟩
  obtain ⟨a, middle, ranFirst, ranSecond⟩ := run_bind_eq_ok.mp ran
  exact Nat.lt_of_lt_of_le ((second a).left_lt _ _ _ ranSecond) (first.left_le ranFirst)

theorem advances_peek_bind {next : Token → Parse β}
    (later : ∀ token, AdvancesAt token (next token)) : Advances (Parser.peek >>= next) := by
  refine ⟨stepwise_peek_bind fun token => (later token).stepwise, fun s b s' ran => ?_⟩
  obtain ⟨token, middle, peeked, ranSecond⟩ := run_bind_eq_ok.mp ran
  exact Nat.lt_of_lt_of_le ((later token).left_lt _ (Parser.peek_inView peeked) _ _ ranSecond)
    (stepwise_peek.left_le peeked)

private theorem advancesAt_drop (some : token.kind ≠ .eof) :
    AdvancesAt token (Parser.onStream Stream.drop) := by
  constructor
  · rintro ⟨⟨cursor, _, scanned⟩, nextId⟩ rfl
    exact .ok [] (.single (.take some))
  · rintro ⟨⟨cursor, _, scanned⟩, nextId⟩ rfl _ _ ⟨⟩
    simp [Parser.left, Stream.unscanned, some]

theorem advancesAt_next (some : token.kind ≠ .eof) : AdvancesAt token Parser.next := by
  constructor
  · rintro ⟨⟨cursor, _, scanned⟩, nextId⟩ rfl
    exact .ok [] (.single (.take some))
  · rintro ⟨⟨cursor, _, scanned⟩, nextId⟩ rfl _ _ ⟨⟩
    simp [Parser.left, Stream.unscanned, some]

theorem advances_refuse (found : Kind) (expected : Expected) :
    Advances (Parser.onStream (Stream.refuse found expected) : Parse α) := by
  refine ⟨fun s => .refused [] (.refl s), fun s a s' ran => ?_⟩
  cases ran

theorem advances_taking {makes : Kind → Option α} (noEof : makes .eof = none)
    (expected : Expected) : Advances (Parser.onStream (Stream.taking makes expected)) := by
  rw [Stream.taking, Parser.onStream_bind]
  apply advances_peek_bind
  intro token
  cases made : makes token.kind with
  | none => exact (advances_refuse token.kind expected).at token
  | some a =>
      have some : token.kind ≠ .eof := by
        intro isEof
        rw [isEof, noEof] at made
        cases made
      rw [Parser.onStream_bind]
      exact (advancesAt_drop some).bind fun _ => stepwise_pure a

end Rules

section Parts

theorem advances_expect {wanted : Token.Class} (some : wanted ≠ .eof) :
    Advances (Parser.expect wanted) := by
  rw [Parser.expect, Stream.consume_eq_taking]
  exact advances_taking (if_neg some.symm) _

theorem advances_mark (wanted : Punct) : Advances (Parser.mark wanted) := advances_expect nofun

theorem advances_word (wanted : Keyword) : Advances (Parser.word wanted) := advances_expect nofun

theorem advances_ident : Advances Parser.ident := by
  rw [Parser.ident, Stream.ident_eq_taking]
  exact advances_taking rfl _

private theorem advances_num : Advances Parser.num := by
  rw [Parser.num, Stream.num_eq_taking]
  exact advances_taking rfl _

theorem stepwise_mark (wanted : Punct) : Stepwise (Parser.mark wanted) :=
  (advances_mark wanted).stepwise

theorem stepwise_word (wanted : Keyword) : Stepwise (Parser.word wanted) :=
  (advances_word wanted).stepwise

theorem stepwise_sees (wanted : Token.Class) : Stepwise (Parser.sees wanted) :=
  stepwise_peek.bind fun _ => stepwise_pure _

theorem stepwise_accept (wanted : Punct) : Stepwise (Parser.accept wanted) := by
  refine (stepwise_sees _).bind fun seen => ?_
  split
  · exact (stepwise_mark wanted).bind fun _ => stepwise_pure true
  · exact stepwise_pure false

theorem stepwise_acceptWord (wanted : Keyword) : Stepwise (Parser.acceptWord wanted) := by
  refine (stepwise_sees _).bind fun seen => ?_
  split
  · exact (stepwise_word wanted).bind fun _ => stepwise_pure true
  · exact stepwise_pure false

theorem advances_unexpected (wanted : Nonterminal) :
    Advances (Parser.unexpected wanted : Parse α) :=
  stepwise_peek.advances_bind fun token => advances_refuse token.kind _

theorem stepwise_node (line : Nat) : Stepwise (Parser.node line) :=
  fun _ => .ok [] (.single .number)

private theorem stepwise_budget : Stepwise Parser.budget := fun s => .ok [] (.refl s)

theorem stepwise_whileM {test : Parse Bool} {item : Parse α} (tests : Stepwise test)
    (items : Stepwise item) (fuel : Nat) : Stepwise (Parser.whileM test item fuel) := by
  induction fuel with
  | zero => exact stepwise_pure []
  | succ fuel ih =>
      refine tests.bind fun goesOn => ?_
      split
      · exact items.bind fun first => ih.bind fun rest => stepwise_pure _
      · exact stepwise_pure []

theorem advances_commaList {item : Parse α} (items : Advances item) (fuel : Nat) :
    Advances (Parser.commaList item fuel) :=
  items.bind fun _ => (stepwise_whileM (stepwise_accept .comma) items.stepwise fuel).bind fun _ =>
    stepwise_pure _

theorem stepwise_parenList {item : Parse α} (items : Advances item) (fuel : Nat) :
    Stepwise (Parser.parenList item fuel) := by
  refine (stepwise_accept .closeParen).bind fun ends => ?_
  split
  · exact stepwise_pure []
  · exact (advances_commaList items fuel).stepwise.bind fun _ => (stepwise_mark _).bind fun _ =>
      stepwise_pure _

end Parts

section Expressions

variable {operand inner : Parse Expr}

theorem stepwise_chain (operands : Stepwise operand) (level : BinOp.Level) (fuel : Nat)
    (left : Expr) : Stepwise (Parser.chain operand level fuel left) := by
  induction fuel generalizing left with
  | zero => exact stepwise_pure left
  | succ fuel ih =>
      apply stepwise_peek_bind
      intro token
      cases isOp : BinOp.ofKind? level token.kind with
      | none => exact (stepwise_pure left).at token
      | some op =>
          have some : token.kind ≠ .eof := BinOp.ne_eof_of_ofKind? isOp
          exact (advancesAt_next some).stepwise.bind fun _ => operands.bind fun right =>
            (stepwise_node _).bind fun node => ih (.binary node op left right)

theorem advances_binary (operands : Advances operand) (fuel : Nat) (levels : List BinOp.Level) :
    Advances (Parser.binary operand fuel levels) := by
  induction levels with
  | nil => exact operands
  | cons level _ ih => exact ih.bind fun left => stepwise_chain ih.stepwise level fuel left

theorem advances_unary (operands : Advances operand) (fuel : Nat) :
    Advances (Parser.unary operand fuel) := by
  induction fuel with
  | zero => exact operands
  | succ fuel ih =>
      apply advances_peek_bind
      intro token
      cases isOp : UnOp.ofKind? token.kind with
      | none => exact operands.at token
      | some op =>
          have some : token.kind ≠ .eof := UnOp.ne_eof_of_ofKind? isOp
          exact (advancesAt_next some).bind fun _ => ih.stepwise.bind fun _ =>
            (stepwise_node _).bind fun _ => stepwise_pure _

theorem advances_primary (inners : Stepwise inner) : Advances (Parser.primary inner) := by
  apply advances_peek_bind
  intro token
  have leaf : ∀ make : Node → Expr, token.kind ≠ .eof → AdvancesAt token (do
      let _ ← Parser.next
      return make (← Parser.node token.line)) := fun make some =>
    (advancesAt_next some).bind fun _ => (stepwise_node _).bind fun _ => stepwise_pure _
  split
  · next kind => exact leaf (.int · _) (by simp [kind])
  · next kind => exact leaf (.bool · true) (by simp [kind])
  · next kind => exact leaf (.bool · false) (by simp [kind])
  · next kind =>
    apply (advancesAt_next (by simp [kind])).bind
    intro _
    apply (stepwise_accept _).bind
    intro opens
    split
    · exact inners.bind fun _ => (stepwise_mark _).bind fun _ => (stepwise_node _).bind fun _ =>
        stepwise_pure _
    · exact (stepwise_node _).bind fun _ => stepwise_pure _
  · next kind =>
    exact (advancesAt_next (by simp [kind])).bind fun _ => inners.bind fun e =>
      (stepwise_mark _).bind fun _ => stepwise_pure e
  · next kind =>
    exact (advancesAt_next (by simp [kind])).bind fun _ => inners.bind fun _ =>
      (stepwise_mark _).bind fun _ => (stepwise_node _).bind fun _ => stepwise_pure _
  · exact (advances_unexpected _).at token

theorem advances_expr (fuel : Nat) : Advances (Parser.expr fuel) := by
  induction fuel with
  | zero => exact advances_unexpected .expr
  | succ fuel ih => exact advances_binary (advances_unary (advances_primary ih.stepwise) _) _ _

theorem stepwise_expr (fuel : Nat) : Stepwise (Parser.expr fuel) := (advances_expr fuel).stepwise

end Expressions

section Statements

theorem stepwise_args (fuel : Nat) : Stepwise (Parser.parenList (Parser.expr fuel) fuel) :=
  stepwise_parenList (advances_expr fuel) fuel

theorem stepwise_callOf (value : Expr) (fuel : Nat) : Stepwise (Parser.callOf value fuel) := by
  unfold Parser.callOf
  split
  · refine (stepwise_accept _).bind fun opens => ?_
    split
    · exact (stepwise_args fuel).bind fun _ => stepwise_pure _
    · exact stepwise_pure none
  · exact stepwise_pure none

theorem advances_assignment (target : String) (line fuel : Nat) :
    Advances (Parser.assignment target line fuel) :=
  (advances_expr fuel).bind fun _ => (stepwise_callOf _ fuel).bind fun _ =>
    (stepwise_mark _).bind fun _ => stepwise_pure _

theorem advances_indexAssignment (target : String) (index : Expr) (line fuel : Nat) :
    Advances (Parser.indexAssignment target index line fuel) :=
  (advances_expr fuel).bind fun _ => (stepwise_callOf _ fuel).bind fun _ =>
    (stepwise_mark _).bind fun _ => stepwise_pure _

theorem advances_condition (fuel : Nat) : Advances (Parser.condition fuel) :=
  (advances_mark _).bind fun _ => (stepwise_expr fuel).bind fun _ =>
    (stepwise_mark _).bind fun _ => stepwise_pure _

theorem stepwise_stmts {stmt : Parse Stmt} (stmts : Stepwise stmt) (fuel : Nat) :
    Stepwise (Parser.whileM (return !(← Parser.accept .closeBrace)) stmt fuel) :=
  stepwise_whileM ((stepwise_accept _).bind fun _ => stepwise_pure _) stmts fuel

theorem advances_block {stmt : Parse Stmt} (stmts : Stepwise stmt) (fuel : Nat) :
    Advances (Parser.block stmt fuel) :=
  (advances_mark _).bind fun _ => stepwise_stmts stmts fuel

theorem advances_stmt (fuel : Nat) : Advances (Parser.stmt fuel) := by
  induction fuel with
  | zero => exact advances_unexpected .stmt
  | succ fuel ih =>
      have block := advances_block ih.stepwise fuel.succ
      apply advances_peek_bind
      intro token
      split
      · next kind =>
        apply (advancesAt_next (by simp [kind])).bind
        intro _
        apply (stepwise_accept _).bind
        intro opens
        split
        · exact (stepwise_expr _).bind fun _ => (stepwise_mark _).bind fun _ =>
            (stepwise_mark _).bind fun _ => (advances_indexAssignment _ _ _ _).stepwise
        · exact (stepwise_mark _).bind fun _ => (advances_assignment _ _ _).stepwise
      · next kind =>
        apply (advancesAt_next (by simp [kind])).bind
        intro _
        apply (advances_condition _).stepwise.bind
        intro _
        apply block.stepwise.bind
        intro _
        apply (stepwise_acceptWord _).bind
        intro more
        split
        · exact block.stepwise.bind fun _ => stepwise_pure _
        · exact stepwise_pure _
      · next kind =>
        exact (advancesAt_next (by simp [kind])).bind fun _ =>
          (advances_condition _).stepwise.bind fun _ => block.stepwise.bind fun _ => stepwise_pure _
      · exact (block.bind fun _ => stepwise_pure _).at token
      · exact (advances_unexpected _).at token

theorem stepwise_stmt (fuel : Nat) : Stepwise (Parser.stmt fuel) := (advances_stmt fuel).stepwise

end Statements

section Programs

theorem advances_type : Advances Parser.type := by
  apply advances_peek_bind
  intro token
  split
  · next kind => exact (advancesAt_next (by simp [kind])).bind fun _ => stepwise_pure _
  · next kind => exact (advancesAt_next (by simp [kind])).bind fun _ => stepwise_pure _
  · next kind =>
    exact (advancesAt_next (by simp [kind])).bind fun _ => (stepwise_mark _).bind fun _ =>
      advances_num.stepwise.bind fun _ => (stepwise_mark _).bind fun _ => stepwise_pure _
  · exact (advances_unexpected _).at token

theorem stepwise_type : Stepwise Parser.type := advances_type.stepwise

theorem advances_param : Advances Parser.param :=
  stepwise_peek.advances_bind fun _ => advances_ident.bind fun _ => (stepwise_mark _).bind
    fun _ => stepwise_type.bind fun _ => stepwise_pure _

theorem stepwise_params (fuel : Nat) : Stepwise (Parser.parenList Parser.param fuel) :=
  stepwise_parenList advances_param fuel

theorem advances_names (fuel : Nat) : Advances (Parser.commaList Parser.ident fuel) :=
  advances_commaList advances_ident fuel

theorem advances_decl (fuel : Nat) : Advances (Parser.decl fuel) :=
  stepwise_peek.advances_bind fun _ => (advances_word _).bind fun _ =>
    (advances_names fuel).stepwise.bind fun _ => (stepwise_mark _).bind fun _ =>
      stepwise_type.bind fun _ => (stepwise_mark _).bind fun _ => stepwise_pure _

theorem stepwise_decls (fuel : Nat) :
    Stepwise (Parser.whileM (Parser.sees (.keyword .var)) (Parser.decl fuel) fuel) :=
  stepwise_whileM (stepwise_sees _) (advances_decl fuel).stepwise fuel

theorem stepwise_bodyGoesOn : Stepwise Parser.bodyGoesOn := by
  refine stepwise_peek.bind fun token => ?_
  split
  · exact stepwise_pure false
  · exact (stepwise_word _).bind fun _ => stepwise_pure false
  · exact (stepwise_word _).bind fun _ => stepwise_pure false
  · exact stepwise_pure true

theorem stepwise_body (fuel : Nat) :
    Stepwise (Parser.whileM Parser.bodyGoesOn (Parser.stmt fuel) fuel) :=
  stepwise_whileM stepwise_bodyGoesOn (stepwise_stmt fuel) fuel

theorem advances_func (fuel : Nat) : Advances (Parser.func fuel) :=
  stepwise_peek.advances_bind fun _ => (advances_word _).bind fun _ =>
    advances_ident.stepwise.bind fun _ => (stepwise_mark _).bind fun _ =>
      (stepwise_params fuel).bind fun _ => (stepwise_mark _).bind fun _ =>
        stepwise_type.bind fun _ => (stepwise_mark _).bind fun _ =>
          (stepwise_decls fuel).bind fun _ => (stepwise_body fuel).bind fun _ =>
            (stepwise_word _).bind fun _ => (stepwise_expr fuel).bind fun _ =>
              (stepwise_mark _).bind fun _ => (stepwise_mark _).bind fun _ => stepwise_pure _

theorem stepwise_functions (fuel : Nat) :
    Stepwise (Parser.whileM (Parser.sees (.keyword .function)) (Parser.func fuel) fuel) :=
  stepwise_whileM (stepwise_sees _) (advances_func fuel).stepwise fuel

/-- Reading a program is made of steps. -/
theorem stepwise_program : Stepwise Parser.program := by
  refine stepwise_budget.bind fun fuel => (stepwise_functions fuel).bind fun funcs =>
    (stepwise_sees _).bind fun ended => ?_
  split
  · exact stepwise_pure funcs
  · exact (advances_unexpected .program).stepwise

end Programs

end Parse

end Wordlang
