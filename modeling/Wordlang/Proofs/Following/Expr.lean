import Wordlang.Proofs.Following.Parts
import Wordlang.Proofs.Reading.Expr
import Mathlib.Data.Nat.Init

/-! # Following the grammar of expressions

Reading an expression follows the grammar of expressions: what is read was spelled with the
tokens that were taken, and up to a token that is refused the text can be completed to an
expression. Other texts with the same tokens are read as the same tree, ids included.
-/

namespace Wordlang

open Token (Kind Writable)
open Parse

def Node.unlined (node : Node) : Node := { node with line := 0 }

/-- An expression without its lines. -/
def Expr.unlined : Expr → Expr
  | int node value => .int node.unlined value
  | bool node value => .bool node.unlined value
  | var node name => .var node.unlined name
  | index node name element => .index node.unlined name element.unlined
  | unary node op operand => .unary node.unlined op operand.unlined
  | binary node op left right => .binary node.unlined op left.unlined right.unlined

theorem BinOp.rank_of_ofKind? {rank : Nat} {level : BinOp.Level} {kind : Kind} {op : BinOp}
    (isLevel : BinOp.levels[rank]? = some level) (found : BinOp.ofKind? level kind = some op) :
    kind = .punct op.mark ∧ op.rank = rank := by
  obtain ⟨isMark, sameLevel⟩ := BinOp.ofKind?_eq_some found
  have inside : op.rank < BinOp.levels.length := (List.getElem?_eq_some_iff.mp sameLevel).1
  exact ⟨isMark, (List.getElem?_inj inside (by decide)).mp (sameLevel.trans isLevel.symm)⟩

namespace Parser

variable {size bound : Nat} {operand operand' inner inner' : Parse Expr}

theorem follows_node (line line' : Nat) : Follows (node line) (node line') size bound
    (fun _ own => own = []) Node.unlined := by
  refine ⟨⟨.bare, [], rfl, .nil⟩, fun s ahead before _ _ => ?_⟩
  obtain ⟨next, rest, rfl⟩ := before.exists_cons
  refine .ok [] rfl rfl (before.withId (s.nextId + 1)) (List.append_nil _).symm ?_
  rintro token more s₂ _ _ sameId ⟨tokens, before₂, same⟩
  refine ⟨_, _, rfl, ?_, congrArg Nat.succ sameId, tokens, before₂.withId _, same⟩
  rw [Node.unlined, Node.unlined, sameId]

theorem exists_expr {rank : Nat} (le : rank ≤ operandRank) :
    ∃ (e : Expr) (own : List Kind), e.Spelled rank own ∧ Writable own :=
  ⟨.int .bare 0, [.num 0], .of_le .int le, by simp⟩

private theorem follows_chain {rank : Nat} {level : BinOp.Level}
    (isLevel : BinOp.levels[rank]? = some level)
    (right : Follows operand operand' size bound (Expr.Spelled (rank + 1)) Expr.unlined)
    {n m : Nat} (enough : size ≤ n) (enough' : bound ≤ m) {left left' : Expr} {first : List Kind}
    (same : left'.unlined = left.unlined) (spelled : left.Spelled rank first) :
    Follows (chain operand level n left) (chain operand' level m left') size bound
      (fun e later => e.Spelled rank (first ++ later)) Expr.unlined := by
  refine fuel_induction (P := fun n m size bound =>
    Follows operand operand' size bound (Expr.Spelled (rank + 1)) Expr.unlined →
      ∀ left left' first, left'.unlined = left.unlined → left.Spelled rank first →
        Follows (chain operand level n left) (chain operand' level m left') size bound
          (fun e later => e.Spelled rank (first ++ later)) Expr.unlined)
    ?zero ?unbounded ?step enough enough' right left left' first same spelled
  case zero =>
    intro _ _ _ left _ first _ spelled
    exact .zero ⟨left, [], by simpa using spelled, .nil⟩
  case unbounded =>
    intro _ _ _ _ follows right left left' first same spelled
    exact (follows right left left' first same spelled).unbounded _
  case step =>
    intro n m ih size bound _ _ right left left' first same spelled
    apply Follows.peek ⟨left, [], by simpa using spelled, .nil⟩
    intro kind line line'
    dsimp only
    cases found : BinOp.ofKind? level kind with
    | none =>
        apply Follows.at
        exact follows_pure same (by simpa using spelled)
    | some op =>
        obtain ⟨rfl, rfl⟩ := BinOp.rank_of_ofKind? isLevel found
        apply FollowsAt.next (by nofun)
        intro _ _
        apply (right.mono (by omega) (by omega)).bind
        intro e e' second sameRight isRight
        apply (follows_node line line').bind
        rintro node node' _ sameNode rfl
        -- the chain goes on with a left operand that is larger
        have whole : (Expr.binary node op left e).Spelled op.rank
            (first ++ .punct op.mark :: second) := .binary spelled isRight
        refine (ih _ _ (by omega) (by omega) (right.mono (by omega) (by omega)) _ _ _ ?_ whole).imp
          fun isWhole => by simpa using isWhole
        rw [Expr.unlined, Expr.unlined, sameNode, same, sameRight]

private theorem follows_unary
    (inner : Follows operand operand' size bound (Expr.Spelled operandRank) Expr.unlined)
    {n m : Nat} (enough : size ≤ n) (enough' : bound ≤ m) :
    Follows (unary operand n) (unary operand' m) size bound (Expr.Spelled operandRank)
      Expr.unlined := by
  apply Follows.ofFuel (exists_expr (Nat.le_refl _)) ?step enough enough'
  intro n m ih size' bound' _ _ small le
  apply Follows.peek (exists_expr (Nat.le_refl _))
  intro kind line line'
  have goesOn : ∀ {mark op}, (∀ {node : Node} {e : Expr} {own : List Kind},
      e.Spelled operandRank own →
        (Expr.unary node op e).Spelled operandRank (.punct mark :: own)) →
      FollowsAt (.punct mark)
        (do
          let _ ← next
          let inner ← unary operand n
          return .unary (← node line) op inner)
        (do
          let _ ← next
          let inner ← unary operand' m
          return .unary (← node line') op inner)
        size' bound' (Expr.Spelled operandRank) Expr.unlined := by
    intro mark op whole
    apply FollowsAt.next (by nofun)
    intro _ _
    apply (ih (by omega) (by omega) (by omega) (by omega)).bind
    intro e e' own same spelled
    apply (follows_node line line').bind
    rintro node node' _ sameNode rfl
    refine follows_pure ?_ (by simpa using whole spelled)
    rw [Expr.unlined, Expr.unlined, sameNode, same]
  dsimp only
  cases found : UnOp.ofKind? kind with
  | none => exact (inner.mono small le).at kind
  | some op =>
      unfold UnOp.ofKind? at found
      split at found <;> cases found
      · exact goesOn .neg
      · exact goesOn .not

/-- An expression up to a closing mark. -/
theorem follows_closed {α β : Type} {close : Punct} {goal : α → List Kind → Prop}
    {shape : α → β} {next next' : Expr → Parse α}
    (inside : Follows inner inner' size bound (Expr.Spelled 0) Expr.unlined)
    (each : ∀ {e e' : Expr} {own : List Kind}, e'.unlined = e.unlined → e.Spelled 0 own →
      Follows (next e) (next' e') (size - own.length - 1) (bound - own.length - 1)
        (fun c later => goal c (own ++ .punct close :: later)) shape) :
    Follows (do
        let e ← inner
        mark close
        next e)
      (do
        let e ← inner'
        mark close
        next' e) size bound goal shape := by
  apply inside.bind
  intro e e' own same spelled
  apply (follows_mark close).then
  rintro _ _ rfl
  exact each same spelled

private theorem follows_name
    (inside : Follows inner inner' (size - 1) (bound - 1) (Expr.Spelled 0) Expr.unlined)
    {name : String} (line line' : Nat) :
    FollowsAt (.ident name)
      (do
        let _ ← next
        if ← accept .openBracket then
          let index ← inner
          mark .closeBracket
          return .index (← node line) name index
        else return .var (← node line) name)
      (do
        let _ ← next
        if ← accept .openBracket then
          let index ← inner'
          mark .closeBracket
          return .index (← node line') name index
        else return .var (← node line') name) size bound (Expr.Spelled operandRank)
      Expr.unlined := by
  apply FollowsAt.next (by nofun)
  intro _ _
  apply (follows_accept .openBracket).then
  rintro isElement _ rfl
  cases isElement
  · apply (follows_node line line').bind
    rintro node node' _ same rfl
    exact follows_pure (by rw [Expr.unlined, Expr.unlined, same]) .var
  · apply follows_closed (inside.mono (Nat.sub_le _ _) (Nat.sub_le _ _))
    intro e e' own same spelled
    apply (follows_node line line').bind
    rintro node node' _ sameNode rfl
    refine follows_pure ?_ (by simpa using Expr.Spelled.index spelled)
    rw [Expr.unlined, Expr.unlined, sameNode, same]

private theorem follows_primary
    (inside : Follows inner inner' (size - 1) (bound - 1) (Expr.Spelled 0) Expr.unlined) :
    Follows (primary inner) (primary inner') size bound (Expr.Spelled operandRank)
      Expr.unlined := by
  apply Follows.peek (exists_expr (Nat.le_refl _))
  intro kind line line'
  -- a token that is an expression by itself
  have alone : ∀ {kind} {make : Node → Expr}, kind ≠ .eof →
      (∀ node, (make node).Spelled operandRank [kind]) →
      (∀ {node node' : Node}, node'.unlined = node.unlined →
        (make node').unlined = (make node).unlined) →
      FollowsAt kind
        (do
          let _ ← next
          return make (← node line))
        (do
          let _ ← next
          return make (← node line')) size bound (Expr.Spelled operandRank) Expr.unlined := by
    intro kind make isToken spelled unlined
    apply FollowsAt.next isToken
    intro _ _
    apply (follows_node line line').bind
    rintro node node' _ same rfl
    exact follows_pure (unlined same) (spelled node)
  have noExpr : ∀ kind, FollowsAt kind (unexpected .expr) (unexpected .expr) size bound
      (Expr.Spelled operandRank) Expr.unlined :=
    (follows_unexpected (exists_expr (Nat.le_refl _))).at
  dsimp only
  cases kind with
  | eof => exact noExpr _
  | num value =>
      exact alone nofun (fun _ => .int) fun same => by rw [Expr.unlined, Expr.unlined, same]
  | ident name => exact follows_name inside line line'
  | keyword word =>
      cases word
      case true_ =>
        exact alone nofun (fun _ => .bool) fun same => by rw [Expr.unlined, Expr.unlined, same]
      case false_ =>
        exact alone nofun (fun _ => .bool) fun same => by rw [Expr.unlined, Expr.unlined, same]
      all_goals exact noExpr _
  | punct mark =>
      cases mark
      case openParen =>
        apply FollowsAt.next (by nofun)
        intro _ _
        apply follows_closed inside
        intro e e' own same spelled
        exact follows_pure same (by simpa using Expr.Spelled.parens spelled)
      case bar =>
        apply FollowsAt.next (by nofun)
        intro _ _
        apply follows_closed inside
        intro e e' own same spelled
        apply (follows_node line line').bind
        rintro node node' _ sameNode rfl
        refine follows_pure ?_ (by simpa using Expr.Spelled.magnitude spelled)
        rw [Expr.unlined, Expr.unlined, sameNode, same]
      all_goals exact noExpr _

private theorem follows_ranked {n m : Nat} (enough : size ≤ n + 1) (enough' : bound ≤ m + 1)
    (operands : Follows (operandOf n) (operandOf m) size bound (Expr.Spelled operandRank)
      Expr.unlined) {rank : Nat} (le : rank ≤ operandRank) :
    Follows (ranked n rank) (ranked m rank) size bound (Expr.Spelled rank) Expr.unlined := by
  induction le using Nat.decreasingInduction with
  | self => exact operands
  | of_succ rank lt ih =>
      obtain ⟨level, isLevel⟩ : ∃ level, BinOp.levels[rank]? = some level :=
        ⟨_, List.getElem?_eq_getElem lt⟩
      rw [ranked_level isLevel, ranked_level isLevel]
      apply ih.bind
      intro left left' own same spelled
      exact follows_chain isLevel (ih.mono (Nat.sub_le _ _) (Nat.sub_le _ _)) (by omega) (by omega)
        same spelled.looser

/-- Reading an expression follows the grammar of expressions. -/
theorem follows_expr {n m : Nat} (enough : size ≤ n) (enough' : bound ≤ m) :
    Follows (expr n) (expr m) size bound (Expr.Spelled 0) Expr.unlined := by
  apply Follows.ofFuel (exists_expr (Nat.zero_le _)) ?step enough enough'
  intro n m ih size' bound' few few' small le
  have inside : Follows (expr n) (expr m) (size' - 1) (bound' - 1) (Expr.Spelled 0) Expr.unlined :=
    ih (by omega) (by omega) (by omega) (by omega)
  exact follows_ranked few few' (follows_unary (follows_primary inside) few few') (Nat.zero_le _)

end Parser

end Wordlang
