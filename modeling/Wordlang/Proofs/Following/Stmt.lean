import Wordlang.Proofs.Following.Expr
import Wordlang.Proofs.Reading.Stmt

/-! # Following the grammar of statements

Reading a statement follows the loose grammar. Where the right side of an assignment is read
as a name, the arguments of a call may follow, also behind a name in parentheses.
-/

namespace Wordlang

open Token (Kind Writable)
open Parse

mutual

/-- A statement without its lines. -/
def Stmt.unlined : Stmt → Stmt
  | .assign target value => .assign target value.unlined
  | .assignIndex target index value => .assignIndex target index.unlined value.unlined
  | .call _ target callee args => .call 0 target callee (args.map Expr.unlined)
  | .callIndex _ target index callee args =>
      .callIndex 0 target index.unlined callee (args.map Expr.unlined)
  | .when cond body => .when cond.unlined (unlinedAll body)
  | .choose cond thens elses => .choose cond.unlined (unlinedAll thens) (unlinedAll elses)
  | .loop cond body => .loop cond.unlined (unlinedAll body)
  | .block body => .block (unlinedAll body)

/-- Statements without their lines. -/
def Stmt.unlinedAll : List Stmt → List Stmt
  | [] => []
  | stmt :: rest => stmt.unlined :: unlinedAll rest

end

theorem Stmt.unlinedAll_eq_map (stmts : List Stmt) : unlinedAll stmts = stmts.map unlined := by
  induction stmts with
  | nil => rfl
  | cons stmt rest ih => rw [unlinedAll, List.map_cons, ih]

namespace Parser

variable {size bound : Nat}

/-- What may stand behind the right side of an assignment: nothing, or the arguments of a call
    if the right side is a name. -/
inductive Called (value : Expr) : Option (String × List Expr) → List Kind → Prop where
  | none : Called value none []
  | some {node : Node} {callee : String} {args : List Expr} {own : List Kind} :
      value = .var node callee → Spelling.Parens (Expr.Spelled 0) args own →
      Called value (some (callee, args)) own

/-- The callee and the arguments of a call without their lines. -/
def unlinedCall (call : Option (String × List Expr)) : Option (String × List Expr) :=
  call.map fun (callee, args) => (callee, args.map Expr.unlined)

private theorem follows_callOf {value value' : Expr} (same : value'.unlined = value.unlined)
    {n m : Nat}
    (enough : size ≤ n) (enough' : bound ≤ m) :
    Follows (callOf value n) (callOf value' m) size bound (Called value) unlinedCall := by
  cases value <;> cases value' <;> simp only [Expr.unlined, reduceCtorEq] at same
  case var.var node callee node' callee' =>
    obtain rfl : callee' = callee := by simp_all
    apply (follows_accept .openParen).then
    rintro isCall _ rfl
    cases isCall
    · exact follows_pure rfl .none
    · have args := (follows_expr enough enough').parenList (fun spelled => spelled.length_pos)
        enough enough'
      apply (args.mono (Nat.sub_le _ _) (Nat.sub_le _ _)).bind
      intro args args' own same isArgs
      refine follows_pure ?_ (by simpa using Called.some rfl isArgs)
      simp only [unlinedCall, Option.map_some, same]
  all_goals exact follows_pure rfl .none

theorem follows_rightSide {finish finish' : Expr → Option (String × List Expr) → Stmt}
    {goal : Stmt → List Kind → Prop}
    (isValue : ∀ {value own}, value.Spelled 0 own →
      goal (finish value none) (own ++ [.punct .semicolon]))
    (isCall : ∀ {node callee args name own}, (Expr.var node callee).Spelled 0 name →
      Spelling.Parens (Expr.Spelled 0) args own →
        goal (finish (.var node callee) (some (callee, args))) (name ++ own ++ [.punct .semicolon]))
    (same : ∀ {value value' call call'}, value'.unlined = value.unlined →
      unlinedCall call' = unlinedCall call →
        (finish' value' call').unlined = (finish value call).unlined) {n m : Nat}
    (enough : size ≤ n) (enough' : bound ≤ m) :
    Follows
      (do
        let value ← expr n
        let call ← callOf value n
        mark .semicolon
        return finish value call)
      (do
        let value ← expr m
        let call ← callOf value m
        mark .semicolon
        return finish' value call) size bound goal Stmt.unlined := by
  apply (follows_expr enough enough').bind
  intro value value' own sameValue spelled
  apply (follows_callOf sameValue (by omega) (by omega)).bind
  intro call call' later sameCall called
  apply (follows_mark .semicolon).then
  rintro _ _ rfl
  refine follows_pure (same sameValue sameCall) ?_
  cases called with
  | none => simpa using isValue spelled
  | some isVar isArgs =>
      subst isVar
      simpa using isCall spelled isArgs

private theorem follows_assignment {target : String} (line line' : Nat) {n m : Nat}
    (enough : size ≤ n)
    (enough' : bound ≤ m) :
    Follows (assignment target line n) (assignment target line' m) size bound
      (fun stmt later => stmt.Loose (.ident target :: .punct .equal :: later)) Stmt.unlined := by
  refine follows_rightSide ?isValue ?isCall ?same enough enough'
  case isValue => exact fun spelled => .assign spelled
  case isCall => exact fun isVar isArgs => by simpa using Stmt.Loose.call isVar isArgs
  case same =>
    intro value value' call call' sameValue sameCall
    cases call <;> cases call' <;> simp_all [unlinedCall, Stmt.unlined]

private theorem follows_indexAssignment {target : String} {index index' : Expr} {place : List Kind}
    (same : index'.unlined = index.unlined) (spelled : index.Spelled 0 place) (line line' : Nat)
    {n m : Nat} (enough : size ≤ n) (enough' : bound ≤ m) :
    Follows (indexAssignment target index line n) (indexAssignment target index' line' m) size bound
      (fun stmt later => stmt.Loose (.ident target :: .punct .openBracket ::
        (place ++ .punct .closeBracket :: .punct .equal :: later))) Stmt.unlined := by
  refine follows_rightSide ?isValue ?isCall ?same enough enough'
  case isValue => exact fun isValue => by simpa using Stmt.Loose.assignIndex spelled isValue
  case isCall => exact fun isVar isArgs => by simpa using Stmt.Loose.callIndex spelled isVar isArgs
  case same =>
    intro value value' call call' sameValue sameCall
    cases call <;> cases call' <;> simp_all [unlinedCall, Stmt.unlined]

theorem follows_condition {n m : Nat} (enough : size ≤ n) (enough' : bound ≤ m) :
    Follows (condition n) (condition m) size bound
      (fun cond own => ∃ test, cond.Spelled 0 test ∧
        own = .punct .openParen :: test ++ [.punct .closeParen]) Expr.unlined := by
  apply (follows_mark .openParen).then
  rintro _ _ rfl
  apply follows_closed (follows_expr (by omega) (by omega))
  intro e e' own same spelled
  exact follows_pure same ⟨own, spelled, by simp⟩

private theorem follows_block {item item' : Parse Stmt}
    (each : Follows item item' (size - 1) (bound - 1) Stmt.Loose Stmt.unlined) {n m : Nat}
    (enough : size ≤ n) (enough' : bound ≤ m) :
    Follows (block item n) (block item' m) size bound
      (fun body own => ∃ inner, Spelling.Sequence Stmt.Loose body inner ∧
        own = .punct .openBrace :: inner ++ [.punct .closeBrace]) (List.map Stmt.unlined) := by
  apply (follows_mark .openBrace).then
  rintro _ _ rfl
  have tested : ∀ {size bound}, Follows (do return !(← accept .closeBrace))
      (do return !(← accept .closeBrace)) size bound
      (fun goesOn => given (.punct .closeBrace) !goesOn) id := by
    intro size bound
    apply (follows_accept .closeBrace).then
    rintro isClosed _ isGiven
    exact follows_pure rfl (by simpa [given] using isGiven)
  have stop : ∃ own, given (.punct .closeBrace) (!false) own ∧ Writable own :=
    ⟨_, rfl, by simp [Writable]⟩
  refine (each.whileM tested (fun loose => loose.length_pos) stop (by simp; omega)
    (by simp; omega)).imp ?_
  intro body own loop
  obtain ⟨inner, isBody, rfl⟩ := loop.closed
  exact ⟨inner, isBody, rfl⟩

theorem exists_stmt : ∃ (stmt : Stmt) (own : List Kind), stmt.Loose own ∧ Writable own :=
  ⟨.block [], _, .block .nil, by simp⟩

/-- Reading a statement follows the loose grammar. -/
theorem follows_stmt {n m : Nat} (enough : size ≤ n) (enough' : bound ≤ m) :
    Follows (stmt n) (stmt m) size bound Stmt.Loose Stmt.unlined := by
  apply Follows.ofFuel exists_stmt ?step enough enough'
  intro n m ih size bound few few' small le
  have inside : Follows (stmt n) (stmt m) (size - 1) (bound - 1) Stmt.Loose Stmt.unlined :=
    ih (by omega) (by omega) (by omega) (by omega)
  have blocks : Follows (block (stmt n) n.succ) (block (stmt m) m.succ) size bound
      (fun body own => ∃ inner, Spelling.Sequence Stmt.Loose body inner ∧
        own = .punct .openBrace :: inner ++ [.punct .closeBrace]) (List.map Stmt.unlined) :=
    follows_block inside few few'
  have noStmt : ∀ kind, FollowsAt kind (unexpected .stmt) (unexpected .stmt) size bound Stmt.Loose
      Stmt.unlined := (follows_unexpected exists_stmt).at
  apply Follows.peek exists_stmt
  intro kind line line'
  dsimp only
  cases kind with
  | eof | num => exact noStmt _
  | ident target =>
      apply FollowsAt.next (by nofun)
      intro _ _
      apply (follows_accept .openBracket).then
      rintro isElement _ rfl
      cases isElement
      · apply (follows_mark .equal).then
        rintro _ _ rfl
        exact follows_assignment line line' (by omega) (by omega)
      · apply follows_closed (follows_expr (by omega) (by omega))
        intro index index' place same spelled
        apply (follows_mark .equal).then
        rintro _ _ rfl
        exact follows_indexAssignment same spelled line line' (by omega) (by omega)
  | keyword word =>
      cases word
      case if_ =>
        apply FollowsAt.next (by nofun)
        intro _ _
        apply (follows_condition (by omega) (by omega)).bind
        rintro cond cond' _ sameCond ⟨test, isCond, rfl⟩
        apply (blocks.mono (by omega) (by omega)).bind
        rintro thens thens' _ sameThens ⟨first, isThens, rfl⟩
        apply (follows_acceptWord .else_).then
        rintro isElse _ rfl
        cases isElse
        · refine follows_pure ?_ (by simpa [given] using Stmt.Loose.when isCond isThens)
          simp only [Stmt.unlined, Stmt.unlinedAll_eq_map, sameCond, sameThens]
        · apply (blocks.mono (by omega) (by omega)).bind
          rintro elses elses' _ sameElses ⟨second, isElses, rfl⟩
          refine follows_pure ?_ (by simpa [given] using Stmt.Loose.choose isCond isThens isElses)
          simp only [Stmt.unlined, Stmt.unlinedAll_eq_map, sameCond, sameThens, sameElses]
      case while_ =>
        apply FollowsAt.next (by nofun)
        intro _ _
        apply (follows_condition (by omega) (by omega)).bind
        rintro cond cond' _ sameCond ⟨test, isCond, rfl⟩
        apply (blocks.mono (by omega) (by omega)).bind
        rintro body body' _ sameBody ⟨inner, isBody, rfl⟩
        refine follows_pure ?_ (by simpa using Stmt.Loose.loop isCond isBody)
        simp only [Stmt.unlined, Stmt.unlinedAll_eq_map, sameCond, sameBody]
      all_goals exact noStmt _
  | punct mark =>
      cases mark
      case openBrace =>
        apply Follows.at
        apply blocks.bind
        rintro body body' _ sameBody ⟨inner, isBody, rfl⟩
        refine follows_pure ?_ (by simpa using Stmt.Loose.block isBody)
        simp only [Stmt.unlined, Stmt.unlinedAll_eq_map, sameBody]
      all_goals exact noStmt _

end Parser

end Wordlang
