import Wordlang.Proofs.Reading.Expr

/-! # Reading statements

A statement is read as it was written unless an else follows it. Whether an assignment is
a call shows only behind its right side: when that is read, what follows the name of a
callee is the list of its arguments.
-/

namespace Wordlang

open Token (Kind)
open Parse

namespace Parser

private theorem takes_callOf_none {rest : List Kind} (noParen : front rest ≠ .punct .openParen)
    (value : Expr) (fuel : Nat) : (callOf value fuel).Takes rest rest (· = none) := by
  unfold callOf
  split
  · apply (takes_accept_not noParen).bind
    rintro _ rfl
    exact takes_pure rfl
  · exact takes_pure rfl

private theorem eq_var_of_bare {e : Expr} {node : Node} {name : String}
    (same : e.bare = (Expr.var node name).bare) : ∃ node, e = .var node name := by
  cases e <;> cases same
  exact ⟨_, rfl⟩

section RightSides

variable {fuel : Nat} {finish : Expr → Option (String × List Expr) → Stmt} {rest : List Kind}
  {wanted : Stmt → Prop}

theorem takes_value {value : Expr} {kinds : List Kind} (spelled : value.Spelled 0 kinds)
    (small : kinds.length ≤ fuel)
    (isWanted : ∀ found, found.bare = value.bare → wanted (finish found none)) :
    Takes (do
      let found ← expr fuel
      let call ← callOf found fuel
      mark .semicolon
      return finish found call) (kinds ++ .punct .semicolon :: rest) rest wanted := by
  apply (spelled.takes small (stops_of_other (by decide))).bind
  intro found same
  apply (takes_callOf_none (by nofun) found fuel).bind
  rintro _ rfl
  exact (takes_mark .semicolon).bind fun _ _ => takes_pure (isWanted found same)

theorem takes_call {node : Node} {callee : String} {args : List Expr} {name kinds : List Kind}
    (isVar : (Expr.var node callee).Spelled 0 name) (one : name.length ≤ fuel)
    (spelled : Spelling.Parens (Expr.Spelled 0) args kinds) (small : kinds.length ≤ fuel)
    (isWanted : ∀ value found, found.map Expr.bare = args.map Expr.bare →
      wanted (finish value (some (callee, found)))) :
    Takes (do
      let found ← expr fuel
      let call ← callOf found fuel
      mark .semicolon
      return finish found call) (name ++ (kinds ++ .punct .semicolon :: rest)) rest wanted := by
  obtain ⟨inner, rfl, takesArgs⟩ := takes_args spelled small
  apply (isVar.takes one (stops_of_other (by decide))).bind
  intro value same
  obtain ⟨node, rfl⟩ := eq_var_of_bare same
  have call : (callOf (.var node callee) fuel).Takes
      (.punct .openParen :: (inner ++ .punct .semicolon :: rest)) (.punct .semicolon :: rest)
      fun found => ∃ found', found = some (callee, found') ∧
        found'.map Expr.bare = args.map Expr.bare := by
    apply takes_accept.bind
    rintro _ rfl
    exact (takesArgs _).bind fun found same => takes_pure ⟨found, rfl, same⟩
  apply call.bind
  rintro _ ⟨found, rfl, same⟩
  exact (takes_mark .semicolon).bind fun _ _ => takes_pure (isWanted _ found same)

end RightSides

theorem takes_condition {cond : Expr} {kinds rest : List Kind} (spelled : cond.Spelled 0 kinds)
    {fuel : Nat} (small : kinds.length ≤ fuel) :
    (condition fuel).Takes (.punct .openParen :: (kinds ++ .punct .closeParen :: rest)) rest
      fun found => found.bare = cond.bare := by
  apply (takes_mark .openParen).bind
  intro _ _
  apply spelled.takes_closed small fun _ => stops_of_other (by decide)
  exact fun found same => takes_pure same

def BeginsStmt : Kind → Prop
  | .ident _ => True
  | .keyword .if_ => True
  | .keyword .while_ => True
  | .punct .openBrace => True
  | _ => False

theorem BeginsStmt.ne {kind other : Kind} (begins : BeginsStmt kind) (not : ¬ BeginsStmt other) :
    kind ≠ other := fun same => not (same ▸ begins)

end Parser

namespace Stmt.Loose

theorem begins {stmt : Stmt} {kinds : List Kind} (loose : stmt.Loose kinds) (rest : List Kind) :
    Parser.BeginsStmt (Parser.front (kinds ++ rest)) := by
  cases loose <;> exact trivial

theorem length_pos {stmt : Stmt} {kinds : List Kind} (loose : stmt.Loose kinds) :
    0 < kinds.length := by
  cases loose <;> exact Nat.succ_pos _

end Stmt.Loose

namespace Parser

/-- Statements are read one by one unless an else follows. -/
abbrev ReadsStmt (item : Parse Stmt) (bound : Nat) : Prop :=
  Reads item Stmt.Loose (front · ≠ .keyword .else_) bound Stmt.bare

theorem takes_block {item : Parse Stmt} {bound : Nat} (each : ReadsStmt item bound)
    {body : List Stmt} {kinds : List Kind} (loose : Spelling.Sequence Stmt.Loose body kinds)
    (small : kinds.length ≤ bound) {fuel : Nat} (enough : kinds.length < fuel) (rest : List Kind) :
    (block item fuel).Takes (.punct .openBrace :: (kinds ++ .punct .closeBrace :: rest)) rest
      fun found => Stmt.bareAll found = Stmt.bareAll body := by
  apply (takes_mark .openBrace).bind
  intro _ _
  simp only [Stmt.bareAll_eq_map]
  have last : front (.punct .closeBrace :: rest) ≠ .keyword .else_ := nofun
  apply each.whileM ?goes ?stops last loose small enough
  case goes =>
    intro stmt own later isStmt
    have begins := isStmt.begins later
    have noElse : front (own ++ later) ≠ .keyword .else_ := begins.ne id
    have noBrace : front (own ++ later) ≠ .punct .closeBrace := begins.ne id
    exact ⟨noElse, (takes_accept_not noBrace).bind fun _ closed => takes_pure (by rw [closed]; rfl)⟩
  case stops =>
    exact takes_accept.bind fun _ closed => takes_pure (by rw [closed]; rfl)

section Steps

variable {fuel : Nat} {rest after : List Kind} {wanted : Stmt → Prop}

theorem takes_target {target : String}
    (reads : ∀ line, (assignment target line (fuel + 1)).Takes rest after wanted) :
    (stmt (fuel + 1)).Takes (.ident target :: .punct .equal :: rest) after wanted := by
  apply Takes.seen
  intro line
  apply takes_next.bind
  intro _ _
  apply (takes_accept_not (by nofun)).bind
  rintro _ rfl
  exact (takes_mark .equal).bind fun _ _ => reads _

theorem takes_element {target : String} {index : Expr} {place : List Kind}
    (spelled : index.Spelled 0 place) (small : place.length ≤ fuel + 1)
    (reads : ∀ found line, found.bare = index.bare →
      (indexAssignment target found line (fuel + 1)).Takes rest after wanted) :
    (stmt (fuel + 1)).Takes (.ident target :: .punct .openBracket ::
      (place ++ .punct .closeBracket :: .punct .equal :: rest)) after wanted := by
  apply Takes.seen
  intro line
  apply takes_next.bind
  intro _ _
  apply takes_accept.bind
  rintro _ rfl
  apply spelled.takes_closed small fun _ => stops_of_other (by decide)
  intro found same
  exact (takes_mark .equal).bind fun _ _ => reads found _ same

theorem takes_if {cond : Expr} {thens : List Stmt} {test first : List Kind}
    (each : ReadsStmt (stmt fuel) fuel) (isCond : cond.Spelled 0 test)
    (isThens : Spelling.Sequence Stmt.Loose thens first) (small : test.length ≤ fuel + 1)
    (smallThens : first.length ≤ fuel)
    (reads : ∀ cond' thens', cond'.bare = cond.bare → Stmt.bareAll thens' = Stmt.bareAll thens →
      Takes (do
        if ← acceptWord .else_ then
          return .choose cond' thens' (← block (stmt fuel) fuel.succ)
        else return .when cond' thens') rest after wanted) :
    (stmt (fuel + 1)).Takes (.keyword .if_ :: .punct .openParen :: (test ++ .punct .closeParen ::
      .punct .openBrace :: (first ++ .punct .closeBrace :: rest))) after wanted := by
  apply Takes.seen
  intro line
  apply takes_next.bind
  intro _ _
  apply (takes_condition isCond small).bind
  intro cond' sameCond
  apply (takes_block each isThens smallThens (Nat.lt_succ_of_le smallThens) rest).bind
  intro thens' sameThens
  exact reads cond' thens' sameCond sameThens

end Steps

private theorem stmt_step {fuel : Nat} (each : ReadsStmt (stmt fuel) fuel) {written : Stmt}
    {kinds rest : List Kind} (loose : written.Loose kinds) (small : kinds.length ≤ fuel + 1)
    (noElse : front rest ≠ .keyword .else_) :
    (stmt (fuel + 1)).Takes (kinds ++ rest) rest fun found => found.bare = written.bare := by
  cases loose
  all_goals
    simp only [List.length_append, List.length_cons, List.append_assoc, List.cons_append,
      List.nil_append] at small ⊢
  case assign value =>
    apply takes_target
    intro line
    apply takes_value value (by omega)
    intro found same
    rw [Stmt.bare, Stmt.bare, same]
  case assignIndex index value =>
    apply takes_element index (by omega)
    intro place line samePlace
    apply takes_value value (by omega)
    intro found same
    rw [Stmt.bare, Stmt.bare, samePlace, same]
  case call name args =>
    apply takes_target
    intro line
    apply takes_call name (by omega) args (by omega)
    intro _ found same
    rw [Stmt.bare, Stmt.bare, same]
  case callIndex index name args =>
    apply takes_element index (by omega)
    intro place line samePlace
    apply takes_call name (by omega) args (by omega)
    intro _ found same
    rw [Stmt.bare, Stmt.bare, samePlace, same]
  case when cond body =>
    apply takes_if each cond body (by omega) (by omega)
    intro cond' body' sameCond sameBody
    apply (takes_acceptWord_not noElse).bind
    rintro _ rfl
    exact takes_pure (by rw [Stmt.bare, Stmt.bare, sameCond, sameBody])
  case choose cond thens elses =>
    apply takes_if each cond thens (by omega) (by omega)
    intro cond' thens' sameCond sameThens
    apply takes_acceptWord.bind
    rintro _ rfl
    apply (takes_block each elses (by omega) (by omega) rest).bind
    intro elses' sameElses
    exact takes_pure (by rw [Stmt.bare, Stmt.bare, sameCond, sameThens, sameElses])
  case loop cond body =>
    apply Takes.seen
    intro line
    apply takes_next.bind
    intro _ _
    apply (takes_condition cond (by omega)).bind
    intro cond' sameCond
    apply (takes_block each body (by omega) (by omega) rest).bind
    intro body' sameBody
    exact takes_pure (by rw [Stmt.bare, Stmt.bare, sameCond, sameBody])
  case block body =>
    apply Takes.seen
    intro line
    apply (takes_block each body (by omega) (by omega) rest).bind
    intro body' sameBody
    exact takes_pure (by rw [Stmt.bare, Stmt.bare, sameBody])

/-- However deep blocks nest, with enough fuel a statement is read as it was written. -/
theorem reads_stmt (fuel : Nat) : ReadsStmt (stmt fuel) fuel := by
  induction fuel with
  | zero =>
      exact ⟨fun loose small _ => absurd loose.length_pos (Nat.not_lt.mpr small),
        fun loose => loose.length_pos⟩
  | succ fuel ih =>
      exact ⟨fun loose small noElse => stmt_step ih loose small noElse,
        fun loose => loose.length_pos⟩

end Parser

end Wordlang
