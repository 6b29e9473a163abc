import Mathlib.Data.Set.Function
import Wordlang.Proofs.Permutation
import Wordlang.Proofs.Uses
import Wordlang.Tree.Rename

/-! # Facts under other names

Where the variables of a function get other names, different ones for different variables, a walk
over the function keeps the same states up to the names, and so it records the same facts.
-/

namespace Wordlang

section Names

variable {ρ : String → String} {locals : List String}
  (injective : Set.InjOn ρ {name | name ∈ locals})

include injective

/-- What a name stood for its new name stands for. -/
theorem lookup_renameKeys {α : Type} {entries : List (String × α)}
    (own : entries.map (·.1) ⊆ locals) {name : String} (mem : name ∈ locals) :
    (renameKeys ρ entries).lookup (ρ name) = entries.lookup name := by
  induction entries with
  | nil => rfl
  | cons entry rest ih =>
      obtain ⟨first, own⟩ := List.cons_subset.mp own
      have same : (ρ name == ρ entry.1) = (name == entry.1) := by
        rw [Bool.eq_iff_iff, beq_iff_eq, beq_iff_eq]
        exact injective.eq_iff mem first
      rw [renameKeys_cons, List.lookup_cons, List.lookup_cons, same, ih own]

namespace State

variable {state other : State} {name : String}

theorem fact?_renameKeys (own : state.names ⊆ locals) (mem : name ∈ locals) :
    fact? (renameKeys ρ state) (ρ name) = state.fact? name :=
  lookup_renameKeys injective own mem

theorem assign_renameKeys (own : state.names ⊆ locals) (mem : name ∈ locals) (fact : Fact) :
    assign (renameKeys ρ state) (ρ name) fact = renameKeys ρ (state.assign name fact) := by
  induction state with
  | nil => rfl
  | cons entry rest ih =>
      obtain ⟨first, own⟩ := List.cons_subset.mp own
      rw [renameKeys_cons, assign, assign]
      by_cases same : entry.1 = name
      · rw [if_pos same, if_pos (congrArg ρ same), renameKeys_cons]
      · rw [if_neg same, if_neg fun same' => same (injective first mem same'), renameKeys_cons,
          ih own]

private theorem joinFact_renameKeys (own : state.names ⊆ locals) (mem : name ∈ locals)
    (fact : Fact) :
    joinFact (renameKeys ρ state) (ρ name) fact = renameKeys ρ (state.joinFact name fact) := by
  rw [joinFact, joinFact, fact?_renameKeys injective own mem]
  cases state.fact? name <;> exact assign_renameKeys injective own mem _

omit injective in
theorem names_assign_subset (own : state.names ⊆ locals) (mem : name ∈ locals) (fact : Fact) :
    (state.assign name fact).names ⊆ locals := by
  rw [names_assign]
  split
  · exact own
  · exact List.append_subset.mpr ⟨own, by simpa using mem⟩

omit injective in
private theorem names_joinFact_subset (own : state.names ⊆ locals) (mem : name ∈ locals)
    (fact : Fact) :
    (state.joinFact name fact).names ⊆ locals := by
  rw [names_joinFact, ← names_assign state name fact]
  exact names_assign_subset own mem fact

theorem join_renameKeys (own : state.names ⊆ locals) (own' : other.names ⊆ locals) :
    (state.join other).names ⊆ locals ∧
      join (renameKeys ρ state) (renameKeys ρ other) = renameKeys ρ (state.join other) := by
  induction other generalizing state with
  | nil => exact ⟨own, rfl⟩
  | cons entry rest ih =>
      obtain ⟨first, own'⟩ := List.cons_subset.mp own'
      have step : ∀ (state : State) (entry : String × Fact) (rest : State),
          state.join (entry :: rest) = (state.joinFact entry.1 entry.2).join rest :=
        fun _ _ _ => rfl
      rw [renameKeys_cons, step, step, joinFact_renameKeys injective own first]
      exact ih (names_joinFact_subset own first _) own'

theorem renameKeys_inj (own : state.names ⊆ locals) (own' : other.names ⊆ locals) :
    renameKeys ρ state = renameKeys ρ other ↔ state = other := by
  refine ⟨fun same => ?_, congrArg _⟩
  induction state generalizing other with
  | nil => exact (List.map_eq_nil_iff.mp same.symm).symm
  | cons entry rest ih =>
      cases other with
      | nil => cases same
      | cons entry' rest' =>
          obtain ⟨first, own⟩ := List.cons_subset.mp own
          obtain ⟨first', own'⟩ := List.cons_subset.mp own'
          simp only [renameKeys_cons, List.cons.injEq, Prod.mk.injEq] at same
          obtain ⟨⟨name, fact⟩, later⟩ := same
          rw [Prod.ext (injective first first' name) fact, ih own own' later]

end State

/-- A state over the variables, and the same state with their new names. -/
def State.Renames (ρ : String → String) (locals : List String) (state state' : State) : Prop :=
  state.names ⊆ locals ∧ state' = renameKeys ρ state

namespace State.Renames

variable {state state' other other' : State} {name : String}

theorem assign (renames : state.Renames ρ locals state') (mem : name ∈ locals) (fact : Fact) :
    (state.assign name fact).Renames ρ locals (state'.assign (ρ name) fact) := by
  obtain ⟨own, rfl⟩ := renames
  exact ⟨State.names_assign_subset own mem fact, State.assign_renameKeys injective own mem fact⟩

theorem join (first : state.Renames ρ locals state') (second : other.Renames ρ locals other') :
    (state.join other).Renames ρ locals (state'.join other') := by
  obtain ⟨own, rfl⟩ := first
  obtain ⟨own', rfl⟩ := second
  exact State.join_renameKeys injective own own'

omit injective in
theorem forget (renames : state.Renames ρ locals state') :
    state.forget.Renames ρ locals state'.forget := by
  obtain ⟨own, rfl⟩ := renames
  exact ⟨by rwa [State.names_forget], by simp [State.forget, renameKeys]⟩

theorem eq_iff (first : state.Renames ρ locals state') (second : other.Renames ρ locals other') :
    state' = other' ↔ state = other := by
  obtain ⟨own, rfl⟩ := first
  obtain ⟨own', rfl⟩ := second
  exact State.renameKeys_inj injective own own'

end State.Renames

/-- Two walks record the same facts and end with results that match. -/
def Walk.Matches {α β : Type} (fits : α → β → Prop) (walk : Walk α) (walk' : Walk β) : Prop :=
  ∃ a b trail, walk.Finds a trail ∧ walk'.Finds b trail ∧ fits a b

namespace Walk.Matches

variable {α β γ δ : Type} {fits : α → β → Prop} {fits' : γ → δ → Prop}

omit injective

theorem pure {a : α} {b : β} (h : fits a b) : Matches fits (Pure.pure a) (Pure.pure b) :=
  ⟨a, b, [], finds_pure a, finds_pure b, h⟩

theorem report (event event' : Event) :
    Matches (fun _ _ => True) (Flow.report event) (Flow.report event') :=
  ⟨(), (), [], finds_report event, finds_report event', trivial⟩

theorem bind {walk : Walk α} {walk' : Walk β} {next : α → Walk γ} {next' : β → Walk δ}
    (first : walk.Matches fits walk')
    (later : ∀ a b, fits a b → (next a).Matches fits' (next' b)) :
    Matches fits' (walk >>= next) (walk' >>= next') := by
  obtain ⟨a, b, trail, finds, finds', fit⟩ := first
  obtain ⟨c, d, trail', later, later', fit'⟩ := later a b fit
  exact ⟨c, d, trail ++ trail', finds.bind later, finds'.bind later', fit'⟩

end Walk.Matches

section Walks

variable {state state' : State}

theorem Expr.fact_rename {e : Expr} (names : e.names ⊆ locals)
    (renames : state.Renames ρ locals state') : (e.rename ρ).fact state' = e.fact state := by
  obtain ⟨own, rfl⟩ := renames
  induction e with
  | int | bool => rfl
  | var node name =>
      have mem : name ∈ locals := names List.mem_cons_self
      simp only [rename, fact, State.fact?_renameKeys injective own mem]
  | index node name element ih => rfl
  | unary node op operand ih => rw [rename, fact, fact, ih names]
  | binary node op left right ihLeft ihRight =>
      obtain ⟨first, second⟩ := List.append_subset.mp names
      rw [rename, fact, fact, ihLeft first, ihRight second]

theorem Expr.trail_rename {e : Expr} (names : e.names ⊆ locals)
    (renames : state.Renames ρ locals state') : (e.rename ρ).trail state' = e.trail state := by
  rw [trail, trail, parts_rename, List.map_map]
  refine List.map_congr_left fun part mem => ?_
  have inner := List.Subset.trans (names_subset_of_mem_parts mem) names
  rw [Function.comp_apply, id_rename, fact_rename injective inner renames]

theorem Expr.walk_rename {e : Expr} (names : e.names ⊆ locals)
    (renames : state.Renames ρ locals state') :
    (e.walk state).Matches Eq ((e.rename ρ).walk state') := by
  have finds := (e.rename ρ).walk_finds state'
  rw [trail_rename injective names renames] at finds
  exact ⟨_, _, _, e.walk_finds state, finds, (fact_rename injective names renames).symm⟩

theorem Expr.walkAll_rename {es : List Expr} (names : es.flatMap Expr.names ⊆ locals)
    (renames : state.Renames ρ locals state') :
    (walkAll state es).Matches Eq (walkAll state' (es.map (Expr.rename ρ))) := by
  induction es with
  | nil => exact .pure rfl
  | cons e rest ih =>
      obtain ⟨first, names⟩ := List.append_subset.mp names
      exact (e.walk_rename injective first renames).bind fun _ _ _ => ih names

theorem Flow.untilStable_rename {body body' : State → Walk State} {cond : Expr}
    (names : cond.names ⊆ locals)
    (inner : ∀ {state state'}, state.Renames ρ locals state' →
      (body state).Matches (State.Renames ρ locals) (body' state'))
    (renames : state.Renames ρ locals state') (fuel pass : Nat) :
    (untilStable body cond fuel pass state).Matches (State.Renames ρ locals)
      (untilStable body' (cond.rename ρ) fuel pass state') := by
  induction fuel generalizing state state' pass with
  | zero => exact .pure renames
  | succ fuel ih =>
      apply (inner renames).bind
      intro after after' renamesAfter
      have next := renamesAfter.join injective renames
      refine (cond.walk_rename injective names renamesAfter).bind fun _ _ _ => ?_
      refine (Walk.Matches.report _ _).bind fun _ _ _ => ?_
      simp only [next.eq_iff injective renames]
      split
      · exact (cond.walk_rename injective names next).bind fun _ _ _ => .pure next
      · exact ih next (pass + 1)

omit injective in
mutual

theorem Stmt.targets_rename (ρ : String → String) (stmt : Stmt) :
    (stmt.rename ρ).targets = stmt.targets.map ρ := by
  cases stmt with
  | assign | assignIndex | call | callIndex => rfl
  | when _ body | loop _ body | block body => exact targetsAll_rename ρ body
  | choose _ thens elses =>
      rw [rename, targets, targets, List.map_append, targetsAll_rename ρ thens,
        targetsAll_rename ρ elses]

theorem Stmt.targetsAll_rename (ρ : String → String) (stmts : List Stmt) :
    targetsAll (renameAll ρ stmts) = (targetsAll stmts).map ρ := by
  cases stmts with
  | nil => rfl
  | cons stmt rest =>
      rw [renameAll, targetsAll, targetsAll, List.map_append, targets_rename ρ stmt,
        targetsAll_rename ρ rest]

end

omit injective in
theorem Flow.passes_rename (renames : state.Renames ρ locals state') (body : List Stmt) :
    passes state' (Stmt.targetsAll (Stmt.renameAll ρ body)) =
      passes state (Stmt.targetsAll body) := by
  rw [renames.2, passes, passes, Stmt.targetsAll_rename, length_renameKeys, List.length_map]

end Walks

end Names

section Statements

variable {ρ : String → String} {locals : List String}

mutual

theorem Stmt.walk_rename (stmt : Stmt) {state state' : State}
    (injective : Set.InjOn ρ {name | name ∈ locals}) (names : stmt.names ⊆ locals)
    (renames : state.Renames ρ locals state') :
    (stmt.walk state).Matches (State.Renames ρ locals) ((stmt.rename ρ).walk state') := by
  cases stmt with
  | assign target value =>
      obtain ⟨mem, names⟩ := List.cons_subset.mp names
      apply (value.walk_rename injective names renames).bind
      rintro fact _ rfl
      exact .pure (renames.assign injective mem fact)
  | assignIndex target index value =>
      obtain ⟨names, names'⟩ := List.append_subset.mp (List.cons_subset.mp names).2
      refine (index.walk_rename injective names renames).bind fun _ _ _ => ?_
      exact (value.walk_rename injective names' renames).bind fun _ _ _ => .pure renames
  | call line target callee args =>
      obtain ⟨mem, names⟩ := List.cons_subset.mp names
      refine (Expr.walkAll_rename injective names renames).bind fun _ _ _ => ?_
      exact .pure (renames.forget.assign injective mem .top)
  | callIndex line target index callee args =>
      obtain ⟨names, names'⟩ := List.append_subset.mp (List.cons_subset.mp names).2
      refine (index.walk_rename injective names renames).bind fun _ _ _ => ?_
      exact (Expr.walkAll_rename injective names' renames).bind fun _ _ _ => .pure renames.forget
  | when cond body =>
      obtain ⟨names, names'⟩ := List.append_subset.mp names
      have inner := walkAll_rename body injective names' renames
      rw [rename, walk, walk]
      apply (cond.walk_rename injective names renames).bind
      rintro fact _ rfl
      cases fact.const? with
      | none => exact inner.bind fun _ _ renames' => .pure (renames'.join injective renames)
      | some value =>
          dsimp only
          split
          · exact inner
          · exact .pure renames
  | choose cond thens elses =>
      obtain ⟨names, names'⟩ := List.append_subset.mp names
      obtain ⟨namesThens, namesElses⟩ := List.append_subset.mp names'
      have first := walkAll_rename thens injective namesThens renames
      have second := walkAll_rename elses injective namesElses renames
      rw [rename, walk, walk]
      apply (cond.walk_rename injective names renames).bind
      rintro fact _ rfl
      cases fact.const? with
      | none =>
          refine first.bind fun _ _ one => ?_
          exact second.bind fun _ _ two => .pure (one.join injective two)
      | some value =>
          dsimp only
          split
          · exact first
          · exact second
  | loop cond body =>
      obtain ⟨names, names'⟩ := List.append_subset.mp names
      rw [rename, walk, walk]
      apply (cond.walk_rename injective names renames).bind
      rintro fact _ rfl
      split
      · exact .pure renames
      · rw [Flow.passes_rename renames]
        exact Flow.untilStable_rename injective names (walkAll_rename body injective names')
          renames _ _
  | block body => exact walkAll_rename body injective names renames
termination_by sizeOf stmt

theorem Stmt.walkAll_rename (stmts : List Stmt) {state state' : State}
    (injective : Set.InjOn ρ {name | name ∈ locals}) (names : namesAll stmts ⊆ locals)
    (renames : state.Renames ρ locals state') :
    (walkAll stmts state).Matches (State.Renames ρ locals)
      (walkAll (renameAll ρ stmts) state') := by
  cases stmts with
  | nil => exact .pure renames
  | cons stmt rest =>
      obtain ⟨first, names⟩ := List.append_subset.mp names
      apply (walk_rename stmt injective first renames).bind
      exact fun _ _ renames => walkAll_rename rest injective names renames
termination_by sizeOf stmts

end

end Statements

namespace Func

/-- Other names for the variables of a function: different ones, none of which hides a function
    that it calls. -/
structure Renaming (ρ : String → String) (func : Func) : Prop where
  injective : Set.InjOn ρ {name | name ∈ func.typing.map (·.1)}
  apart : ∀ name ∈ func.typing.map (·.1), ρ name ∉ func.callees

/-- What other functions know about a function. -/
def signature (func : Func) : String × Nat × Ty := (func.name, func.params.length, func.returns)

@[simp] theorem signature_rename (ρ : String → String) (func : Func) :
    (func.rename ρ).signature = func.signature := by
  simp [signature, rename]

variable {ρ : String → String} {func : Func}

private theorem entryState_rename (legal : func.Renaming ρ) :
    func.entryState.Renames ρ (func.typing.map (·.1)) (func.rename ρ).entryState := by
  have grow : ∀ (typing : Typing) (state state' : State),
      typing.map (·.1) ⊆ func.typing.map (·.1) →
      state.Renames ρ (func.typing.map (·.1)) state' →
      State.Renames ρ (func.typing.map (·.1))
        (typing.foldl (fun state entry => State.assign state entry.1 .top) state)
        ((renameKeys ρ typing).foldl (fun state entry => State.assign state entry.1 .top)
          state') := by
    intro typing
    induction typing with
    | nil => exact fun _ _ _ renames => renames
    | cons entry rest ih =>
        intro state state' own renames
        obtain ⟨first, own⟩ := List.cons_subset.mp own
        exact ih _ _ own (renames.assign legal.injective first .top)
  rw [entryState_eq, entryState_eq, typing_rename]
  exact grow func.typing [] [] (List.Subset.refl _) ⟨List.nil_subset _, rfl⟩

theorem trail_rename (legal : func.Renaming ρ) (names : func.names ⊆ func.typing.map (·.1)) :
    (func.rename ρ).trail = func.trail := by
  obtain ⟨body, result⟩ := List.append_subset.mp names
  have walked : func.walk.Matches (fun _ _ => True) (func.rename ρ).walk := by
    apply (Stmt.walkAll_rename func.body legal.injective body (entryState_rename legal)).bind
    intro state state' renames
    refine (func.result.walk_rename legal.injective result renames).bind fun _ _ _ => ?_
    exact .report _ _
  obtain ⟨_, _, trail, finds, finds', -⟩ := walked
  exact (finds' {}).2.trans (finds {}).2.symm

end Func

end Wordlang
