import Wordlang.Fact.Effect
import Wordlang.Proofs.Explorations

/-! # Effects respect the order

A walk from a lower state leads to a lower state, as long as the states have all names
that the statements use. `Program.loop_ends_least` draws the conclusion for loops: the
states of the passes stay below every state above the entry that the body does not leave,
and the last one is itself such a state.
-/

namespace Wordlang

open State (Grows Proper)

namespace State

variable {state other : State} {names targets : List String}

theorem Grows.names_eq (grows : Grows targets state other) (known : targets ⊆ state.names) :
    other.names = state.names := by
  obtain ⟨new, eq, fresh⟩ := grows.names
  have nodup := grows.proper.nodup
  rw [eq, List.nodup_append] at nodup
  have none : new = [] := List.eq_nil_iff_forall_not_mem.mpr fun name mem =>
    nodup.2.2 name (known (fresh name mem)) name mem rfl
  rw [eq, none, List.append_nil]

/-- States over the same names in the same order are equal when each lies below the other. -/
theorem le_antisymm (nodup : state.names.Nodup) (names : state.names = other.names)
    (le : state.Le other) (ge : other.Le state) : state = other := by
  apply eq_of_facts nodup names
  intro name
  cases known : state.fact? name with
  | none =>
      symm
      rw [fact?_eq_none, ← names]
      exact fact?_eq_none.mp known
  | some fact =>
      obtain ⟨above, isAbove, le⟩ := le name fact known
      obtain ⟨fact', known', ge⟩ := ge name above isAbove
      rw [known] at known'
      cases known'
      rw [isAbove, Fact.le_antisymm le ge]

theorem Spans.names_subset (spans : state.Spans names) : names ⊆ state.names :=
  fun name => (spans.same name).mpr

theorem Spans.of_grows (spans : state.Spans names) (grows : Grows targets state other)
    (sub : targets ⊆ names) : other.Spans names := by
  have same := grows.names_eq (List.Subset.trans sub spans.names_subset)
  exact ⟨grows.proper.nodup, fun name => by rw [same, spans.same]⟩

theorem Spans.noBottom_of_le (spans : other.Spans names) (same : state.Spans names)
    (seen : state.NoBottom) (le : state.Le other) : other.NoBottom := by
  intro name isBottom
  have mem : name ∈ state.names := by
    rw [same.same, ← spans.same]
    by_contra absent
    rw [fact?_eq_none.mpr absent] at isBottom
    cases isBottom
  obtain ⟨fact, known⟩ := exists_fact? mem
  obtain ⟨above, isAbove, below⟩ := le name fact known
  rw [isBottom] at isAbove
  cases isAbove
  cases below with
  | bottom => exact seen name known
  | refl => exact seen name known

end State

theorem Walk.Settles.run_fst {α : Type} {walk : Walk α} {ids : List Nat} {reaches : α → Prop}
    {settled : FactTable → α → Prop} (settles : walk.Settles ids reaches settled)
    (flow flow' : Flow) : (walk.run flow).1 = (walk.run flow').1 := by
  obtain ⟨a, _, finds, _⟩ := settles
  rw [(finds flow).1, (finds flow').1]

theorem Walk.Ensures.reached {α : Type} {walk : Walk α} {reaches : α → Prop}
    {allowed : Nat × Fact → Prop} (ensures : walk.Ensures reaches allowed) (flow : Flow) :
    reaches (walk.run flow).1 := by
  obtain ⟨a, _, finds, reached, _⟩ := ensures
  rwa [(finds flow).1]

theorem Walk.Settles.ensures {α : Type} {walk : Walk α} {ids : List Nat} {reaches : α → Prop}
    {settled : FactTable → α → Prop} (settles : walk.Settles ids reaches settled) :
    walk.Ensures (· = (walk.run {}).1) fun _ => True := by
  obtain ⟨a, trail, finds, _⟩ := settles
  exact ⟨a, trail, finds, (finds {}).1.symm, fun _ _ => trivial⟩

namespace Stmt

variable {stmts : List Stmt} {state above : State} {names : List String}

theorem grows_effect (stmt : Stmt) (proper : state.Proper) :
    Grows stmt.targets state (stmt.effect state) :=
  (walk_settles stmt proper).reached {}

private theorem effectAll_under (nodup : (idsAll stmts).Nodup) (proper : above.Proper)
    (under : state.Under names above) (named : namesAll stmts ⊆ names) :
    (effectAll stmts state).Under names (effectAll stmts above) := by
  obtain ⟨last, trail, finds, _, _, fits⟩ := walkAll_settles stmts proper
  -- the table of the walk from above fits the walk from below, too
  have fits := fits (.ofList trail) nodup fun _ _ => rfl
  have ends : effectAll stmts above = last := (finds {}).1
  rw [ends]
  exact (fits.walk_ensures under named (List.Subset.refl _)).reached {}

section Loops

variable {cond : Expr} {body : List Stmt}

private theorem loop_effect_eq (entered : (cond.fact state).isConst (· != 1) = false) {last : State}
    {trail : List (Nat × Fact)}
    (finds : Walk.Finds (Flow.untilStable (walkAll body) cond
      (Flow.passes state (targetsAll body)) 1 state) last trail) :
    (loop cond body).effect state = last := by
  have whole : Walk.Finds ((loop cond body).walk state) last (cond.trail state ++ trail) := by
    rw [walk]
    apply (cond.walk_finds state).bind
    rwa [entered, if_neg Bool.false_ne_true]
  exact (whole {}).1

theorem targets_loop_subset (named : (loop cond body).names ⊆ names) :
    (loop cond body).targets ⊆ names := fun _ mem =>
  (List.append_subset.mp named).2 (mem_namesAll_of_mem_targetsAll mem)

section Least

variable (nodup : ((loop cond body).exprs.flatMap Expr.ids).Nodup)

include nodup

private theorem loop_effect_stays (proper : state.Proper)
    (entered : (cond.fact state).isConst (· != 1) = false) :
    state.Le ((loop cond body).effect state) ∧
      (effectAll body ((loop cond body).effect state)).Le ((loop cond body).effect state) := by
  -- of the last pass it is enough to know where it ended, whatever the table holds
  have bodies : ∀ s : State, s.Proper → (walkAll body s).Settles (idsAll body)
      (Grows (targetsAll body) s) fun _ after => after = effectAll body s := by
    intro s proper
    obtain ⟨after, trail, finds, grows, sub, _⟩ := walkAll_settles body proper
    exact ⟨after, trail, finds, grows, sub, fun _ _ _ => (finds {}).1.symm⟩
  let visit : Visit := { cond, body, entry := state, passes := 0 }
  obtain ⟨last, trail, finds, _, _, settled⟩ := Flow.untilStable_settles bodies
    visit.mem_names_or_missing 1 proper (fun _ => List.mem_append_left _) visit.roomOf_lt_passes
  obtain ⟨above, _, after, rfl, stays⟩ := settled (.ofList trail) nodup fun _ _ => rfl
  rw [loop_effect_eq entered finds]
  exact ⟨above, stays⟩

variable (named : (loop cond body).names ⊆ names)

include named

private theorem loop_effect_under (proper : above.Proper) (under : state.Under names above)
    (stays : (effectAll body above).Le above) :
    ((loop cond body).effect state).Under names above := by
  have conds (s : State) : (cond.walk s).Ensures (· = cond.fact s) fun _ => True :=
    ⟨_, _, cond.walk_finds s, rfl, fun _ _ => trivial⟩
  have nodupBody : (idsAll body).Nodup := (List.nodup_append.mp nodup).2.1
  have namedBody : namesAll body ⊆ names := (List.append_subset.mp named).2
  have ensures : ((loop cond body).walk state).Ensures (·.Under names above) fun _ => True := by
    apply walk_loop_ensures (fun _ _ one two => one.join two) (conds state) under
    · intro _ s under
      apply (walkAll_settles body under.proper).ensures.mono
      intro after isAfter
      rw [isAfter]
      exact (effectAll_under nodupBody proper under namedBody).mono stays
    · exact fun s _ => (conds s).mono fun _ _ => trivial
  exact ensures.reached {}

/-- A loop that is entered ends in the least state above its entry that its body does not
    leave. -/
theorem loop_effect_least (spans : state.Spans names) (seen : state.NoBottom)
    (entered : (cond.fact state).isConst (· != 1) = false) :
    State.LeastStable names (effectAll body) state ((loop cond body).effect state) := by
  have proper : state.Proper := ⟨spans.nodup, seen⟩
  obtain ⟨above, stays⟩ := loop_effect_stays nodup proper entered
  have grows := grows_effect (loop cond body) proper
  refine ⟨spans.of_grows grows (targets_loop_subset named), above, stays, ?_⟩
  intro other spansOther le staysOther
  have properOther : other.Proper := ⟨spansOther.nodup, spansOther.noBottom_of_le spans seen le⟩
  have under : state.Under names other := ⟨proper, spans.names_subset, le⟩
  exact (loop_effect_under nodup named properOther under staysOther).le

theorem loop_effect_eq_self (spans : state.Spans names) (seen : state.NoBottom)
    (entered : (cond.fact state).isConst (· != 1) = false)
    (stays : (effectAll body state).Le state) : (loop cond body).effect state = state := by
  have proper : state.Proper := ⟨spans.nodup, seen⟩
  have least := loop_effect_least nodup named spans seen entered
  have targets := List.Subset.trans (targets_loop_subset named) spans.names_subset
  have grows := grows_effect (loop cond body) proper
  apply State.le_antisymm grows.proper.nodup (grows.names_eq targets) _ least.above
  exact least.least state spans (State.le_refl _) stays

end Least

theorem entered_of_under (under : state.Under names above) (named : cond.names ⊆ names)
    (entered : (cond.fact state).isConst (· != 1) = false) :
    (cond.fact above).isConst (· != 1) = false := by
  rw [Bool.eq_false_iff] at entered ⊢
  exact fun isConst =>
    entered (Fact.isConst_of_le (cond.fact_ne_bottom state) (under.fact_le named) isConst)

end Loops

/-- The expressions of a statement in a body stand in the whole, and so do its names. -/
theorem within_of_mem_withinAll {stmts : List Stmt} {part : Stmt}
    (mem : part ∈ withinAll stmts) :
    part.exprs.Sublist (exprsAll stmts) ∧ part.names ⊆ namesAll stmts := by
  cases stmts with
  | nil => exact absurd mem List.not_mem_nil
  | cons stmt rest =>
      rw [exprsAll, namesAll]
      rcases List.mem_append.mp mem with mem | mem
      · suffices here : part.exprs.Sublist stmt.exprs ∧ part.names ⊆ stmt.names from
          ⟨List.sublist_append_of_sublist_left here.1,
            List.subset_append_of_subset_left _ here.2⟩
        have itself : stmt.exprs.Sublist stmt.exprs ∧ stmt.names ⊆ stmt.names :=
          ⟨.refl _, List.Subset.refl _⟩
        cases stmt with
        | assign | assignIndex | call | callIndex =>
            rw [List.mem_singleton.mp mem]
            exact itself
        | when cond body | loop cond body =>
            cases List.mem_cons.mp mem with
            | inl same => exact same ▸ itself
            | inr mem =>
                have inner := within_of_mem_withinAll mem
                exact ⟨inner.1.cons _, List.subset_append_of_subset_right _ inner.2⟩
        | choose cond thens elses =>
            cases List.mem_cons.mp mem with
            | inl same => exact same ▸ itself
            | inr mem =>
                cases List.mem_append.mp mem with
                | inl mem =>
                    have inner := within_of_mem_withinAll mem
                    exact ⟨(List.sublist_append_of_sublist_left inner.1).cons _,
                      List.subset_append_of_subset_right _
                        (List.subset_append_of_subset_left _ inner.2)⟩
                | inr mem =>
                    have inner := within_of_mem_withinAll mem
                    exact ⟨(List.sublist_append_of_sublist_right inner.1).cons _,
                      List.subset_append_of_subset_right _
                        (List.subset_append_of_subset_right _ inner.2)⟩
        | block body =>
            cases List.mem_cons.mp mem with
            | inl same => exact same ▸ itself
            | inr mem => exact within_of_mem_withinAll mem
      · have later := within_of_mem_withinAll mem
        exact ⟨List.sublist_append_of_sublist_right later.1,
          List.subset_append_of_subset_right _ later.2⟩
termination_by sizeOf stmts

end Stmt

namespace Program

variable {text : String} {program checked : Program} {checker : Checker} {func : Func}

private theorem nodup_of_mem_withinAll (read : (readProgram text).result = .ok program)
    (passed : program.check = .ok checked checker) (mem : func ∈ checked) {part : Stmt}
    (inside : part ∈ Stmt.withinAll func.body) : (part.exprs.flatMap Expr.ids).Nodup := by
  have body : part.exprs.Sublist func.exprs :=
    (Stmt.within_of_mem_withinAll inside).1.trans (List.sublist_append_left _ _)
  have whole : func.exprs.Sublist (List.flatMap Func.exprs checked) :=
    List.sublist_flatten_of_mem (List.mem_map_of_mem mem)
  exact ((body.trans whole).flatMap _).nodup (ids_nodup_of_check read passed)

/-- A loop of a checked program that is entered from a state over the names of its function
    ends in the least state above the entry that its body does not leave. From there it ends
    where it began, and a larger entry leads to no smaller end. -/
theorem loop_ends_least (read : (readProgram text).result = .ok program)
    (passed : program.check = .ok checked checker) (mem : func ∈ checked) {cond : Expr}
    {body : List Stmt} (inside : .loop cond body ∈ Stmt.withinAll func.body) {entry : State}
    (spans : entry.Spans (func.typing.map (·.1))) (seen : entry.NoBottom)
    (entered : (cond.fact entry).isConst (· != 1) = false) :
    ∃ stable,
      (∀ flow, (((Stmt.loop cond body).walk entry).run flow).1 = stable) ∧
      State.LeastStable (func.typing.map (·.1)) (Stmt.effectAll body) entry stable ∧
      (∀ flow, (((Stmt.loop cond body).walk stable).run flow).1 = stable) ∧
      ∀ larger : State, larger.Spans (func.typing.map (·.1)) → entry.Le larger →
        ∀ flow, stable.Le (((Stmt.loop cond body).walk larger).run flow).1 := by
  have nodup := nodup_of_mem_withinAll read passed mem inside
  have named := List.Subset.trans (Stmt.within_of_mem_withinAll inside).2
    (forall_wellFormed_of_check passed func mem).body.names_subset
  have proper : entry.Proper := ⟨spans.nodup, seen⟩
  have least := Stmt.loop_effect_least nodup named spans seen entered
  -- the loop is entered from every state above the entry
  have later : ∀ larger : State, larger.Spans (func.typing.map (·.1)) → entry.Le larger →
      larger.NoBottom ∧ (cond.fact larger).isConst (· != 1) = false := by
    intro larger spansLarger le
    have under : entry.Under (func.typing.map (·.1)) larger := ⟨proper, spans.names_subset, le⟩
    exact ⟨spansLarger.noBottom_of_le spans seen le,
      Stmt.entered_of_under under (List.append_subset.mp named).1 entered⟩
  have same (state : State) (proper : state.Proper) (flow : Flow) :
      (((Stmt.loop cond body).walk state).run flow).1 = (Stmt.loop cond body).effect state :=
    (Stmt.walk_settles _ proper).run_fst flow {}
  refine ⟨_, same entry proper, least, ?_, ?_⟩
  · intro flow
    obtain ⟨seenStable, enteredStable⟩ := later _ least.spans least.above
    rw [same _ ⟨least.spans.nodup, seenStable⟩ flow]
    exact Stmt.loop_effect_eq_self nodup named least.spans seenStable enteredStable least.stays
  · intro larger spansLarger le flow
    obtain ⟨seenLarger, enteredLarger⟩ := later larger spansLarger le
    have leastLarger := Stmt.loop_effect_least nodup named spansLarger seenLarger enteredLarger
    rw [same larger ⟨spansLarger.nodup, seenLarger⟩ flow]
    exact least.least _ leastLarger.spans (State.le_trans le leastLarger.above) leastLarger.stays

/-- A loop within a loop: the inner one adds up what the outer one does not change. -/
def addingText : String :=
  "function Main(n: int): int \x7b
     var k, sum: int;
     while (k < n) \x7b while (sum < n) \x7b sum = sum + k; \x7d k = 1; \x7d
     return sum; \x7d"

def addingEntry : State := [("n", .top), ("k", .const 1), ("sum", .const 0)]

def addingStable : State := [("n", .top), ("k", .const 1), ("sum", .top)]

/-- The outer loop, entered from one state and left in the other. -/
def addingLoop (stmt : Stmt) : Bool :=
  match stmt with
  | .loop cond body =>
      !(cond.fact addingEntry).isConst (· != 1) && stmt.effect addingEntry == addingStable &&
        Stmt.targetsAll body == ["sum", "k"]
  | _ => false

theorem loop_ends_least_adding : ∃ program checked checker func cond body,
    (readProgram addingText).result = .ok program ∧ program.check = .ok checked checker ∧
      func ∈ checked ∧ .loop cond body ∈ Stmt.withinAll func.body ∧
      addingEntry.Spans (func.typing.map (·.1)) ∧ addingEntry.NoBottom ∧
      (cond.fact addingEntry).isConst (· != 1) = false ∧
      State.LeastStable (func.typing.map (·.1)) (Stmt.effectAll body) addingEntry addingStable ∧
      (∀ flow, (((Stmt.loop cond body).walk addingStable).run flow).1 = addingStable) ∧
      ∀ larger : State, larger.Spans (func.typing.map (·.1)) → addingEntry.Le larger →
        ∀ flow, addingStable.Le (((Stmt.loop cond body).walk larger).run flow).1 := by
  obtain ⟨program, read, accepted⟩ := exists_ok_of_any (x := (readProgram addingText).result)
    (p := fun program => (checkProgram program).result.toOption.any fun made =>
      List.any made.1 fun func => func.typing.map (·.1) == ["n", "k", "sum"] &&
        (Stmt.withinAll func.body).any addingLoop) (by decide +kernel)
  obtain ⟨⟨checked, table⟩, made, holds⟩ := exists_ok_of_any accepted
  obtain ⟨checker, passed, rfl⟩ := checkProgram_eq_ok.mp made
  obtain ⟨func, mem, holds⟩ := List.any_eq_true.mp holds
  obtain ⟨typed, holds⟩ := Bool.and_eq_true_iff.mp holds
  obtain ⟨stmt, inside, holds⟩ := List.any_eq_true.mp holds
  cases stmt with
  | assign | assignIndex | call | callIndex | when | choose | block => cases holds
  | loop cond body =>
      simp only [addingLoop, Bool.and_eq_true, Bool.not_eq_true', beq_iff_eq] at holds
      obtain ⟨⟨entered, effect⟩, _⟩ := holds
      have spans : addingEntry.Spans (func.typing.map (·.1)) := by
        rw [eq_of_beq typed]
        exact ⟨by decide, fun name => Iff.rfl⟩
      have seen : addingEntry.NoBottom := by
        intro name isBottom
        have mem : (name, .bottom) ∈ addingEntry :=
          (lookup_eq_some_iff_mem spans.nodup).mp isBottom
        simp [addingEntry] at mem
      obtain ⟨stable, ends, least, again, larger⟩ :=
        loop_ends_least read passed mem inside spans seen entered
      obtain rfl : addingStable = stable := effect.symm.trans (ends {})
      exact ⟨program, checked, checker, func, cond, body, read, passed, mem, inside, spans, seen,
        entered, least, again, larger⟩

end Program

end Wordlang
