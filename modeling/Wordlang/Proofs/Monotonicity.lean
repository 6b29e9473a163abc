import Wordlang.Fact.Listing
import Wordlang.Proofs.Effects

/-! # Walks are monotone

A walk that begins with less knowledge finds less. Whatever it skips, a walk from a lower state
skips as well, though it may take other branches and other numbers of passes on the way: the
table of the walk from above, set to `bottom` where that walk did not come, lies above all that
the walk from below records. As no fact of an expression is `bottom`, the walk from below comes
to no other nodes (`Program.listing_monotone`).
-/

namespace Wordlang

open State (Grows)

def Listing.names (listing : Listing) : List String :=
  Stmt.namesAll listing.stmts ++ listing.result.toList.flatMap Expr.names

namespace Listing

variable {listing : Listing} {table : FactTable} {names : List String}
  {state lower upper last : State}

def liveIds (known : Expr → Option Word) (listing : Listing) : List Nat :=
  Stmt.idsAll (Stmt.liveAll known listing.stmts) ++ listing.result.toList.flatMap Expr.ids

private theorem liveIds_subset (known : Expr → Option Word) (listing : Listing) :
    listing.liveIds known ⊆ listing.ids := by
  rw [ids, exprs, List.flatMap_append]
  have live := (Stmt.exprsAll_live_sublist known listing.stmts).flatMap Expr.ids
  exact (live.append (List.Sublist.refl _)).subset

/-- A table fits a list that leads from a state to another one. -/
structure Fitted (listing : Listing) (table : FactTable) (state last : State) : Prop where
  stmts : table.Fits listing.stmts state last
  result : ∀ e ∈ listing.result.toList, table.Knows last e

theorem walk_settles (listing : Listing) (proper : state.Proper) :
    (listing.walk state).Settles listing.ids (Grows (Stmt.targetsAll listing.stmts) state)
      fun table last => listing.Fitted table state last := by
  have walked : (listing.walk state).Settles _ _ _ :=
    (Stmt.walkAll_settles listing.stmts proper).bind fun last grows =>
      (Expr.walkAll_settles last listing.result.toList).bind fun _ _ => Walk.settles_pure grows
  apply walked.weaken _ fun _ h => h
  · rintro table _ _ ⟨last, _, fits, _, _, knows, rfl⟩
    exact ⟨fits, knows⟩
  · rw [ids, exprs, List.flatMap_append, List.append_nil]
    exact .refl _

/-- A walk from below a list that a table fits finds nothing that the table does not lie above. -/
theorem Fitted.walk_ensures (fitted : listing.Fitted table upper last)
    (under : lower.Under names upper) (named : listing.names ⊆ names) :
    (listing.walk lower).Ensures (·.Under names last)
      (table.Above (listing.liveIds table.known)) := by
  obtain ⟨namedStmts, namedResult⟩ := List.append_subset.mp named
  apply (fitted.stmts.walk_ensures under namedStmts (List.subset_append_left _ _)).bind
  intro after under'
  apply (Expr.walkAll_ensures fitted.result under' namedResult
    (List.subset_append_right _ _)).bind
  intro _ _
  exact Walk.ensures_pure under'

theorem Fitted.seen (fitted : listing.Fitted table state last) :
    table.Seen (listing.liveIds table.known) :=
  FactTable.seen_append.mpr ⟨fitted.stmts.seen, FactTable.seen_of_forall_knows fitted.result⟩

/-- From a lower state a list leads to a lower state, and the table that is left has entries for
    fewer nodes, with lower facts. -/
theorem walk_monotone (nodup : listing.ids.Nodup) (named : listing.names ⊆ names)
    (proper : upper.Proper) (under : lower.Under names upper) :
    ((listing.walk lower).run {}).1.Under names ((listing.walk upper).run {}).1 ∧
      ((listing.walk lower).run {}).2.Within ((listing.walk upper).run {}).2 := by
  obtain ⟨last, trail, finds, _, _, settled⟩ := listing.walk_settles proper
  have fitted := settled (.unseen listing.ids trail) nodup (FactTable.unseen_holds _ _)
  obtain ⟨last', trail', finds', under', below⟩ := fitted.walk_ensures under named
  obtain ⟨ends, records⟩ := finds {}
  obtain ⟨ends', records'⟩ := finds' {}
  rw [ends, ends']
  refine ⟨under', fun id recorded => ?_⟩
  rw [Flow.table, Flow.table, records, records'] at *
  have recorded := FactTable.mem_facts_ofList.mp recorded
  obtain ⟨isLive, le⟩ := below _ (FactTable.get_ofList_mem recorded)
  have seen := fitted.seen id isLive
  have mem : id ∈ trail.map (·.1) := by
    by_contra absent
    exact seen (FactTable.get_unseen (liveIds_subset _ _ isLive) absent)
  rw [FactTable.unseen_holds _ _ id mem] at le
  exact ⟨FactTable.mem_facts_ofList.mpr mem, le⟩

end Listing

section Lists

variable {func : Func} {listing : Listing}

theorem Stmt.within_of_mem_bodies {part : Stmt} {body : List Stmt} (mem : body ∈ part.bodies) :
    (exprsAll body).Sublist part.exprs ∧ namesAll body ⊆ part.names := by
  cases part with
  | assign | assignIndex | call | callIndex => exact absurd mem List.not_mem_nil
  | when cond inner | loop cond inner =>
      obtain rfl := List.mem_singleton.mp mem
      exact ⟨List.sublist_cons_self _ _, List.subset_append_right _ _⟩
  | choose cond thens elses =>
      rw [exprs, names]
      rcases List.mem_pair.mp mem with rfl | rfl
      · exact ⟨(List.sublist_append_left _ _).cons _,
          List.subset_append_of_subset_right _ (List.subset_append_left _ _)⟩
      · exact ⟨(List.sublist_append_right _ _).cons _,
          List.subset_append_of_subset_right _ (List.subset_append_right _ _)⟩
  | block inner =>
      obtain rfl := List.mem_singleton.mp mem
      exact ⟨.refl _, List.Subset.refl _⟩

theorem Func.within_of_mem_listings (mem : listing ∈ func.listings) :
    listing.exprs.Sublist func.exprs ∧ listing.names ⊆ func.whole.names := by
  rcases List.mem_cons.mp mem with rfl | mem
  · exact ⟨.refl _, List.Subset.refl _⟩
  · obtain ⟨body, isBody, rfl⟩ := List.mem_map.mp mem
    obtain ⟨part, inside, isBody⟩ := List.mem_flatMap.mp isBody
    have inner := Stmt.within_of_mem_bodies isBody
    have outer := Stmt.within_of_mem_withinAll inside
    constructor
    · simp only [Listing.exprs, Option.toList_none, List.append_nil]
      exact (inner.1.trans outer.1).trans (List.sublist_append_left _ _)
    · simp only [Listing.names, Option.toList_none, List.flatMap_nil, List.append_nil]
      exact List.subset_append_of_subset_left _ (List.Subset.trans inner.2 outer.2)

end Lists

namespace Program

variable {text : String} {program checked : Program} {checker : Checker} {func : Func}

/-- A list of statements of a checked program, walked from a lower state over the names of its
    function, leads to a lower state. It records no other nodes, and lower facts of them. -/
theorem listing_monotone (read : (readProgram text).result = .ok program)
    (passed : program.check = .ok checked checker) (mem : func ∈ checked) {listing : Listing}
    (inside : listing ∈ func.listings) {lower upper : State}
    (spans : lower.Spans (func.typing.map (·.1))) (spans' : upper.Spans (func.typing.map (·.1)))
    (seen : lower.NoBottom) (le : lower.Le upper) :
    ((listing.walk lower).run {}).1.NoBottom ∧
      ((listing.walk lower).run {}).1.Le ((listing.walk upper).run {}).1 ∧
      ((listing.walk lower).run {}).2.Within ((listing.walk upper).run {}).2 := by
  have within := Func.within_of_mem_listings inside
  have wellFormed := forall_wellFormed_of_check passed func mem
  have nodup : listing.ids.Nodup := by
    have whole : func.exprs.Sublist (List.flatMap Func.exprs checked) :=
      List.sublist_flatten_of_mem (List.mem_map_of_mem mem)
    exact ((within.1.trans whole).flatMap _).nodup (ids_nodup_of_check read passed)
  have named : listing.names ⊆ func.typing.map (·.1) := by
    apply List.Subset.trans within.2
    simp only [Listing.names, Func.whole, Option.toList_some, List.flatMap_singleton]
    exact List.append_subset.mpr
      ⟨wellFormed.body.names_subset, wellFormed.result.names_subset⟩
  have proper : upper.Proper := ⟨spans'.nodup, spans'.noBottom_of_le spans seen le⟩
  have under : lower.Under (func.typing.map (·.1)) upper :=
    ⟨⟨spans.nodup, seen⟩, spans.names_subset, le⟩
  have walked := Listing.walk_monotone nodup named proper under
  exact ⟨walked.1.proper.seen, walked.1.le, walked.2⟩

/-- A loop with a branch that is skipped as long as `k` is zero. -/
def skippingText : String :=
  "function Main(n: int): int \x7b
     var k, sum: int;
     while (n) \x7b if (k) \x7b sum = sum + 1; \x7d n = n - 1; \x7d
     return sum; \x7d"

def skippingLower : State := [("n", .top), ("k", .const 0), ("sum", .const 5)]

def skippingUpper : State := [("k", .top), ("n", .top), ("sum", .const 5)]

theorem skippingLower_noBottom : skippingLower.NoBottom := by
  intro name isBottom
  have mem : (name, .bottom) ∈ skippingLower :=
    (lookup_eq_some_iff_mem (by decide)).mp isBottom
  simp [skippingLower] at mem

theorem skippingLower_le : skippingLower.Le skippingUpper := by
  intro name fact known
  have mem : (name, fact) ∈ skippingLower := (lookup_eq_some_iff_mem (by decide)).mp known
  simp only [skippingLower, List.mem_cons, Prod.mk.injEq, List.not_mem_nil, or_false] at mem
  rcases mem with ⟨rfl, rfl⟩ | ⟨rfl, rfl⟩ | ⟨rfl, rfl⟩
  · exact ⟨.top, by decide, Fact.Le.refl⟩
  · exact ⟨.top, by decide, Fact.Le.top⟩
  · exact ⟨.const 5, by decide, Fact.Le.refl⟩

/-- Whether a walk from a state comes to the sum in the branch. -/
def reachesSum (func : Func) (state : State) : Bool :=
  ((func.whole.walk state).run {}).2.records.toList.map (·.1) |>.contains 4

theorem mem_facts_of_reachesSum (func : Func) (state : State) :
    4 ∈ ((func.whole.walk state).run {}).2.table.facts ↔ reachesSum func state = true := by
  rw [reachesSum, List.contains_iff_mem]
  exact FactTable.mem_facts_ofList

theorem listing_monotone_skipping : ∃ program checked checker func,
    (readProgram skippingText).result = .ok program ∧ program.check = .ok checked checker ∧
      func ∈ checked ∧ func.whole ∈ func.listings ∧
      skippingLower.Spans (func.typing.map (·.1)) ∧ skippingUpper.Spans (func.typing.map (·.1)) ∧
      skippingLower.NoBottom ∧ skippingLower.Le skippingUpper ∧
      ((func.whole.walk skippingLower).run {}).1.NoBottom ∧
      ((func.whole.walk skippingLower).run {}).1.Le ((func.whole.walk skippingUpper).run {}).1 ∧
      ((func.whole.walk skippingLower).run {}).2.Within
        ((func.whole.walk skippingUpper).run {}).2 ∧
      4 ∉ ((func.whole.walk skippingLower).run {}).2.table.facts ∧
      4 ∈ ((func.whole.walk skippingUpper).run {}).2.table.facts := by
  obtain ⟨program, read, accepted⟩ := exists_ok_of_any (x := (readProgram skippingText).result)
    (p := fun program => (checkProgram program).result.toOption.any fun made =>
      List.any made.1 fun func => func.typing.map (·.1) == ["n", "k", "sum"] &&
        !reachesSum func skippingLower && reachesSum func skippingUpper) (by decide +kernel)
  obtain ⟨⟨checked, table⟩, made, holds⟩ := exists_ok_of_any accepted
  obtain ⟨checker, passed, rfl⟩ := checkProgram_eq_ok.mp made
  obtain ⟨func, mem, holds⟩ := List.any_eq_true.mp holds
  simp only [Bool.and_eq_true, Bool.not_eq_true', beq_iff_eq] at holds
  obtain ⟨⟨typed, skipped⟩, reached⟩ := holds
  have spans : skippingLower.Spans (func.typing.map (·.1)) := by
    rw [typed]
    exact ⟨by decide, fun name => Iff.rfl⟩
  have spans' : skippingUpper.Spans (func.typing.map (·.1)) := by
    rw [typed]
    exact ⟨by decide, fun name => by simp [skippingUpper, State.names, or_left_comm]⟩
  have inside : func.whole ∈ func.listings := List.mem_cons_self
  have monotone := listing_monotone read passed mem inside spans spans' skippingLower_noBottom
    skippingLower_le
  refine ⟨program, checked, checker, func, read, passed, mem, inside, spans, spans',
    skippingLower_noBottom, skippingLower_le, monotone.1, monotone.2.1, monotone.2.2, ?_, ?_⟩
  · rw [mem_facts_of_reachesSum, skipped]
    exact Bool.false_ne_true
  · rw [mem_facts_of_reachesSum, reached]

end Program

end Wordlang
