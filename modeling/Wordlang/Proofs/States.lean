import Wordlang.Fact.Flow
import Wordlang.Fact.Order
import Mathlib.Algebra.Order.BigOperators.Group.List
import Mathlib.Algebra.Order.Ring.Nat
import Mathlib.Data.List.Nodup

/-! # States along a walk

What the operations on states do name by name. Along a walk states take up names and
facts grow, each of them at most twice, so that a loop is walked until it is stable.
-/

namespace Wordlang

namespace State

variable {state other : State} {name : String} {fact : Fact}

theorem fact?_cons (entry : String × Fact) (rest : State) (name : String) :
    State.fact? (entry :: rest) name =
      if name = entry.1 then some entry.2 else State.fact? rest name := by
  rw [fact?, List.lookup_cons]
  by_cases same : name = entry.1
  · simp [same]
  · rw [if_neg same, beq_false_of_ne same]
    rfl

theorem fact?_eq_none : state.fact? name = none ↔ name ∉ state.names := by
  induction state with
  | nil => simp [fact?, names]
  | cons entry rest ih =>
      rw [fact?_cons, names, List.map_cons, List.mem_cons, not_or, ← names, ← ih]
      by_cases same : name = entry.1 <;> simp [same]

theorem names_assign (state : State) (name : String) (fact : Fact) :
    (state.assign name fact).names =
      if name ∈ state.names then state.names else state.names ++ [name] := by
  induction state with
  | nil => simp [assign, names]
  | cons entry rest ih =>
      obtain ⟨first, old⟩ := entry
      by_cases same : first = name
      · simp [assign, names, same]
      · simp only [assign, if_neg same, names, List.map_cons, List.mem_cons] at ih ⊢
        rw [ih]
        by_cases known : name ∈ rest.map (·.1)
        · simp [known]
        · simp [known, Ne.symm same]

private theorem fact?_joinFact (state : State) (name x : String) (fact : Fact) :
    (state.joinFact name fact).fact? x =
      if x = name then Option.merge Fact.join (state.fact? name) (some fact)
      else state.fact? x := by
  unfold joinFact
  cases known : state.fact? name <;> simp only [fact?_assign, Option.merge]

theorem names_joinFact (state : State) (name : String) (fact : Fact) :
    (state.joinFact name fact).names =
      if name ∈ state.names then state.names else state.names ++ [name] := by
  unfold joinFact
  cases state.fact? name <;> exact names_assign _ _ _

theorem fact?_join (state : State) (nodup : other.names.Nodup) (x : String) :
    (state.join other).fact? x = Option.merge Fact.join (state.fact? x) (other.fact? x) := by
  induction other generalizing state with
  | nil => simp [join, fact?]
  | cons entry rest ih =>
      obtain ⟨fresh, nodup⟩ := List.nodup_cons.mp nodup
      have step : state.join (entry :: rest) = (state.joinFact entry.1 entry.2).join rest := rfl
      rw [step, ih _ nodup, fact?_joinFact, fact?_cons]
      by_cases same : x = entry.1
      · subst same
        have unknown : State.fact? rest entry.1 = none := fact?_eq_none.mpr fresh
        simp [unknown]
      · simp [same]

theorem fact?_forget (state : State) (x : String) :
    state.forget.fact? x = (state.fact? x).map fun _ => .top := by
  induction state with
  | nil => rfl
  | cons entry rest ih =>
      have step : forget (entry :: rest) = (entry.1, .top) :: forget rest := rfl
      rw [step, fact?_cons, fact?_cons, ih]
      split <;> rfl

@[simp] theorem names_forget (state : State) : state.forget.names = state.names := by
  simp [forget, names]

/-- A state is its names and their facts. -/
theorem eq_of_facts (nodup : state.names.Nodup) (names : state.names = other.names)
    (facts : ∀ x, state.fact? x = other.fact? x) : state = other := by
  induction state generalizing other with
  | nil => exact (List.map_eq_nil_iff.mp names.symm).symm
  | cons entry rest ih =>
      cases other with
      | nil => exact absurd names (by simp [State.names])
      | cons entry' rest' =>
          obtain ⟨first, names⟩ := List.cons.inj names
          obtain ⟨fresh, nodup⟩ := List.nodup_cons.mp nodup
          have first : entry.1 = entry'.1 := first
          have names : State.names rest = State.names rest' := names
          have fresh' : entry'.1 ∉ State.names rest' := by
            rw [← first, ← names]
            exact fresh
          have same := facts entry.1
          rw [fact?_cons, fact?_cons, if_pos rfl, if_pos first] at same
          have heads : entry = entry' := Prod.ext first (Option.some.inj same)
          have tails : rest = rest' := by
            apply ih nodup names
            intro x
            by_cases isFirst : x = entry.1
            · subst isFirst
              rw [fact?_eq_none.mpr fresh, fact?_eq_none.mpr (first ▸ fresh')]
            · have other := facts x
              rwa [fact?_cons, fact?_cons, if_neg isFirst, if_neg (first ▸ isFirst)] at other
          rw [heads, tails]

/-- Each name stands once in a state, and something is known about it. -/
structure Proper (state : State) : Prop where
  nodup : state.names.Nodup
  seen : state.NoBottom

/-- A state takes up new names, which are among the targets. -/
structure Grows (targets : List String) (state state' : State) : Prop where
  proper : state'.Proper
  names : ∃ new, state'.names = state.names ++ new ∧ ∀ name ∈ new, name ∈ targets

variable {state' : State} {targets : List String}

theorem Grows.refl (proper : state.Proper) : Grows targets state state :=
  ⟨proper, [], by simp, nofun⟩

theorem Grows.trans {state'' : State} (first : Grows targets state state')
    (second : Grows targets state' state'') : Grows targets state state'' := by
  obtain ⟨_, new, names, known⟩ := first
  obtain ⟨proper, new', names', known'⟩ := second
  apply Grows.mk proper
  use new ++ new'
  rw [names', names, List.append_assoc]
  apply And.intro rfl
  intro name mem
  rcases List.mem_append.mp mem with mem | mem
  · exact known name mem
  · exact known' name mem

theorem Grows.mono {more : List String} (grows : Grows targets state state')
    (sub : ∀ name ∈ targets, name ∈ more) : Grows more state state' := by
  obtain ⟨proper, new, names, known⟩ := grows
  exact ⟨proper, new, names, fun name mem => sub name (known name mem)⟩

theorem Proper.assign (proper : state.Proper) (name : String) (seen : fact ≠ .bottom) :
    Grows [name] state (state.assign name fact) := by
  have names := names_assign state name fact
  by_cases known : name ∈ state.names
  · rw [if_pos known] at names
    refine ⟨⟨names ▸ proper.nodup, ?_⟩, [], by simpa using names, nofun⟩
    intro x
    rw [fact?_assign]
    split
    · simpa using seen
    · exact proper.seen x
  · rw [if_neg known] at names
    refine ⟨⟨?_, ?_⟩, [name], names, fun _ mem => mem⟩
    · rw [names, ← List.concat_eq_append]
      exact proper.nodup.concat known
    · intro x
      rw [fact?_assign]
      split
      · simpa using seen
      · exact proper.seen x

theorem Proper.forget (proper : state.Proper) : Grows targets state state.forget := by
  refine ⟨⟨by simpa using proper.nodup, ?_⟩, [], by simp, nofun⟩
  intro x isBottom
  rw [fact?_forget] at isBottom
  cases known : state.fact? x <;> simp [known] at isBottom

private theorem join_ne_bottom {a b : Fact} (ha : a ≠ .bottom) : a.join b ≠ .bottom := by
  cases a <;> cases b <;> simp_all [Fact.join]
  split <;> simp

theorem names_join (state : State) (nodup : state.names.Nodup) (other : State) :
    (state.join other).names.Nodup ∧ ∃ new, (state.join other).names = state.names ++ new ∧
      ∀ name ∈ new, name ∈ other.names := by
  induction other generalizing state with
  | nil => exact ⟨nodup, [], by simp [join], nofun⟩
  | cons entry rest ih =>
      have step : state.join (entry :: rest) = (state.joinFact entry.1 entry.2).join rest := rfl
      have names := names_joinFact state entry.1 entry.2
      rw [step]
      by_cases known : entry.1 ∈ state.names
      · rw [if_pos known] at names
        obtain ⟨nodup', new, names', sub⟩ := ih (state.joinFact entry.1 entry.2) (names ▸ nodup)
        exact ⟨nodup', new, names ▸ names', fun x mem => List.mem_cons_of_mem _ (sub x mem)⟩
      · rw [if_neg known] at names
        have nodupOne : (state.joinFact entry.1 entry.2).names.Nodup := by
          rw [names, ← List.concat_eq_append]
          exact nodup.concat known
        obtain ⟨nodup', new, names', sub⟩ := ih _ nodupOne
        refine ⟨nodup', entry.1 :: new, by simp [names', names], ?_⟩
        intro x mem
        rcases List.mem_cons.mp mem with rfl | mem
        · exact List.mem_cons_self
        · exact List.mem_cons_of_mem _ (sub x mem)

theorem Grows.join {first second : State} (one : Grows targets state first)
    (two : Grows targets state second) : Grows targets state (first.join second) := by
  obtain ⟨nodup, added, names, sub⟩ := names_join first one.proper.nodup second
  obtain ⟨new, namesOne, knownOne⟩ := one.names
  obtain ⟨new', namesTwo, knownTwo⟩ := two.names
  refine ⟨⟨nodup, ?_⟩, new ++ added, by rw [names, namesOne, List.append_assoc], ?_⟩
  · intro x isBottom
    rw [fact?_join _ two.proper.nodup] at isBottom
    have seenOne := one.proper.seen x
    have seenTwo := two.proper.seen x
    cases a : first.fact? x <;> cases b : second.fact? x <;>
      simp_all [Option.merge, join_ne_bottom]
  · intro x mem
    rcases List.mem_append.mp mem with mem | mem
    · exact knownOne x mem
    -- a name of the second way that the first one lacks is no name of the state
    · have inSecond := sub x mem
      rw [namesTwo, List.mem_append] at inSecond
      rcases inSecond with old | inNew
      · rw [names, List.nodup_append] at nodup
        exact absurd rfl (nodup.2.2 x (by simp [namesOne, old]) x mem)
      · exact knownTwo x inNew

theorem le_join_left (nodup : other.names.Nodup) : state.Le (state.join other) := by
  intro x fact known
  rw [fact?_join state nodup, known]
  cases other.fact? x with
  | none => exact ⟨fact, rfl, Fact.le_refl fact⟩
  | some b => exact ⟨fact.join b, rfl, Fact.le_join_left fact b⟩

theorem le_join_right (nodup : other.names.Nodup) : other.Le (state.join other) := by
  intro x fact known
  rw [fact?_join state nodup, known]
  cases state.fact? x with
  | none => exact ⟨fact, rfl, Fact.le_refl fact⟩
  | some a => exact ⟨a.join fact, rfl, Fact.le_join_right a fact⟩

def room : Option Fact → Nat
  | some .top => 0
  | some (.const _) => 1
  | _ => 2

/-- How often the facts about some names may still grow. -/
def roomOf (state : State) (names : List String) : Nat :=
  (names.map fun name => room (state.fact? name)).sum

theorem roomOf_le (state : State) (names : List String) :
    state.roomOf names ≤ 2 * names.length := by
  have each : ∀ n ∈ names.map fun name => room (state.fact? name), n ≤ 2 := by
    intro n mem
    obtain ⟨name, -, rfl⟩ := List.mem_map.mp mem
    unfold room
    split <;> omega
  have bound := List.sum_le_card_nsmul _ 2 each
  rw [List.length_map, nsmul_eq_mul, Nat.cast_id, Nat.mul_comm] at bound
  exact bound

private theorem room_le (le : state.Le state') (x : String) :
    room (state'.fact? x) ≤ room (state.fact? x) := by
  cases known : state.fact? x with
  | none =>
      unfold room
      split <;> simp
  | some fact =>
      obtain ⟨above, known', below⟩ := le x fact known
      rw [known']
      cases below with
      | bottom =>
          unfold room
          split <;> simp
      | refl => exact Nat.le_refl _
      | top => exact Nat.zero_le _

private theorem room_lt (le : state.Le state') (seen : state'.NoBottom) {x : String}
    (changed : state'.fact? x ≠ state.fact? x) :
    room (state'.fact? x) < room (state.fact? x) := by
  cases known : state.fact? x with
  | none =>
      cases known' : state'.fact? x with
      | none => exact absurd (known'.trans known.symm) changed
      | some fact =>
          cases fact with
          | bottom => exact absurd known' (seen x)
          | const _ => exact Nat.lt_succ_self 1
          | top => exact Nat.two_pos
  | some fact =>
      obtain ⟨above, known', below⟩ := le x fact known
      rw [known, known'] at changed
      rw [known']
      cases below with
      | refl => exact absurd rfl changed
      | bottom =>
          cases above with
          | bottom => exact absurd rfl changed
          | const _ => exact Nat.lt_succ_self 1
          | top => exact Nat.two_pos
      | top =>
          cases fact with
          | bottom => exact Nat.two_pos
          | const _ => exact Nat.one_pos
          | top => exact absurd rfl changed

/-- A state that changes as it grows has less room than before. -/
theorem Grows.roomOf_lt (grows : Grows targets state state') (le : state.Le state')
    (changed : state' ≠ state) {names : List String} (old : ∀ name ∈ state.names, name ∈ names)
    (new : ∀ name ∈ targets, name ∈ names) : state'.roomOf names < state.roomOf names := by
  obtain ⟨added, namesEq, known⟩ := grows.names
  have moved : ∃ x ∈ names, state'.fact? x ≠ state.fact? x := by
    by_contra same
    push Not at same
    cases added with
    | nil =>
        rw [List.append_nil] at namesEq
        apply changed
        apply eq_of_facts grows.proper.nodup namesEq
        intro x
        by_cases mem : x ∈ state.names
        · exact same x (old x mem)
        · rw [fact?_eq_none.mpr mem, fact?_eq_none.mpr (namesEq ▸ mem)]
    | cons x rest =>
        have nodup := grows.proper.nodup
        have inNew : x ∈ state'.names := by simp [namesEq]
        rw [namesEq, List.nodup_append] at nodup
        have fresh : x ∉ state.names := fun mem => nodup.2.2 x mem x List.mem_cons_self rfl
        have equal := same x (new x (known x List.mem_cons_self))
        rw [fact?_eq_none.mpr fresh, fact?_eq_none] at equal
        exact equal inNew
  obtain ⟨x, mem, differs⟩ := moved
  apply List.sum_lt_sum
  · intro y _
    exact room_le le y
  · exact ⟨x, mem, room_lt le grows.proper.seen differs⟩

end State

end Wordlang
