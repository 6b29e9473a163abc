import Wordlang.Fact.State

/-! # Order of facts

A fact lies below another one when it says at least as much. The join of two facts
is the least fact above both, and states are compared name by name.
-/

namespace Wordlang

namespace Fact

/-- A fact lies below another one. -/
inductive Le : Fact → Fact → Prop where
  | bottom {a : Fact} : Le bottom a
  | refl {a : Fact} : Le a a
  | top {a : Fact} : Le a top

instance : LE Fact := ⟨Le⟩

/-- A word is among the values that a fact allows. -/
inductive Allows : Fact → Word → Prop where
  | const {value : Word} : Allows (const value) value
  | top {value : Word} : Allows top value

theorem le_refl (a : Fact) : a ≤ a := Le.refl

theorem le_trans {a b c : Fact} (h₁ : a ≤ b) (h₂ : b ≤ c) : a ≤ c := by
  cases h₁ with
  | bottom => exact Le.bottom
  | refl => exact h₂
  | top =>
    cases h₂ with
    | refl => exact Le.top
    | top => exact Le.top

theorem le_antisymm {a b : Fact} (h₁ : a ≤ b) (h₂ : b ≤ a) : a = b := by
  cases h₁ with
  | bottom => cases h₂ <;> rfl
  | refl => rfl
  | top => cases h₂ <;> rfl

theorem join_comm (a b : Fact) : a.join b = b.join a := by
  cases a <;> cases b <;> simp only [join, eq_comm]
  split <;> simp_all

theorem join_self (a : Fact) : a.join a = a := by
  cases a <;> simp [join]

theorem le_join_left (a b : Fact) : a ≤ a.join b := by
  cases a with
  | bottom => exact Le.bottom
  | top => cases b <;> exact Le.refl
  | const v =>
    cases b with
    | bottom => exact Le.refl
    | top => exact Le.top
    | const w =>
      simp only [join]
      split
      · exact Le.refl
      · exact Le.top

theorem le_join_right (a b : Fact) : b ≤ a.join b := by
  rw [join_comm]
  exact le_join_left b a

theorem join_le {a b c : Fact} (ha : a ≤ c) (hb : b ≤ c) : a.join b ≤ c := by
  cases ha with
  | bottom => cases b <;> exact hb
  | top => exact Le.top
  | refl =>
    cases hb with
    | bottom =>
      cases a <;> exact Le.refl
    | refl => rw [join_self]; exact Le.refl
    | top => exact Le.top

theorem Allows.mono {a b : Fact} {value : Word} (h : a.Allows value) (le : a ≤ b) :
    b.Allows value := by
  cases le with
  | bottom => cases h
  | refl => exact h
  | top => exact .top

end Fact

namespace State

/-- A state lies below another one when each name of it has a fact above its own. -/
def Le (state other : State) : Prop :=
  ∀ name fact, state.fact? name = some fact →
    ∃ above, other.fact? name = some above ∧ fact ≤ above

def names (state : State) : List String := state.map (·.1)

/-- Nothing in the state is unseen. -/
def NoBottom (state : State) : Prop := ∀ name, state.fact? name ≠ some .bottom

theorem le_refl (state : State) : state.Le state :=
  fun _ fact h => ⟨fact, h, Fact.le_refl fact⟩

theorem le_trans {a b c : State} (h₁ : a.Le b) (h₂ : b.Le c) : a.Le c := by
  intro name fact h
  obtain ⟨middle, hm, le⟩ := h₁ name fact h
  obtain ⟨above, ha, le'⟩ := h₂ name middle hm
  exact ⟨above, ha, Fact.le_trans le le'⟩

end State

end Wordlang
