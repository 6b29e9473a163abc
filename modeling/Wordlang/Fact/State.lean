import Wordlang.Fact.Basic

/-! # States

The facts about the variables at one point of a function. A state lists its names
in the order in which they first got a fact; written out, they are sorted.
-/

namespace Wordlang

abbrev State := List (String × Fact)

namespace State

def fact? (state : State) (name : String) : Option Fact := state.lookup name

/-- Give a name a fact: in its place if it has one, otherwise at the end. -/
def assign (state : State) (name : String) (fact : Fact) : State :=
  match state with
  | [] => [(name, fact)]
  | (other, old) :: rest =>
      if other = name then (other, fact) :: rest else (other, old) :: assign rest name fact

/-- Only the assigned name changes its fact. -/
theorem fact?_assign (state : State) (name other : String) (fact : Fact) :
    (state.assign name fact).fact? other =
      if other = name then some fact else state.fact? other := by
  induction state with
  | nil =>
    by_cases h : other = name
    · simp [assign, fact?, h]
    · have hb : (other == name) = false := by simpa using h
      simp [assign, fact?, List.lookup_cons, h, hb]
  | cons entry rest ih =>
    obtain ⟨first, old⟩ := entry
    by_cases hf : first = name
    · subst hf
      by_cases h : other = first
      · simp [assign, fact?, h]
      · have hb : (other == first) = false := by simpa using h
        simp [assign, fact?, List.lookup_cons, h, hb]
    · by_cases h : other = first
      · subst h
        simp [assign, fact?, hf]
      · have hb : (other == first) = false := by simpa using h
        simpa [assign, fact?, hf, List.lookup_cons, hb] using ih

def joinFact (state : State) (name : String) (fact : Fact) : State :=
  match state.fact? name with
  | some old => state.assign name (old.join fact)
  | none => state.assign name fact

/-- The join of two states, name by name. A name that only one of them has keeps
    its fact. -/
def join (state other : State) : State :=
  other.foldl (fun joined (name, fact) => joined.joinFact name fact) state

/-- The state in which nothing is known about the same names. -/
def forget (state : State) : State := state.map fun (name, _) => (name, .top)

/-- The entries in the order of their names. -/
def sorted (state : State) : State := state.mergeSort fun a b => a.1 ≤ b.1

def text (state : State) : String :=
  let entries := state.sorted.map fun (name, fact) => s!"\"{name}\": {fact.text}"
  "\x7b" ++ ", ".intercalate entries ++ "\x7d"

end State

end Wordlang
