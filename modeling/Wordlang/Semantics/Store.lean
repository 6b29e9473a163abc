import Wordlang.Tree.Basic

/-! # Stores

The variables of one running function. A variable is empty until it is assigned,
and each element of an array is empty for itself.
-/

namespace Wordlang

/-- What a variable holds. -/
inductive Cell where
  | word (content : Option Word)
  /-- So many elements, numbered from zero. -/
  | array (length : Nat) (content : Nat → Option Word)

/-- The variables of a running function by name. -/
abbrev Store := String → Option Cell

def Ty.cell : Ty → Cell
  | int => .word none
  | bool => .word none
  | intarray length => .array length fun _ => none

namespace Store

/-- The element number that an index word stands for in an array of some length. -/
def position? (length : Nat) (index : Word) : Option Nat :=
  if 0 ≤ index.toInt ∧ index.toInt < length then some index.toNat else none

def word? (store : Store) (name : String) : Option Word :=
  match store name with
  | some (.word content) => content
  | _ => none

/-- The element of an array at an index inside its bounds, if it was assigned. -/
def item? (store : Store) (name : String) (index : Word) : Option Word :=
  match store name with
  | some (.array length content) => (position? length index).bind content
  | _ => none

def update (store : Store) (name : String) (cell : Cell) : Store :=
  fun other => if other = name then some cell else store other

/-- Assign a variable, which has to be one of a single word. -/
def put (store : Store) (name : String) (value : Word) : Option Store :=
  match store name with
  | some (.word _) => some (store.update name (.word (some value)))
  | _ => none

/-- Assign an element of an array at an index inside its bounds. -/
def putItem (store : Store) (name : String) (index value : Word) : Option Store :=
  match store name with
  | some (.array length content) => do
      let position ← position? length index
      return store.update name
        (.array length fun other => if other = position then some value else content other)
  | _ => none

/-- Only the assigned variable changes its word. -/
theorem word?_put {store store' : Store} {name : String} {value : Word}
    (h : store.put name value = some store') (other : String) :
    store'.word? other = if other = name then some value else store.word? other := by
  unfold put at h
  split at h
  · obtain rfl := Option.some.inj h
    unfold word? update
    by_cases same : other = name <;> simp [same]
  · exact absurd h nofun

/-- No variable of a single word changes with an element. -/
theorem word?_putItem {store store' : Store} {name : String} {index value : Word}
    (h : store.putItem name index value = some store') (other : String) :
    store'.word? other = store.word? other := by
  unfold putItem at h
  split at h
  · next array =>
    obtain ⟨position, _, h⟩ := Option.bind_eq_some_iff.mp h
    obtain rfl := Option.some.inj h
    unfold word? update
    by_cases same : other = name <;> simp [same, array]
  · exact absurd h nofun

end Store

/-- The store of a function at its start: the parameters hold the arguments, and
    every variable is empty. -/
def Func.entryStore (func : Func) (args : List Word) : Store := fun name =>
  match ((func.params.map (·.name)).zip args).lookup name with
  | some value => some (.word (some value))
  | none => (func.typing.lookup name).map Ty.cell

end Wordlang
