import Wordlang.Fact.Basic
import Std.Data.TreeMap.Lemmas

/-! # Tables of facts

What is known about the value of each expression node, by its id.
-/

namespace Wordlang

/-- Facts by node id. -/
structure FactTable where
  facts : Std.TreeMap Nat Fact

namespace FactTable

def empty : FactTable := { facts := ∅ }

/-- The fact of a node. A node without an entry may have any value. -/
def get (table : FactTable) (id : Nat) : Fact := (table.facts[id]?).getD .top

/-- The table in which a node has the given fact and no other. -/
def set (table : FactTable) (id : Nat) (fact : Fact) : FactTable :=
  { facts := table.facts.insert id fact }

/-- Only the given node changes its fact. -/
theorem get_set (table : FactTable) (id other : Nat) (fact : Fact) :
    (table.set id fact).get other = if id = other then fact else table.get other := by
  simp only [get, set, Std.TreeMap.getElem?_insert, Nat.compare_eq_eq]
  split <;> rfl

/-- The number of nodes with an entry. -/
def size (table : FactTable) : Nat := table.facts.size

/-- The table of a list of entries, of which later ones replace earlier ones. -/
def ofList (entries : List (Nat × Fact)) : FactTable :=
  entries.foldl (fun table (id, fact) => table.set id fact) empty

end FactTable

end Wordlang
