import Mathlib.Logic.Relation
import Wordlang.Scope.Table
import Wordlang.Tree.Names

/-! # The way outward

A search for a name asks one scope after the other, for as long as there is an
enclosing one, and need not come to an end: a scope may be opened inside any other
one, also inside itself or inside a scope that is opened only later. `Table.Walk`
lists the scopes that are asked when there is an end. Code can be made of a program
where the searches for its names find symbols (`Program.Resolved`).
-/

namespace Wordlang

namespace Table

/-- A search asks these scopes one after the other, and ends with this result. The
    last one need not exist. -/
inductive Walk (table : Table) (name : String) : Nat → List Nat → Option Symbol → Prop where
  | outside {id : Nat} : table.scopes[id]? = none → Walk table name id [id] none
  | found {id : Nat} {scope : Scope} {symbol : Symbol} : table.scopes[id]? = some scope →
      scope.find? name = some symbol → Walk table name id [id] (some symbol)
  | outermost {id : Nat} {scope : Scope} : table.scopes[id]? = some scope →
      scope.find? name = none → scope.parent = none → Walk table name id [id] none
  | outward {id parent : Nat} {scope : Scope} {visited : List Nat} {result : Option Symbol} :
      table.scopes[id]? = some scope → scope.find? name = none → scope.parent = some parent →
        Walk table name parent visited result → Walk table name id (id :: visited) result

/-- A scope does not have a name, and the search for it goes on in another scope. -/
def Outward (table : Table) (name : String) (id parent : Nat) : Prop :=
  ∃ scope, table.scopes[id]? = some scope ∧ scope.find? name = none ∧ scope.parent = some parent

/-- A scope was opened in another one. -/
def Inside (table : Table) (id parent : Nat) : Prop :=
  ∃ scope, table.scopes[id]? = some scope ∧ scope.parent = some parent

/-- No scope lies inside itself. -/
def Straight (table : Table) : Prop := ∀ id, ¬ Relation.TransGen table.Inside id id

/-- The search for a name comes to a circle: to a scope from which it goes on outward and comes
    back to the same scope, through scopes that all lack the name. -/
def Circles (table : Table) (name : String) (id : Nat) : Prop :=
  ∃ scope, Relation.ReflTransGen (table.Outward name) id scope ∧
    Relation.TransGen (table.Outward name) scope scope

/-- A search asks no scope twice, at most as many as there are, and then ends. -/
def Ends (table : Table) (name : String) (id : Nat) : Prop :=
  ∃ visited result, table.Walk name id visited result ∧ visited.Nodup ∧
    visited.length ≤ table.scopes.size ∧ table.search id name = some result

/-- The tables that arise when scopes are opened where it is allowed, and names are
    declared in them. -/
inductive Reachable (allowed : Table → Nat → Prop) : Table → Prop where
  | empty : Reachable allowed .empty
  | openScope {table : Table} {parent : Nat} : Reachable allowed table → allowed table parent →
      Reachable allowed (table.openScope parent).2
  | declare {table table' : Table} {id : Nat} {name : String} {type : Ty} {symbol : Symbol} :
      Reachable allowed table → table.declare id name type = some (symbol, table') →
        Reachable allowed table'
  | declareFunc {table table' : Table} {name : String} {params : Nat} {returns : Ty}
      {symbol : Symbol} : Reachable allowed table →
        table.declareFunc name params returns = some (symbol, table') → Reachable allowed table'

/-- A scope may be opened inside any other one. -/
def Anywhere (_ : Table) (_ : Nat) : Prop := True

/-- A scope may only be opened inside one that exists. -/
def Existing (table : Table) (parent : Nat) : Prop := parent < table.scopes.size

end Table

/-- A function has a scope, and the search from there finds a meaning for each of its names and
    a function for each of its callees. -/
def Func.Resolved (table : Table) (func : Func) : Prop :=
  ∃ scope, func.scope = some scope ∧
    (∀ name ∈ func.names, ∃ symbol, table.search scope name = some (some symbol)) ∧
    ∀ name ∈ func.callees, ∃ symbol params,
      table.search scope name = some (some symbol) ∧ symbol.params? = some params

/-- All functions of a program are resolved. -/
def Program.Resolved (table : Table) (program : Program) : Prop :=
  ∀ func ∈ program, func.Resolved table

end Wordlang
