import Wordlang.Scope.Symbol

/-! # Symbol tables

Scopes, each with its own names and perhaps an enclosing scope. A name is
declared behind everything that its scope already holds, and it is looked up from
the inside out.
-/

namespace Wordlang

/-- The names declared directly in one scope. -/
structure Scope where
  /-- The enclosing scope. -/
  parent : Option Nat
  /-- The symbols in the order of their declaration. -/
  symbols : List (String × Symbol) := []
  /-- The bytes that the symbols take. -/
  size : Nat := 0
  deriving Repr, DecidableEq

/-- All scopes of a program, each named by its position. -/
structure Table where
  scopes : Array Scope
  deriving Repr, DecidableEq

namespace Scope

def find? (scope : Scope) (name : String) : Option Symbol := scope.symbols.lookup name

/-- The symbol that a new name gets: behind everything declared so far. -/
def place (scope : Scope) (kind : Symbol.Kind) (length : Nat) : Symbol :=
  { kind, offset := scope.size, length }

def add (scope : Scope) (name : String) (symbol : Symbol) : Scope :=
  { scope with
    symbols := scope.symbols ++ [(name, symbol)]
    size := scope.size + symbol.size }

end Scope

namespace Table

def globalScope : Nat := 0

def empty : Table := { scopes := #[{ parent := none }] }

/-- Open a scope inside another one, which need not exist. -/
def openScope (table : Table) (parent : Nat) : Nat × Table :=
  (table.scopes.size, { scopes := table.scopes.push { parent := some parent } })

/-- Give a name a new symbol in a scope, unless the scope has that name already
    or does not exist. -/
def insert (table : Table) (id : Nat) (name : String) (kind : Symbol.Kind) (length : Nat) :
    Option (Symbol × Table) :=
  match table.scopes[id]? with
  | none => none
  | some scope =>
      match scope.find? name with
      | some _ => none
      | none =>
          let symbol := scope.place kind length
          some (symbol, { scopes := table.scopes.setIfInBounds id (scope.add name symbol) })

def declare (table : Table) (id : Nat) (name : String) (type : Ty) : Option (Symbol × Table) :=
  table.insert id name type.symbolKind type.length

def declareFunc (table : Table) (name : String) (params : Nat) (returns : Ty) :
    Option (Symbol × Table) :=
  table.insert globalScope name (.function params returns) 0

/-- The symbol of a name in a scope or the nearest enclosing one that has it, if the
    search for it comes to an end. -/
def search (table : Table) (id : Nat) (name : String) : Option (Option Symbol) :=
  match table.scopes[id]? with
  | none => some none
  | some scope =>
      match scope.find? name with
      | some symbol => some (some symbol)
      | none =>
          match scope.parent with
          | none => some none
          | some parent => table |>.search parent name
partial_fixpoint

/-- The scopes met on the way outward from a scope, at most `fuel` of them. -/
def outward (table : Table) : Nat → Nat → List Scope
  | 0, _ => []
  | fuel + 1, id =>
      match table.scopes[id]? with
      | none => []
      | some scope =>
          match scope.parent with
          | none => [scope]
          | some parent => scope :: table.outward fuel parent

/-- The symbol of a name in a scope or the nearest enclosing one that has it. A
    way outward that repeats no scope is at most as long as the table, and behind
    a repetition nothing new is found. It is what `search` finds where that ends. -/
def lookup (table : Table) (id : Nat) (name : String) : Option Symbol :=
  (table.outward table.scopes.size id).findSome? (·.find? name)

/-- The bytes of everything declared directly in a scope. -/
def scopeSize (table : Table) (id : Nat) : Nat :=
  match table.scopes[id]? with
  | none => 0
  | some scope => scope.size

end Table

end Wordlang
