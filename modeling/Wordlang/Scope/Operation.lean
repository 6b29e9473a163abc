import Mathlib.Algebra.Order.Ring.Nat
import Wordlang.Scope.Search

/-! # Operations on tables

Opening scopes and declaring names, one operation after the other, on a table that begins
empty. A declaration that is refused leaves the table as it is. What such a table holds is
said without it: by the symbols that its operations handed out (`Table.handedOut`).
-/

namespace Wordlang.Table

/-- The symbols declared directly in a scope, in the order of their declaration. -/
def symbolsIn (table : Table) (id : Nat) : List (String × Symbol) :=
  match table.scopes[id]? with
  | none => []
  | some scope => scope.symbols

/-- An operation on a table. -/
inductive Op where
  | openScope (parent : Nat)
  | declare (id : Nat) (name : String) (type : Ty)
  | declareFunc (name : String) (params : Nat) (returns : Ty)
  deriving Repr, DecidableEq

/-- What is declared, and where. -/
structure Declaration where
  /-- The scope in which the name is declared. -/
  id : Nat
  name : String
  kind : Symbol.Kind
  length : Nat
  deriving Repr, DecidableEq

def Op.declaration? : Op → Option Declaration
  | openScope _ => none
  | declare id name type => some { id, name, kind := type.symbolKind, length := type.length }
  | declareFunc name params returns =>
      some { id := globalScope, name, kind := .function params returns, length := 0 }

/-- The symbol that a declaration hands out, if it is not refused, and the table behind it. -/
def behind (table : Table) : Option (Symbol × Table) → Option Symbol × Table
  | some (symbol, table) => (some symbol, table)
  | none => (none, table)

def Op.run (table : Table) : Op → Option Symbol × Table
  | openScope parent => (none, (table.openScope parent).2)
  | declare id name type => table.behind (table.declare id name type)
  | declareFunc name params returns => table.behind (table.declareFunc name params returns)

def Op.handedOut (table : Table) (id : Nat) (op : Op) : List (String × Symbol) :=
  match op.declaration?, (op.run table).1 with
  | some declaration, some symbol =>
      if declaration.id = id then [(declaration.name, symbol)] else []
  | _, _ => []

def after (table : Table) : List Op → Table
  | [] => table
  | op :: rest => (op.run table).2.after rest

/-- The symbols that operations hand out in a scope, one after the other. -/
def handedOut (table : Table) (id : Nat) : List Op → List (String × Symbol)
  | [] => []
  | op :: rest => op.handedOut table id ++ (op.run table).2.handedOut id rest

/-- The bytes of some symbols lie one behind the other, without a gap, from zero to a size. -/
structure Tiles (symbols : List (String × Symbol)) (size : Nat) : Prop where
  offset : ∀ before entry after, symbols = before ++ entry :: after →
    entry.2.offset = (before.map (·.2.size)).sum
  total : size = (symbols.map (·.2.size)).sum
  bytes : symbols.flatMap (fun entry => List.range' entry.2.offset entry.2.size) =
    List.range size

/-- One table holds one symbol more than another one, and is searched like that but for the
    name of the symbol, from where the way outward leads to its scope. -/
structure Gains (table : Table) (id : Nat) (name : String) (symbol : Symbol) (table' : Table) :
    Prop where
  symbols : table'.symbolsIn id = table.symbolsIn id ++ [(name, symbol)]
  size : table'.scopeSize id = table.scopeSize id + symbol.size
  others : ∀ other, other ≠ id → table'.symbolsIn other = table.symbolsIn other ∧
    table'.scopeSize other = table.scopeSize other
  found : ∀ start, Relation.ReflTransGen (table.Outward name) start id →
    table'.search start name = some (some symbol)
  elsewhere : ∀ start other,
    ¬ (other = name ∧ Relation.ReflTransGen (table.Outward name) start id) →
      table'.search start other = table.search start other

/-- What an operation does that declares something. It is refused where the name is taken.
    In a scope that does not have the name, it puts a symbol behind all others. -/
structure Declaration.Frames (declaration : Declaration) (table : Table) (op : Op) : Prop where
  refused : declaration.name ∈ (table.symbolsIn declaration.id).map (·.1) →
    op.run table = (none, table)
  accepted : declaration.id < table.scopes.size →
    declaration.name ∉ (table.symbolsIn declaration.id).map (·.1) →
      ∃ symbol table', op.run table = (some symbol, table') ∧
        symbol = { kind := declaration.kind, offset := table.scopeSize declaration.id,
                   length := declaration.length } ∧
        table.Gains declaration.id declaration.name symbol table'

end Wordlang.Table
