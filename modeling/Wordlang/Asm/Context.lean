import Wordlang.Asm.Basic
import Wordlang.Error
import Wordlang.Fact.Table
import Wordlang.Scope.Check

/-! # Code generation

What code is generated from beside the tree, and the work that generates it: it
hands out label numbers and may find that the tree was not checked.
-/

namespace Wordlang

/-- What a user may choose. -/
structure Options where
  /-- Use what is known about expressions. -/
  folding : Bool := true
  /-- Describe each construct in a comment. -/
  trace : Bool := false
  deriving Repr, DecidableEq

namespace Asm

/-- What the code of a function depends on beside its tree. -/
structure Context where
  options : Options
  facts : FactTable
  /-- The meaning of names in the function. -/
  lookup : Lookup
  /-- The scope of the function. -/
  scope : Nat

/-- Work that generates code. The state is the number of the next label. -/
abbrev Gen := StateT Nat (Except CompileError)

def newNumber : Gen Nat := modifyGet fun next => (next, next + 1)

namespace Context

/-- What code generation for a function knows about it beside its tree. -/
def ofScope (options : Options) (facts : FactTable) (table : Table) (scope : Nat) : Context :=
  { options, facts, lookup := table.lookup scope, scope }

/-- The value that an expression is known to have, if folding is on. -/
def known (ctx : Context) (e : Expr) : Option Word :=
  if ctx.options.folding then (ctx.facts.get e.id).const? else none

def find (ctx : Context) (name : String) : Gen Symbol :=
  match ctx.lookup name with
  | some symbol => return symbol
  | none => throw (.inconsistent (.undeclared name ctx.scope))

def note (ctx : Context) (text : String) : Code :=
  if ctx.options.trace then [.comment text] else []

end Context

end Asm

end Wordlang
