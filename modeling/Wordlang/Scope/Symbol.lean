import Wordlang.Tree.Basic

/-! # Symbols

What a name stands for, and where its words lie in the frame of its scope.
-/

namespace Wordlang

def wordSize : Nat := 4

/-- What a name stands for. -/
inductive Symbol.Kind where
  | int
  | bool
  | intarray
  | function (params : Nat) (returns : Ty)
  deriving Repr, DecidableEq

/-- A declared name's meaning and place. -/
structure Symbol where
  kind : Symbol.Kind
  /-- Bytes from the start of the scope's frame area. -/
  offset : Nat
  /-- The number of words: elements of an array, 1 for a scalar, 0 for a function. -/
  length : Nat
  deriving Repr, DecidableEq

namespace Symbol

def size (symbol : Symbol) : Nat := symbol.length * wordSize

def isArray (symbol : Symbol) : Bool := symbol.kind = .intarray

/-- Whether the symbol is a variable of one word. -/
def isScalar (symbol : Symbol) : Bool := symbol.kind = .int || symbol.kind = .bool

def params? (symbol : Symbol) : Option Nat :=
  match symbol.kind with
  | .function params _ => some params
  | _ => none

end Symbol

namespace Ty

def symbolKind : Ty → Symbol.Kind
  | int => .int
  | bool => .bool
  | intarray _ => .intarray

/-- The number of words of a variable of this type. -/
def length : Ty → Nat
  | int => 1
  | bool => 1
  | intarray length => length

end Ty

/-- The bytes that the variables take. -/
def Typing.size : Typing → Nat
  | [] => 0
  | (_, type) :: rest => type.length * wordSize + size rest

end Wordlang
