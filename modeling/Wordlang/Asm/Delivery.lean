import Mathlib.Logic.Relation
import Wordlang.Asm.Depth
import Wordlang.Semantics.Eval

/-! # Values in frames

What the code of an expression has to do: the words of a frame are a store, and the value that
the expression has in that store is brought to a place while everything else is kept.
-/

namespace Wordlang

open Asm

/-- What the folding of operators makes of an expression whose variables hold the words of a
    store. -/
def Expr.folded (store : Store) : Expr → Fact
  | int _ value => .const (.ofNat 32 value)
  | bool _ value => .const (.ofBool value)
  | var _ name => (store.word? name).elim .top .const
  | index _ name element =>
      ((element.folded store).const?.bind (store.item? name)).elim .top .const
  | unary _ op operand => op.fold (operand.folded store)
  | binary _ op left right => op.fold (left.folded store) (right.folded store)

/-- The bytes from the frame pointer down to a word of a symbol. -/
def Symbol.depth (symbol : Symbol) (i : Nat) : Nat :=
  symbol.offset + (symbol.length - 1 - i) * wordSize + frameAfter

namespace Asm

/-- What is known about an expression and its parts agrees with their values in a store. -/
def Context.Agrees (ctx : Context) (store : Store) (e : Expr) : Prop :=
  ∀ part ∈ e.parts, ∀ known value, ctx.known part = some known →
    part.eval? store = some value → known = value

/-- A value has been brought to its place. -/
def Place.Holds (place : Place) (m : Machine) (value : Word) (m' : Machine) : Prop :=
  match place with
  | .stack => 4 ≤ m.top ∧ m'.regs .esp = m.regs .esp - 4 ∧ m'.memory (m'.regs .esp) = .word value
  | .eax => m'.regs .esp = m.regs .esp ∧ m'.regs .eax = value
  | .ebx => m'.regs .esp = m.regs .esp ∧ m'.regs .ebx = value

namespace Machine

/-- One machine goes on to another. -/
abbrev Reaches (image : Image) : Machine → Machine → Prop :=
  Relation.ReflTransGen fun m m' => m.step image = .goes m'

def slotOf (m : Machine) (symbol : Symbol) (i : Nat) : Word :=
  m.regs .ebp - .ofNat 32 (symbol.depth i)

/-- What the frame holds for a symbol: nothing for a function. -/
def cell? (m : Machine) (symbol : Symbol) : Option Cell :=
  if symbol.isScalar then some (.word (m.load? (m.slotOf symbol 0)))
  else if symbol.isArray then
    some (.array symbol.length fun i => m.load? (m.slotOf symbol i))
  else none

def frameStore (m : Machine) (lookup : Lookup) : Store := fun name =>
  (lookup name).bind m.cell?

/-- A frame with so many bytes of variables lies in the address space, and the stack pointer
    is not above any of them. -/
def HasFrame (m : Machine) (size : Nat) : Prop := m.top + size + 12 ≤ (m.regs .ebp).toNat

/-- Whatever some lines push finds room on the stack. -/
def HasRoomFor (m : Machine) (piece : Code) : Prop :=
  ∀ i ≤ piece.length, depthAt piece i ≤ m.top

instance (m : Machine) (size : Nat) : Decidable (m.HasFrame size) :=
  inferInstanceAs (Decidable (_ ≤ _))

instance (m : Machine) (piece : Code) : Decidable (m.HasRoomFor piece) :=
  inferInstanceAs (Decidable (∀ i ≤ piece.length, _))

/-- Everything at or above the stack pointer is as before, and so are the registers that
    belong to the caller. -/
structure Keeps (m m' : Machine) : Prop where
  esi : m'.regs .esi = m.regs .esi
  edi : m'.regs .edi = m.regs .edi
  ebp : m'.regs .ebp = m.regs .ebp
  memory : ∀ address : Word, m.top ≤ address.toNat → m'.memory address = m.memory address

/-- A value has been brought to its place, and everything else is kept. -/
def Delivers (m : Machine) (place : Place) (value : Word) (m' : Machine) : Prop :=
  Keeps m m' ∧ place.Holds m value m'

end Machine

end Asm

end Wordlang
