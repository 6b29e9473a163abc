import Wordlang.Asm.Basic
import Wordlang.Scope.Symbol

/-! # Frames

Where the variables of a function lie while it runs. Below the frame pointer
come three saved registers, and below those the words of the function's scope: the
further from the start of the scope, the lower. Element 0 of an array is its
lowest word.
-/

namespace Wordlang

/-- Bytes between the frame pointer and the first argument: the saved frame pointer
    and the return address. -/
def frameBefore : Nat := 8

/-- Bytes from the frame pointer down to the first word of the scope: the three
    saved registers and the word itself. -/
def frameAfter : Nat := 16

namespace Symbol

open Asm

def slot (symbol : Symbol) : Address := .based (-((symbol.offset + frameAfter : Nat) : Int)) .ebp

def elementSlot (symbol : Symbol) (index : Word) : Address :=
  let last : Int := symbol.length - 1
  .based (-(symbol.offset + (last - index.toInt) * wordSize + frameAfter)) .ebp

def indexedSlot (symbol : Symbol) : Address :=
  let bytes := symbol.offset + (symbol.length - 1) * wordSize + frameAfter
  .scaled (-(bytes : Int)) .ebp .ebx wordSize

end Symbol

end Wordlang
