import Mathlib.Algebra.Group.Int.Defs
import Mathlib.Algebra.Group.Nat.Defs
import Wordlang.Asm.Live
import Wordlang.Asm.Machine
import Wordlang.Asm.Program

/-! # Layout of frames

What it means that the words of a function's variables fill its frame and that its
code reaches them there and nowhere else: which addresses the variables have, which
addresses the code names, and where the stack pointer is behind the start and
before the end of the function. Code can name an address as far as its displacement
is a number that fits (`Func.Addressable`).
-/

namespace Wordlang

open Asm

/-- The addresses of a variable's words: the slot of a scalar, or one for each element. -/
def Symbol.addresses (symbol : Symbol) : List Address :=
  if symbol.isArray then (List.range symbol.length).map fun i => symbol.elementSlot (.ofNat 32 i)
  else [symbol.slot]

/-- The addresses of the words of all variables that a function declares. -/
def Func.addresses (func : Func) (lookup : Lookup) : List Address :=
  func.typing.flatMap fun entry => ((lookup entry.1).map Symbol.addresses).getD []

/-- Every element of an array has an index: indices are words with a sign, so there are
    half as many of them as there are words. -/
def Func.Indexable (func : Func) : Prop :=
  ∀ name length, (name, Ty.intarray length) ∈ func.typing → length ≤ 2147483648

/-- A name where a variable of one word is read or written, or an array at an index. -/
inductive Use where
  | scalar (name : String)
  | element (name : String) (index : Expr)

namespace Use

/-- The name is declared as it is used, an array with at least one element. -/
def Fits (lookup : Lookup) : Use → Prop
  | scalar name => ∃ symbol, lookup name = some symbol ∧ symbol.isScalar = true
  | element name _ =>
      ∃ symbol, lookup name = some symbol ∧ symbol.isArray = true ∧ 1 ≤ symbol.length

/-- The address that code generation takes. -/
def address? (ctx : Context) : Use → Option Address
  | scalar name => (ctx.lookup name).map Symbol.slot
  | element name index => (ctx.lookup name).map fun symbol =>
      match ctx.known index with
      | some value => symbol.elementSlot value
      | none => symbol.indexedSlot

end Use

def Expr.uses : Expr → List Use
  | int _ _ => []
  | bool _ _ => []
  | var _ name => [.scalar name]
  | index _ name element => .element name element :: element.uses
  | unary _ _ operand => operand.uses
  | binary _ _ left right => left.uses ++ right.uses

mutual

def Stmt.uses : Stmt → List Use
  | .assign target value => .scalar target :: value.uses
  | .assignIndex target index value => .element target index :: (index.uses ++ value.uses)
  | .call _ target _ args => .scalar target :: args.flatMap Expr.uses
  | .callIndex _ target index _ args =>
      .element target index :: (index.uses ++ args.flatMap Expr.uses)
  | .when cond body => cond.uses ++ usesAll body
  | .choose cond thens elses => cond.uses ++ (usesAll thens ++ usesAll elses)
  | .loop cond body => cond.uses ++ usesAll body
  | .block body => usesAll body

def Stmt.usesAll : List Stmt → List Use
  | [] => []
  | stmt :: rest => stmt.uses ++ usesAll rest

end

def Func.uses (func : Func) : List Use := Stmt.usesAll func.body ++ func.result.uses

namespace Asm

/-- The place in memory that an operand stands for. -/
def Operand.address? : Operand → Option Address
  | .mem address => some address
  | _ => none

/-- The places in memory that a line reads or writes by name. -/
def Line.addresses : Line → List Address
  | .instr (.push _ source) => source.address?.toList
  | .instr (.mov _ source dest) => source.address?.toList ++ dest.address?.toList
  | .instr (.arith _ source _) => source.address?.toList
  | .instr (.cmp source _) => source.address?.toList
  | _ => []

/-- The places in memory that code reads or writes by name. -/
def Code.addresses (code : Code) : List Address := code.flatMap Line.addresses

namespace Machine

/-- Do what some lines say, one after the other, if none of them goes elsewhere. Wherever
    such lines stand in a code, its steps do the same. -/
def perform? (m : Machine) : Code → Option Machine
  | [] => some m
  | .instr instr :: rest => do (← m.execute? instr).next.perform? rest
  | _ :: rest => m.next.perform? rest

/-- So many words lie above the return address, on top of the stack. -/
def HasArgs (m : Machine) (count : Nat) : Prop :=
  ∀ k < count, ∃ value, m.load? (m.regs .esp + .ofNat 32 (4 + 4 * k)) = some value

end Machine

def copyArgument (k : Nat) : Line :=
  .instr (.push .long (.mem (.based (frameBefore + k * wordSize : Nat) .ebp)))

/-- The start of a function whose scope takes so many bytes. -/
def start (ctx : Context) (func : Func) (size : Nat) : Code :=
  prologue ctx func.name (size - func.params.length * wordSize) func.params.length

end Asm

open Asm in
/-- The variables of a function fill the frame between the three saved registers and the
    stack pointer, and its code reaches them as they are declared. -/
structure Func.Layout (ctx : Context) (func : Func) (size : Nat) : Prop where
  /-- No two variables or elements share a word. -/
  nodup : func.Indexable → (func.addresses ctx.lookup).Nodup
  /-- The words of variables are all those below the saved registers and not below the bytes
      of the scope. -/
  fill : func.Indexable → ∀ address, address ∈ func.addresses ctx.lookup ↔
    ∃ disp : Int, address = .based disp .ebp ∧ 4 ∣ disp ∧ -12 - size ≤ disp ∧ disp < -12
  /-- The words of the parameters are part of the scope. -/
  params_le : func.params.length * wordSize ≤ size
  /-- Three registers are saved in the words right below the frame pointer. -/
  saves : ∃ before after, start ctx func size = before ++ after ∧ ∀ m : Machine, ∃ m',
    m.perform? before = some m' ∧ m'.regs .esp = m'.regs .ebp - 12 ∧
      m'.load? (m'.regs .ebp - 4) = some (m.regs .ebx) ∧
      m'.load? (m'.regs .ebp - 8) = some (m.regs .esi) ∧
      m'.load? (m'.regs .ebp - 12) = some (m.regs .edi)
  /-- Behind its start the stack pointer is as many bytes below the saved registers as the
      scope takes. -/
  enters : ∀ m : Machine, m.HasArgs func.params.length → ∃ m',
    m.perform? (start ctx func size) = some m' ∧
      m'.regs .esp = m'.regs .ebp - 12 - .ofNat 32 size
  /-- Each parameter has the word to which its argument is copied. -/
  copies : ∀ k param, func.params[k]? = some param → ∃ symbol before after,
    ctx.lookup param.name = some symbol ∧
      start ctx func size = before ++ copyArgument k :: after ∧
      ∀ m : Machine, m.HasArgs (k + 1) → ∃ m₁ m₂ value, m.perform? before = some m₁ ∧
        m₁.load? (m₁.address (.based (frameBefore + k * wordSize : Nat) .ebp)) = some value ∧
        m₁.perform? [copyArgument k] = some m₂ ∧
        m₂.address symbol.slot = m₂.regs .esp ∧
        m₂.memory (m₂.address symbol.slot) = .word value
  /-- Its end takes the bytes of the scope off again. -/
  leaves : ∀ m : Machine, m.regs .esp = m.regs .ebp - 12 - .ofNat 32 size → ∃ m',
    m.perform? (release size) = some m' ∧ m'.regs .ebp = m.regs .ebp ∧
      m'.regs .esp = m.regs .ebp - 12
  /-- Between start and end the code only reaches variables. -/
  code : ∀ n, ∃ middle n', (bodyCode ctx func size).run n =
      .ok (start ctx func size ++ middle ++ epilogue ctx size, n') ∧
    ∀ address ∈ Code.addresses middle, ∃ use ∈ func.uses, use.address? ctx = some address
  /-- Variables are used as they are declared. -/
  uses : ∀ use ∈ func.uses, use.Fits ctx.lookup
  /-- An element has the same address whether its index is known or in a register. -/
  indexed : ∀ name symbol, ctx.lookup name = some symbol → symbol.isArray = true →
    ∀ (m : Machine) (index : Word), m.regs .ebx = index →
      m.address (symbol.elementSlot index) = m.address symbol.indexedSlot

/-- An element with a known index is not further below the frame than there is room for, and not
    too far above it. -/
def Use.Near (known : Expr → Option Word) (size : Nat) : Use → Prop
  | scalar _ => True
  | element _ index => ∀ value ∈ known index,
      size + 12 ≤ 2 ^ 31 + 4 * value.toInt ∧ value.toInt ≤ 2 ^ 30 + 3

instance (known : Expr → Option Word) (size : Nat) : DecidablePred (Use.Near known size)
  | .scalar _ => inferInstanceAs (Decidable True)
  | .element _ index => Option.decidableForallMem (known index)

/-- The words that a function names are within reach of numbers that fit. -/
structure Func.Addressable (facts : FactTable) (func : Func) : Prop where
  /-- The lowest word of the frame is. -/
  frame : func.typing.size + 12 ≤ 2 ^ 31
  /-- So are the elements whose indices are known. -/
  indices : ∀ use ∈ func.uses, use.Near facts.known func.typing.size

end Wordlang
