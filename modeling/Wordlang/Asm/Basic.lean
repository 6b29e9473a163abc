import Wordlang.Operator

/-! # Assembly

The part of 32-bit x86 assembly in which programs are written out: registers,
operands, instructions and labels. The source of an instruction comes before its
destination.
-/

namespace Wordlang.Asm

/-- The registers that programs name. -/
inductive Reg where
  | eax
  | ebx
  | esi
  | edi
  | esp
  | ebp
  deriving Repr, DecidableEq

/-- The lowest bytes of two registers. -/
inductive ByteReg where
  | al
  | bl
  deriving Repr, DecidableEq

/-- A memory address. -/
inductive Address where
  /-- A constant behind a register. -/
  | based (disp : Int) (base : Reg)
  /-- A constant and so many times a second register behind the first. -/
  | scaled (disp : Int) (base index : Reg) (scale : Nat)
  /-- The sum of two registers. -/
  | sum (base index : Reg)
  deriving Repr, DecidableEq

/-- What an instruction works on. -/
inductive Operand where
  | imm (value : Int)
  | reg (reg : Reg)
  | mem (address : Address)
  deriving Repr, DecidableEq

/-- The places that code jumps to or calls. Numbers tell the generated ones apart. -/
inductive Label where
  | function (name : String)
  /-- The second name of the function at which a program starts. -/
  | start
  /-- Where a comparison that holds goes on. -/
  | holds (op : BinOp) (number : Nat)
  /-- Where a comparison ends. -/
  | compared (op : BinOp) (number : Nat)
  | whenDone (number : Nat)
  | otherwise (number : Nat)
  | chooseDone (number : Nat)
  | loop (number : Nat)
  | loopDone (number : Nat)
  deriving Repr, DecidableEq

namespace Label

/-- Whether code generation makes labels of this form. The others belong to functions. -/
def isGenerated : Label → Bool
  | function _ => false
  | start => false
  | holds op _ => op.isComparison
  | compared op _ => op.isComparison
  | _ => true

def number : Label → Nat
  | function _ => 0
  | start => 0
  | holds _ number => number
  | compared _ number => number
  | whenDone number => number
  | otherwise number => number
  | chooseDone number => number
  | loop number => number
  | loopDone number => number

end Label

/-- When a jump is taken. -/
inductive Jump where
  | always
  | equal
  | notEqual
  | greater
  | greaterEq
  | less
  | lessEq
  deriving Repr, DecidableEq

/-- The operations that replace their destination by a result. -/
inductive Arith where
  | add
  | sub
  | imul
  | and
  | or
  /-- Subtract with borrow. -/
  | sbb
  deriving Repr, DecidableEq

/-- Whether a mnemonic states that it works on 32 bits. It always does. -/
inductive Width where
  | plain
  | long
  deriving Repr, DecidableEq

/-- An instruction. -/
inductive Instr where
  | push (width : Width) (source : Operand)
  | pop (dest : Reg)
  | mov (width : Width) (source dest : Operand)
  /-- Load a byte and clear the rest. -/
  | movzbl (source : ByteReg) (dest : Reg)
  /-- Load an address. -/
  | leal (source : Address) (dest : Reg)
  | arith (op : Arith) (source : Operand) (dest : Reg)
  | cmp (source : Operand) (dest : Reg)
  | test (source dest : Reg)
  | setne (dest : ByteReg)
  | neg (dest : Reg)
  | inc (dest : Reg)
  /-- Extend `%eax` into `%edx`. -/
  | cdq
  /-- Divide by a register; the quotient is left in `%eax`. -/
  | idiv (divisor : Reg)
  /-- Move if the last comparison found less. -/
  | cmovl (source dest : Reg)
  | jump (cond : Jump) (target : Label)
  | call (target : Label)
  | leave
  | ret
  deriving Repr, DecidableEq

/-- A line of assembly. -/
inductive Line where
  /-- The code section begins. -/
  | text
  /-- The label is visible outside. -/
  | globl (label : Label)
  | comment (text : String)
  | label (label : Label)
  | instr (instr : Instr)
  deriving Repr, DecidableEq

abbrev Code := List Line

def Line.isComment : Line → Bool
  | .comment _ => true
  | _ => false

def marks (piece : Code) : List Label :=
  piece.filterMap fun
    | .label place => some place
    | _ => none

end Wordlang.Asm
