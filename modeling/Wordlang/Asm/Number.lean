import Wordlang.Asm.Basic

/-! # Numbers in assembly

The numbers that an assembler has to put into 32 bits: immediate operands and the displacements
of addresses. A number fits if it is a word with a sign or one without.
-/

namespace Wordlang.Asm

def Address.displacement? : Address → Option Int
  | based disp _ => some disp
  | scaled disp _ _ _ => some disp
  | sum _ _ => none

def Operand.number? : Operand → Option Int
  | imm value => some value
  | reg _ => none
  | mem address => address.displacement?

/-- The operands of an instruction that need not be registers. -/
def Instr.operands : Instr → List Operand
  | push _ source => [source]
  | mov _ source dest => [source, dest]
  | leal source _ => [.mem source]
  | arith _ source _ => [source]
  | cmp source _ => [source]
  | _ => []

def Line.numbers : Line → List Int
  | instr op => op.operands.filterMap Operand.number?
  | _ => []

/-- The number is a word of 32 bits, with or without a sign. -/
def FitsWord (number : Int) : Prop := -2147483648 ≤ number ∧ number ≤ 4294967295

instance (number : Int) : Decidable (FitsWord number) :=
  inferInstanceAs (Decidable (_ ∧ _))

/-- All numbers in some code fit. -/
def Code.Encodable (code : Code) : Prop :=
  ∀ line ∈ code, ∀ number ∈ line.numbers, FitsWord number

end Wordlang.Asm
