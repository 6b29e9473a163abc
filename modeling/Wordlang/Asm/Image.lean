import Wordlang.Asm.Number

/-! # Loaded code

Before code runs, all of it is loaded. The numbers of what is loaded are words with their signs;
other numbers cannot be loaded, not even in lines that are never executed.
-/

namespace Wordlang.Asm

def isSigned (number : Int) : Bool := -2147483648 ≤ number && number ≤ 2147483647

def Address.isSigned : Address → Bool
  | based disp _ => Asm.isSigned disp
  | scaled disp _ _ scale => Asm.isSigned disp && Asm.isSigned scale
  | sum _ _ => true

def Operand.isSigned : Operand → Bool
  | imm value => Asm.isSigned value
  | reg _ => true
  | mem address => address.isSigned

def Line.isSigned : Line → Bool
  | instr op => op.operands.all Operand.isSigned
  | _ => true

/-- Code that has been loaded. -/
structure Image where
  code : Code
  signed : code.all Line.isSigned = true

/-- Load code, which fails at the first number that is no word with a sign. -/
def Code.load? (code : Code) : Option Image :=
  if signed : code.all Line.isSigned = true then some ⟨code, signed⟩ else none

theorem Code.load?_eq_some {code : Code} {image : Image} :
    code.load? = some image ↔ image.code = code := by
  unfold load?
  constructor
  · intro loaded
    split at loaded
    · exact congrArg Image.code (Option.some.inj loaded).symm
    · exact absurd loaded nofun
  · rintro rfl
    exact dif_pos image.signed

/-- A part of what has been loaded can be loaded by itself. -/
theorem Image.exists_part {image : Image} {before piece after : Code}
    (within : image.code = before ++ piece ++ after) : ∃ part : Image, part.code = piece := by
  have signed := image.signed
  rw [within, List.all_append, List.all_append, Bool.and_eq_true, Bool.and_eq_true] at signed
  exact ⟨⟨piece, signed.1.2⟩, rfl⟩

theorem Code.load?_eq_none_of_part {before piece after : Code} (unloadable : piece.load? = none) :
    Code.load? (before ++ piece ++ after) = none := by
  cases loaded : Code.load? (before ++ piece ++ after) with
  | none => rfl
  | some image =>
      obtain ⟨part, rfl⟩ := Image.exists_part (Code.load?_eq_some.mp loaded)
      rw [Code.load?_eq_some.mpr rfl] at unloadable
      exact absurd unloadable nofun

theorem Line.isSigned_of_mem {line : Line} (signed : line.isSigned = true) {number : Int}
    (mem : number ∈ line.numbers) : Asm.isSigned number = true := by
  cases line with
  | instr op =>
      obtain ⟨operand, isOperand, isNumber⟩ := List.mem_filterMap.mp mem
      have signed := List.all_eq_true.mp signed operand isOperand
      cases operand with
      | imm value => exact Option.some.inj isNumber ▸ signed
      | reg reg => exact absurd isNumber nofun
      | mem address =>
          cases address with
          | based disp base => exact Option.some.inj isNumber ▸ signed
          | scaled disp base index scale =>
              exact Option.some.inj isNumber ▸ (Bool.and_eq_true _ _ ▸ signed).1
          | sum base index => exact absurd isNumber nofun
  | _ => exact absurd mem List.not_mem_nil

/-- The word that the machine takes for a number of loaded code is that number. -/
theorem Image.toInt_ofInt (image : Image) {line : Line} (inside : line ∈ image.code) {number : Int}
    (mem : number ∈ line.numbers) : (BitVec.ofInt 32 number).toInt = number := by
  have signed := Line.isSigned_of_mem (List.all_eq_true.mp image.signed line inside) mem
  simp only [isSigned, Bool.and_eq_true, decide_eq_true_eq] at signed
  rw [BitVec.toInt_ofInt, Int.bmod_eq_of_le] <;> omega

end Wordlang.Asm
