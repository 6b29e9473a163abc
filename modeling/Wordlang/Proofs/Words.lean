import Wordlang.Asm.Machine

/-! # Words in flags and bytes

What the flags of a comparison and of a negation say about the words behind them,
and how a truth value survives in the lowest byte of a register.
-/

namespace Wordlang.Word

theorem ofBool_and (p q : Bool) : ofBool p &&& ofBool q = ofBool (p && q) := by
  cases p <;> cases q <;> rfl

theorem ofBool_or (p q : Bool) : ofBool p ||| ofBool q = ofBool (p || q) := by
  cases p <;> cases q <;> rfl

/-- A truth value in the lowest byte is all that is left when the rest is cleared. -/
theorem lowByte_ofBool (a : Word) (p : Bool) :
    ((a &&& ~~~0xFF) ||| ofBool p) &&& 0xFF = ofBool p := by
  have rest : (a &&& ~~~(0xFF : Word)) &&& 0xFF = 0#32 := by
    rw [BitVec.and_assoc]
    exact BitVec.and_zero
  have byte : ofBool p &&& 0xFF = ofBool p := by cases p <;> decide
  rw [BitVec.and_or_distrib_right, rest, byte, BitVec.zero_or]

/-- The signs of a difference and of its overflow differ exactly for a smaller word. -/
theorem msb_sub_bne_overflow (a b : Word) :
    ((a - b).msb != BitVec.ssubOverflow a b) = a.slt b := by
  have := a.toInt_lt
  have := b.toInt_lt
  have := a.le_toInt
  have := b.le_toInt
  rw [BitVec.msb_eq_toInt, BitVec.ssubOverflow, BitVec.toInt_sub, BitVec.slt, Int.bmod_def,
    Bool.eq_iff_iff, bne_iff_ne, ne_eq, Bool.eq_iff_iff]
  simp only [decide_eq_true_eq, Bool.or_eq_true] at *
  split <;> omega

theorem sub_eq_zero_beq (a b : Word) : (a - b == 0) = (a == b) := by
  rw [Bool.eq_iff_iff, beq_iff_eq, beq_iff_eq, BitVec.sub_eq_iff_eq_add]
  exact (BitVec.zero_add b).symm ▸ Iff.rfl

/-- A word is at most another one when it is the same or smaller. -/
theorem sle_eq (a b : Word) : a.sle b = (a == b || a.slt b) := by
  rw [Bool.eq_iff_iff, Bool.or_eq_true, beq_iff_eq, BitVec.sle_iff_toInt_le,
    BitVec.slt_iff_toInt_lt, ← BitVec.toInt_inj]
  omega

theorem slt_eq_not_sle (a b : Word) : b.slt a = !a.sle b := by
  rw [Bool.eq_iff_iff, Bool.not_eq_true', ← Bool.not_eq_true, BitVec.sle_iff_toInt_le,
    BitVec.slt_iff_toInt_lt, Int.not_le]

/-- A negation that comes out as less than zero is taken back, which leaves the distance
    from zero. -/
theorem neg_or_self_eq_abs (a : Word) :
    (if (-a).msb != (a == .intMin 32) then a else -a) = a.abs := by
  rw [BitVec.msb_neg, BitVec.abs]
  by_cases zero : a = 0#32
  · subst zero
    decide
  · by_cases least : a = .intMin 32
    · subst least
      decide
    · have notZero : (a != 0#32) = true := by simpa using zero
      have notLeast : (a != .intMin 32) = true := by simpa using least
      have notLeast' : (a == .intMin 32) = false := by simpa using least
      rw [notZero, notLeast, notLeast']
      cases a.msb <;> rfl

/-- Subtracting a borrow from nothing and counting up by one negates the borrow. -/
theorem borrow_add_one (a b : Word) : b - b - ofBool (a != 0) + 1 = ofBool (a == 0) := by
  rw [BitVec.sub_self, bne]
  cases a == 0 <;> decide

end Wordlang.Word
