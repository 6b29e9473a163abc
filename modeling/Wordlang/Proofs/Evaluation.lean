import Wordlang.Proofs.Execution
import Wordlang.Proofs.Generation
import Wordlang.Proofs.Words

/-! # Evaluation by generated code

The code of an expression, run on a machine whose frame shows a store, brings the
value that the expression has in that store to its place. Everything at or above
the stack pointer stays as it was, and so do the registers that belong to the
caller. The known values that replace code only have to agree with the values
they replace.
-/

namespace Wordlang

namespace Cell

def length : Cell → Nat
  | word _ => 1
  | array length _ => length

def item? : Cell → Nat → Option Word
  | word content, i => if i = 0 then content else none
  | array length content, i => if i < length then content i else none

end Cell

theorem Expr.eval?_binary {node op left right} {store : Store} {value : Word}
    (h : (Expr.binary node op left right).eval? store = some value) : ∃ a b,
      left.eval? store = some a ∧ right.eval? store = some b ∧ (op = .div → b ≠ 0) ∧
        op.eval a b = value := by
  obtain ⟨a, evalLeft, h⟩ := Option.bind_eq_some_iff.mp h
  obtain ⟨b, evalRight, h⟩ := Option.bind_eq_some_iff.mp h
  split at h
  · exact absurd h (by simp)
  · next defined =>
    exact ⟨a, b, evalLeft, evalRight, fun div zero => defined ⟨div, zero⟩, Option.some.inj h⟩

/-- An index inside the bounds of an array is the number of the element. -/
theorem Store.position?_eq_some {length : Nat} {index : Word} {i : Nat}
    (h : position? length index = some i) : i < length ∧ i = index.toNat ∧ index.toInt = i := by
  unfold position? at h
  split at h
  · next inside =>
    obtain rfl := Option.some.inj h
    have := BitVec.toInt_eq_toNat_cond index
    split at this <;> omega
  · exact absurd h (by simp)

namespace Asm

theorem Context.Agrees.mono {ctx : Context} {store : Store} {e part : Expr}
    (agrees : ctx.Agrees store e) (sub : part.parts ⊆ e.parts) : ctx.Agrees store part :=
  fun x mem => agrees x (sub mem)

namespace Machine

theorem address_based_neg (m : Machine) (bytes : Nat) (base : Reg) :
    m.address (.based (-(bytes : Int)) base) = m.regs base - .ofNat 32 bytes := by
  rw [address, BitVec.ofInt_neg, BitVec.ofInt_natCast, BitVec.add_comm, BitVec.sub_eq_add_neg]

theorem address_slot (m : Machine) {symbol : Symbol} (scalar : symbol.length = 1) :
    m.address symbol.slot = m.slotOf symbol 0 := by
  rw [Symbol.slot, address_based_neg, slotOf, Symbol.depth, scalar]
  simp only [Nat.sub_self, Nat.zero_mul, Nat.add_zero]

theorem address_elementSlot (m : Machine) {symbol : Symbol} {index : Word} {i : Nat}
    (inside : Store.position? symbol.length index = some i) :
    m.address (symbol.elementSlot index) = m.slotOf symbol i := by
  obtain ⟨bound, _, value⟩ := Store.position?_eq_some inside
  have bytes : (symbol.offset + ((symbol.length : Int) - 1 - index.toInt) * wordSize + frameAfter) =
      (symbol.depth i : Nat) := by
    simp only [Symbol.depth, wordSize, value]
    omega
  rw [Symbol.elementSlot, bytes, address_based_neg, slotOf]

theorem address_indexedSlot (m : Machine) {symbol : Symbol} {i : Nat}
    (inside : Store.position? symbol.length (m.regs .ebx) = some i) :
    m.address symbol.indexedSlot = m.slotOf symbol i := by
  obtain ⟨bound, number, _⟩ := Store.position?_eq_some inside
  have bytes : symbol.offset + (symbol.length - 1) * wordSize + frameAfter =
      symbol.depth i + i * wordSize := by
    simp only [Symbol.depth, wordSize]
    omega
  have index : m.regs .ebx * .ofNat 32 wordSize = .ofNat 32 (i * wordSize) := by
    rw [BitVec.ofNat_mul, number, BitVec.ofNat_toNat, BitVec.setWidth_eq]
  have base : m.address symbol.indexedSlot =
      m.regs .ebp - .ofNat 32 (symbol.depth i + i * wordSize) + .ofNat 32 (i * wordSize) := by
    rw [← index, ← bytes, ← address_based_neg]
    rfl
  rw [base, BitVec.ofNat_add, ← BitVec.sub_sub, BitVec.sub_add_cancel, slotOf]

theorem Keeps.refl (m : Machine) : Keeps m m := ⟨rfl, rfl, rfl, fun _ _ => rfl⟩

theorem Keeps.trans {m m₁ m₂ : Machine} (h₁ : Keeps m m₁) (lower : m₁.top ≤ m.top)
    (h₂ : Keeps m₁ m₂) : Keeps m m₂ where
  esi := h₂.esi.trans h₁.esi
  edi := h₂.edi.trans h₁.edi
  ebp := h₂.ebp.trans h₁.ebp
  memory address above :=
    (h₂.memory address (Nat.le_trans lower above)).trans (h₁.memory address above)

/-- The words of a store are found in the frame, none of them below the stack pointer. -/
def Shows (m : Machine) (lookup : Lookup) (store : Store) : Prop :=
  ∀ name cell, store name = some cell → ∃ symbol, lookup name = some symbol ∧
    symbol.length = cell.length ∧ ∀ i value, cell.item? i = some value →
      m.top ≤ (m.slotOf symbol i).toNat ∧ m.memory (m.slotOf symbol i) = .word value

theorem top_sub_four {m m' : Machine} (room : 4 ≤ m.top)
    (lowered : m'.regs .esp = m.regs .esp - 4) : m'.top + 4 = m.top := by
  unfold top at *
  have := (m.regs .esp).isLt
  rw [lowered, BitVec.toNat_sub]
  simp only [BitVec.ofNat_eq_ofNat, BitVec.toNat_ofNat]
  omega

theorem Delivers.top_le {m m' : Machine} {place : Place} {value : Word}
    (h : Delivers m place value m') : m'.top ≤ m.top := by
  cases place with
  | stack =>
      have := top_sub_four h.2.1 h.2.2.1
      omega
  | eax => exact Nat.le_of_eq (congrArg BitVec.toNat h.2.1)
  | ebx => exact Nat.le_of_eq (congrArg BitVec.toNat h.2.1)

theorem Shows.keeps {m m' : Machine} {lookup : Lookup} {store : Store}
    (shows : m.Shows lookup store)
    (kept : Keeps m m') (lower : m'.top ≤ m.top) : m'.Shows lookup store := by
  intro name cell found
  obtain ⟨symbol, known, length, items⟩ := shows name cell found
  refine ⟨symbol, known, length, fun i value item => ?_⟩
  obtain ⟨above, holds⟩ := items i value item
  have same : m'.slotOf symbol i = m.slotOf symbol i := by rw [slotOf, slotOf, kept.ebp]
  rw [same, kept.memory _ above]
  exact ⟨Nat.le_trans lower above, holds⟩

section Operators

variable {image : Image} {m : Machine} {post : Machine → Prop}

theorem Leads.note {ctx : Context} {text : String} (h : ∀ line, post (m.goto line)) :
    Leads image (ctx.note text) m post := by
  unfold Context.note
  split
  · exact .comment (h _)
  · exact .nil (h m.line)

theorem Delivers.of_goto {place value m' line} (h : Delivers (m.goto line) place value m') :
    Delivers m place value m' :=
  ⟨⟨h.1.esi, h.1.edi, h.1.ebp, h.1.memory⟩, h.2⟩

theorem Delivers.trans {m₁ m₂ : Machine} {place₁ place : Place} {first value : Word}
    (h₁ : Delivers m place₁ first m₁) (inReg : place₁ ≠ .stack)
    (h₂ : Delivers m₁ place value m₂) : Delivers m place value m₂ := by
  have esp₁ : m₁.regs .esp = m.regs .esp := by
    cases place₁ with
    | stack => exact absurd rfl inReg
    | eax | ebx => exact h₁.2.1
  obtain ⟨kept₂, holds₂⟩ := h₂
  have top₁ : m₁.top = m.top := congrArg BitVec.toNat esp₁
  refine ⟨h₁.1.trans (Nat.le_of_eq top₁) kept₂, ?_⟩
  cases place with
  | stack => exact ⟨top₁ ▸ holds₂.1, esp₁ ▸ holds₂.2.1, holds₂.2.2⟩
  | eax | ebx => exact ⟨holds₂.1.trans esp₁, holds₂.2⟩

theorem Delivers.scratch {m' : Machine} {place : Place} {value : Word} (inReg : place ≠ .stack)
    (regs : ∀ reg, reg ≠ .eax → reg ≠ .ebx → m'.regs reg = m.regs reg)
    (memory : m'.memory = m.memory) (brought : m'.regs place.reg = value) :
    Delivers m place value m' := by
  have kept : Keeps m m' :=
    ⟨regs _ (by simp) (by simp), regs _ (by simp) (by simp), regs _ (by simp) (by simp),
      fun address _ => congrFun memory address⟩
  have esp : m'.regs .esp = m.regs .esp := regs _ (by simp) (by simp)
  cases place with
  | stack => exact absurd rfl inReg
  | eax | ebx => exact ⟨kept, esp, brought⟩

theorem Keeps.push (content : Content) (room : 4 ≤ m.top) : Keeps m (m.push content).next where
  esi := rfl
  edi := rfl
  ebp := rfl
  memory address above := by
    have lowered : (m.push content).top + 4 = m.top := top_sub_four room rfl
    change (m.regs .esp - 4).toNat + 4 = m.top at lowered
    have apart : address ≠ m.regs .esp - 4 := by
      rintro rfl
      omega
    simp only [memory_next, memory_push, if_neg apart]

theorem Leads.pushed {width : Width} {source : Operand} {value : Word}
    (read : m.read? source = some value) :
    Leads image [.instr (.push width source)] m (Delivers m .stack value) :=
  .push read fun room => ⟨.push _ room, room, rfl, by simp⟩

theorem Leads.moved (place : Place) {width : Width} {source : Operand} {value : Word}
    (inReg : place ≠ .stack) (read : m.read? source = some value) :
    Leads image [.instr (.mov width source (.reg place.reg))] m (Delivers m place value) := by
  have executed : m.execute? (.mov width source (.reg place.reg)) =
      some (m.setReg place.reg value) := by
    simp only [execute?, read, write?]
    rfl
  refine .instr executed rfl fun m' regs memory _ =>
    .scratch inReg (fun reg notEax notEbx => ?_) memory ?_
  · cases place <;> simp [regs, Place.reg, notEax, notEbx]
  · simp [regs]

theorem Place.immediate_leads (place : Place) (value : Word) :
    Leads image (place.immediate value) m (Delivers m place value) := by
  have read : m.read? (.imm value.toInt) = some value := congrArg some BitVec.ofInt_toInt
  cases place with
  | stack => exact .pushed read
  | eax | ebx => exact .moved _ (by simp) read

theorem Place.load_leads (place : Place) {address : Address} {value : Word}
    (loaded : m.memory (m.address address) = .word value) :
    Leads image (place.load address) m (Delivers m place value) := by
  have read : m.read? (.mem address) = some value := by simp only [read?, load?, loaded]
  cases place with
  | stack => exact .pushed read
  | eax | ebx => exact .moved _ (by simp) read

theorem Place.store_leads (place : Place) :
    Leads image place.store m (Delivers m place (m.regs .eax)) := by
  cases place with
  | stack => exact .pushed rfl
  | eax => exact .nil ⟨.refl m, rfl, rfl⟩
  | ebx => exact .moved .ebx (by simp) rfl

theorem Delivers.stored {m₁ : Machine} {value : Word} (h : Delivers m .eax value m₁)
    (place : Place) : Leads image place.store m₁ (Delivers m place value) := by
  have stored : Leads image place.store m₁ _ := Place.store_leads place
  rw [h.2.2] at stored
  exact stored.weaken fun _ => h.trans (by simp)

theorem Place.sum_leads (place : Place) (address : Address) :
    Leads image (place.sum address) m (Delivers m place (m.address address)) := by
  refine .cons (.instr rfl rfl fun m' regs memory _ => ?_)
  cases place with
  | stack =>
      have computed : Delivers m .eax (m.address address) m' :=
        .scratch (by simp) (by simp +contextual [regs, Place.reg]) memory
          (by simp [regs, Place.reg])
      exact (Leads.pushed (by simp [read?, regs, Place.reg])).weaken fun _ pushed =>
        computed.trans (by simp) pushed
  | eax | ebx =>
      exact .nil (.scratch (by simp) (by simp +contextual [regs, Place.reg]) memory
        (by simp [regs, Place.reg]))

/-- What was pushed is taken off the stack again, behind work that ends in `%eax`. -/
theorem Delivers.popped {m₁ m₂ : Machine} {a b : Word} (pushed : Delivers m .stack b m₁)
    (delivered : Delivers m₁ .eax a m₂) :
    Leads image [.instr (.pop .ebx)] m₂ fun m₃ => Delivers m .eax a m₃ ∧ m₃.regs .ebx = b := by
  obtain ⟨room, esp₁, top₁⟩ := pushed.2
  have esp₂ : m₂.regs .esp = m₁.regs .esp := delivered.2.1
  have loaded : m₂.memory (m₂.regs .esp) = .word b := by
    rw [esp₂, delivered.1.memory _ (Nat.le_refl _), top₁]
  refine .pop loaded fun m₃ regs₃ memory₃ => ?_
  have kept := pushed.1.trans pushed.top_le delivered.1
  refine ⟨⟨⟨?_, ?_, ?_, fun address above => ?_⟩, ?_, ?_⟩, ?_⟩
  · simp [regs₃, kept.esi]
  · simp [regs₃, kept.edi]
  · simp [regs₃, kept.ebp]
  · rw [memory₃, kept.memory address above]
  · rw [regs₃, regs_setReg, if_neg (by simp), regs_drop, if_pos rfl, esp₂, esp₁,
      BitVec.sub_add_cancel]
  · simp [regs₃, delivered.2.2]
  · simp [regs₃]

private theorem unaryCode_leads (ctx : Context) (op : UnOp) :
    Leads image (unaryCode ctx op) m (Delivers m .eax (op.eval (m.regs .eax))) := by
  cases op with
  | not =>
      refine .append (.note fun line => ?_)
      refine .cons (.instr rfl rfl fun m₁ regs₁ memory₁ flags₁ => ?_)
      refine .cons (.instr rfl rfl fun m₂ regs₂ memory₂ _ => ?_)
      refine .instr rfl rfl fun m₃ regs₃ memory₃ _ => .scratch (by simp) ?_ ?_ ?_
      · simp +contextual [regs₁, regs₂, regs₃]
      · simp [memory₁, memory₂, memory₃]
      · have negated := Word.borrow_add_one (m.regs .eax) (m₁.regs .eax)
        simpa [regs₂, regs₃, flags₁, Place.reg, Arith.result, UnOp.eval] using negated
  | neg =>
      refine .append (.note fun line => .instr rfl rfl fun m' regs memory _ => ?_)
      exact .scratch (by simp) (by simp +contextual [regs]) (by simp [memory])
        (by simp [regs, Place.reg, UnOp.eval])
  | magnitude =>
      refine .append (.note fun line => ?_)
      refine .cons (.instr rfl rfl fun m₁ regs₁ memory₁ _ => ?_)
      refine .cons (.instr rfl rfl fun m₂ regs₂ memory₂ flags₂ => ?_)
      have distance := Word.neg_or_self_eq_abs (m.regs .eax)
      have moved : m₂.execute? (.cmovl .ebx .eax) = some (m₂.setReg .eax (m.regs .eax).abs) := by
        have less : m₂.flags.holds .less = ((-m.regs .eax).msb != (m.regs .eax == .intMin 32)) := by
          simp [Flags.holds, flags₂, regs₁, Flags.ofResult]
        have minuend : m₂.regs .ebx = m.regs .eax := by simp [regs₂, regs₁]
        have negated : m₂.regs .eax = -m.regs .eax := by simp [regs₂, regs₁]
        rw [execute?, less, minuend, ← distance]
        split
        · rfl
        · rw [← negated, setReg_self]
      refine .instr moved rfl fun m₃ regs₃ memory₃ _ => .scratch (by simp) ?_ ?_ ?_
      · simp +contextual [regs₁, regs₂, regs₃]
      · simp [memory₁, memory₂, memory₃]
      · simp [regs₃, Place.reg, UnOp.eval]

theorem holds_ofCompare (a b : Word) :
    (Flags.ofCompare b a).holds .equal = (a == b) ∧
    (Flags.ofCompare b a).holds .notEqual = (a != b) ∧
    (Flags.ofCompare b a).holds .greater = b.slt a ∧
    (Flags.ofCompare b a).holds .greaterEq = b.sle a ∧
    (Flags.ofCompare b a).holds .less = a.slt b ∧
    (Flags.ofCompare b a).holds .lessEq = a.sle b := by
  have zero := Word.sub_eq_zero_beq a b
  have less := Word.msb_sub_bne_overflow a b
  have notLess : ((a - b).msb == BitVec.ssubOverflow a b) = !a.slt b := by
    rw [← less, bne, Bool.not_not]
  refine ⟨zero, ?_, ?_, ?_, less, ?_⟩
  · simp only [Flags.holds, Flags.ofCompare, zero, bne]
  · rw [Word.slt_eq_not_sle, Word.sle_eq, Bool.not_or]
    simp only [Flags.holds, Flags.ofCompare, zero, notLess]
  · rw [← Bool.not_not (b.sle a), ← Word.slt_eq_not_sle]
    exact notLess
  · rw [Word.sle_eq]
    simp only [Flags.holds, Flags.ofCompare, zero, less]

private theorem comparison_leads (unique : (Code.labels image.code).Nodup) {op : BinOp}
    {jump : Jump}
    {n : Nat} {piece : Code} {n' : Nat} (made : (comparisonCode op jump).Makes n piece n') :
    Leads image piece m (Delivers m .eax
      (.ofBool ((Flags.ofCompare (m.regs .ebx) (m.regs .eax)).holds jump))) := by
  simp only [comparisonCode, Gen.makes_bind, Gen.makes_newNumber, Gen.makes_pure] at made
  obtain ⟨_, _, ⟨rfl, rfl⟩, rfl, rfl⟩ := made
  intro placed fits
  simp only [CodeAt.cons_iff] at placed
  obtain ⟨compare, branch, clear, skip, holds, set, done, -⟩ := placed
  let flags := Flags.ofCompare (m.regs .ebx) (m.regs .eax)
  let compared : Machine := { m with flags, line := m.line + 1 }
  have start : m.step image = .goes compared := step_instr compare rfl
  cases taken : flags.holds jump with
  | true =>
      let ended : Machine := ((compared.goto (m.line + 5)).setReg .eax 1).goto (m.line + 7)
      have path : Reaches image compared ended :=
        .head (step_jump branch taken (find?_eq unique holds))
          (.head (step_label holds) (.head (step_instr set rfl) (.single (step_label done))))
      exact ⟨ended, .head start path, rfl,
        .scratch (by simp) (by simp +contextual [ended, compared]) rfl rfl⟩
  | false =>
      let ended : Machine := ((compared.goto (m.line + 3)).setReg .eax 0).goto (m.line + 7)
      have path : Reaches image compared ended :=
        .head (step_jump_not branch taken) (.head (step_instr clear rfl)
          (.head (step_jump skip rfl (find?_eq unique done)) (.single (step_label done))))
      exact ⟨ended, .head start path, rfl,
        .scratch (by simp) (by simp +contextual [ended, compared]) rfl rfl⟩

private theorem truthValues_leads : Leads image truthValues m fun m' =>
    (∀ reg, reg ≠ .eax → reg ≠ .ebx → m'.regs reg = m.regs reg) ∧ m'.memory = m.memory ∧
      m'.regs .eax = .ofBool (m.regs .eax).isTrue ∧
        m'.regs .ebx = .ofBool (m.regs .ebx).isTrue := by
  have truth : ∀ a : Word, (!(a == 0#32)) = a.isTrue := fun _ => rfl
  refine .cons (.instr rfl rfl fun m₁ regs₁ memory₁ flags₁ => ?_)
  refine .cons (.instr rfl rfl fun m₂ regs₂ memory₂ _ => ?_)
  refine .cons (.instr rfl rfl fun m₃ regs₃ memory₃ _ => ?_)
  refine .cons (.instr rfl rfl fun m₄ regs₄ memory₄ flags₄ => ?_)
  refine .cons (.instr rfl rfl fun m₅ regs₅ memory₅ _ => ?_)
  refine .instr rfl rfl fun m₆ regs₆ memory₆ _ => ⟨?_, ?_, ?_, ?_⟩
  · simp +contextual [regs₁, regs₂, regs₃, regs₄, regs₅, regs₆, ByteReg.whole]
  · simp [memory₁, memory₂, memory₃, memory₄, memory₅, memory₆]
  · have byte := Word.lowByte_ofBool (m.regs .eax) (m.regs .eax).isTrue
    simpa [regs₁, regs₂, regs₃, regs₄, regs₅, regs₆, flags₁, ByteReg.whole, Flags.ofResult, truth]
      using byte
  · have byte := Word.lowByte_ofBool (m.regs .ebx) (m.regs .ebx).isTrue
    simpa [regs₁, regs₂, regs₃, regs₄, regs₅, regs₆, flags₄, ByteReg.whole, Flags.ofResult, truth]
      using byte

theorem logical_leads {op : Arith} {value : Word}
    (result : ∀ carry,
      op.result carry (.ofBool (m.regs .ebx).isTrue) (.ofBool (m.regs .eax).isTrue) = value) :
    Leads image (truthValues ++ [.instr (.arith op (.reg .ebx) .eax)]) m
      (Delivers m .eax value) := by
  apply Leads.append
  apply truthValues_leads.weaken
  rintro m₁ ⟨regs₁, memory₁, eax, ebx⟩
  refine .instr rfl rfl fun m₂ regs₂ memory₂ _ => .scratch (by simp) ?_ ?_ ?_
  · simp +contextual [regs₁, regs₂]
  · simp [memory₁, memory₂]
  · simp [regs₂, eax, ebx, Place.reg, result]

private theorem binaryCode_leads (unique : (Code.labels image.code).Nodup) {op : BinOp} {n : Nat}
    {piece : Code} {n' : Nat} (made : (binaryCode op).Makes n piece n')
    (divisor : op = .div → m.regs .ebx ≠ 0) :
    Leads image piece m (Delivers m .eax (op.eval (m.regs .eax) (m.regs .ebx))) := by
  obtain ⟨equal, notEqual, greater, greaterEq, less, lessEq⟩ :=
    holds_ofCompare (m.regs .eax) (m.regs .ebx)
  have compared : ∀ {jump : Jump} {test : Bool}, (comparisonCode op jump).Makes n piece n' →
      (Flags.ofCompare (m.regs .ebx) (m.regs .eax)).holds jump = test →
      Leads image piece m (Delivers m .eax (.ofBool test)) := by
    rintro jump _ made rfl
    exact comparison_leads unique made
  cases op with
  | plus | minus | times =>
      obtain ⟨rfl, rfl⟩ := (Gen.makes_pure _ _ _ _).mp made
      refine .instr rfl rfl fun m' regs memory _ => .scratch (by simp) ?_ memory ?_
      · simp +contextual [regs]
      · simp [regs, Place.reg, BinOp.eval, Arith.result]
  | div =>
      obtain ⟨rfl, rfl⟩ := (Gen.makes_pure _ _ _ _).mp made
      refine .cons (.instr rfl rfl fun m₁ regs₁ memory₁ _ => ?_)
      have divided : m₁.execute? (.idiv .ebx) = some { m₁.setReg .eax
          ((m₁.regs .eax).sdiv (m₁.regs .ebx)) with
            edx := (m₁.regs .eax).srem (m₁.regs .ebx) } := by
        rw [execute?, if_neg (by simpa [regs₁] using divisor rfl)]
      refine .instr divided rfl fun m₂ regs₂ memory₂ _ => .scratch (by simp) ?_ ?_ ?_
      · simp +contextual [regs₁, regs₂]
      · simp [memory₁, memory₂]
      · simp [regs₁, regs₂, Place.reg, BinOp.eval]
  | and =>
      obtain ⟨rfl, rfl⟩ := (Gen.makes_pure _ _ _ _).mp made
      exact logical_leads fun _ => Word.ofBool_and _ _
  | or =>
      obtain ⟨rfl, rfl⟩ := (Gen.makes_pure _ _ _ _).mp made
      exact logical_leads fun _ => Word.ofBool_or _ _
  | equal => exact compared made equal
  | notEqual => exact compared made notEqual
  | greater => exact compared made greater
  | greaterEq => exact compared made greaterEq
  | less => exact compared made less
  | lessEq => exact compared made lessEq

/-- The result of an operator is brought to its place. The operands are in the scratch
    registers, but a sum only needs an address that adds them up. -/
theorem resultCode_leads (unique : (Code.labels image.code).Nodup) {op : BinOp} {total : Address}
    {place : Place} {n : Nat} {piece : Code} {n' : Nat}
    (made : (resultCode op total place).Makes n piece n') {a b : Word}
    (sum : op = .plus → m.address total = a + b)
    (loaded : op ≠ .plus → m.regs .eax = a ∧ m.regs .ebx = b) (divisor : op = .div → b ≠ 0) :
    Leads image piece m (Delivers m place (op.eval a b)) := by
  cases resultCode_makes made with
  | sum isSum =>
      rw [isSum, BinOp.eval, ← sum isSum]
      exact Place.sum_leads place total
  | computed notSum computes =>
      obtain ⟨rfl, rfl⟩ := loaded notSum
      apply Leads.append
      apply (binaryCode_leads unique computes divisor).weaken
      exact fun m₁ delivered => delivered.stored place

private theorem knownOperand_leads (op : BinOp) (value : Word) (reg : Reg) :
    Leads image (knownOperand op value reg) m fun m' =>
      (∀ other, other ≠ reg → m'.regs other = m.regs other) ∧ m'.memory = m.memory ∧
        (op ≠ .plus → m'.regs reg = value) := by
  unfold knownOperand
  split
  · next plus => exact .nil ⟨fun _ _ => rfl, rfl, fun notPlus => absurd plus notPlus⟩
  · have executed : m.execute? (.mov .plain (.imm value.toInt) (.reg reg)) =
        some (m.setReg reg value) := by
      simp only [execute?, read?, BitVec.ofInt_toInt]
      rfl
    refine .instr executed rfl fun m' regs memory _ => ⟨fun other apart => ?_, memory, fun _ => ?_⟩
    · simp [regs, apart]
    · simp [regs]

/-- A known operand is loaded beside the register that holds the other one. -/
theorem Delivers.beside {m₁ : Machine} {place : Place} {held : Word}
    (delivered : Delivers m place held m₁) (inReg : place ≠ .stack) (op : BinOp) (value : Word)
    {reg : Reg} (isScratch : reg = .eax ∨ reg = .ebx) (apart : place.reg ≠ reg) :
    Leads image (knownOperand op value reg) m₁ fun m₂ =>
      Delivers m place held m₂ ∧ (op ≠ .plus → m₂.regs reg = value) := by
  apply (knownOperand_leads op value reg).weaken
  rintro m₂ ⟨regs, memory, loaded⟩
  have same : m₁.regs place.reg = held := by
    cases place with
    | stack => exact absurd rfl inReg
    | eax | ebx => exact delivered.2.2
  have kept : Delivers m₁ place held m₂ := by
    apply Delivers.scratch inReg _ memory ((regs _ apart).trans same)
    intro other notEax notEbx
    apply regs
    rintro rfl
    exact isScratch.elim notEax notEbx
  exact ⟨delivered.trans inReg kept, loaded⟩

end Operators

theorem Shows.word {m : Machine} {lookup : Lookup} {store : Store} (shows : m.Shows lookup store)
    {name : String} {symbol : Symbol} {value : Word} (known : lookup name = some symbol)
    (holds : store.word? name = some value) :
    m.memory (m.address symbol.slot) = .word value := by
  unfold Store.word? at holds
  split at holds
  · next content found =>
    obtain ⟨symbol', known', length, items⟩ := shows name _ found
    obtain rfl : symbol = symbol' := Option.some.inj (known.symm.trans known')
    rw [m.address_slot length]
    exact (items 0 value (by simpa [Cell.item?] using holds)).2
  · exact absurd holds (by simp)

theorem Shows.item {m : Machine} {lookup : Lookup} {store : Store} (shows : m.Shows lookup store)
    {name : String} {symbol : Symbol} {index value : Word} (known : lookup name = some symbol)
    (holds : store.item? name index = some value) : ∃ i,
      Store.position? symbol.length index = some i ∧
        m.memory (m.slotOf symbol i) = .word value := by
  unfold Store.item? at holds
  split at holds
  · next length content found =>
    obtain ⟨i, inside, item⟩ := Option.bind_eq_some_iff.mp holds
    obtain ⟨symbol', known', sameLength, items⟩ := shows name _ found
    obtain rfl : symbol = symbol' := Option.some.inj (known.symm.trans known')
    have bound := (Store.position?_eq_some inside).1
    refine ⟨i, by rw [sameLength]; exact inside, ?_⟩
    exact (items i value (by simpa [Cell.item?, bound] using item)).2
  · exact absurd holds (by simp)

/-- The code of an expression brings its value to the place that is asked for. -/
theorem exprCode_leads {image : Image} (unique : (Code.labels image.code).Nodup) {ctx : Context}
    {e : Expr} {place : Place} {n : Nat} {piece : Code} {n' : Nat}
    (shape : ExprCode ctx e place n piece n') {store : Store} {m : Machine} {value : Word}
    (shows : m.Shows ctx.lookup store) (evaluated : e.eval? store = some value)
    (agrees : ctx.Agrees store e) : Leads image piece m (Delivers m place value) := by
  induction shape generalizing m value with
  | known known =>
      obtain rfl := agrees _ (Expr.mem_parts _) _ _ known evaluated
      exact Place.immediate_leads _ _
  | int | bool =>
      obtain rfl := Option.some.inj evaluated
      exact Place.immediate_leads _ _
  | var _ found => exact Place.load_leads _ (shows.word found evaluated)
  | element _ found known =>
      obtain ⟨i, evalIndex, item⟩ := Option.bind_eq_some_iff.mp evaluated
      obtain rfl := agrees _ (by simp [Expr.parts, Expr.mem_parts]) _ _ known evalIndex
      obtain ⟨position, inside, loaded⟩ := shows.item found item
      refine Place.load_leads _ ?_
      rw [m.address_elementSlot inside]
      exact loaded
  | index _ found _ _ ih =>
      obtain ⟨i, evalIndex, item⟩ := Option.bind_eq_some_iff.mp evaluated
      refine .append ((ih shows evalIndex (agrees.mono (by simp [Expr.parts]))).weaken
        fun m₁ delivered => ?_)
      have shows₁ := shows.keeps delivered.1 delivered.top_le
      obtain ⟨position, inside, loaded⟩ := shows₁.item found item
      rw [← delivered.2.2] at inside
      rw [← m₁.address_indexedSlot inside] at loaded
      exact (Place.load_leads _ loaded).weaken fun _ => delivered.trans (by simp)
  | unary _ _ ih =>
      obtain ⟨a, evalOperand, result⟩ := Option.bind_eq_some_iff.mp evaluated
      obtain rfl := Option.some.inj result
      refine .append (.append ((ih shows evalOperand (agrees.mono (by simp [Expr.parts]))).weaken
        fun m₁ delivered => ?_))
      refine (unaryCode_leads ctx _).weaken fun m₂ computed => ?_
      have delivered₂ := delivered.trans (by simp) computed
      rw [delivered.2.2] at delivered₂
      exact delivered₂.stored _
  | @left _ op left right known _ _ _ _ _ _ _ knownLeft _ made ih =>
      obtain ⟨a, b, evalLeft, evalRight, divisor, rfl⟩ := Expr.eval?_binary evaluated
      obtain rfl := agrees left (by simp [Expr.parts, Expr.mem_parts]) _ _ knownLeft evalLeft
      refine .append (.append (.append (.note fun line => ?_)))
      refine (ih (m := m.goto line) shows evalRight (agrees.mono (by simp [Expr.parts]))).weaken
        fun m₁ delivered => ?_
      apply (delivered.beside (by simp) op known (.inl rfl) (by simp [Place.reg])).weaken
      rintro m₂ ⟨kept, eax⟩
      have ebx : m₂.regs .ebx = b := kept.2.2
      refine (resultCode_leads unique made (fun _ => ?_) (fun notPlus => ⟨eax notPlus, ebx⟩)
        divisor).weaken fun m₃ computed => (kept.trans (by simp) computed).of_goto
      rw [address, BitVec.ofInt_toInt, ebx]
  | @right _ op left right known _ _ _ _ _ _ _ _ knownRight _ made ih =>
      obtain ⟨a, b, evalLeft, evalRight, divisor, rfl⟩ := Expr.eval?_binary evaluated
      obtain rfl := agrees right (by simp [Expr.parts, Expr.mem_parts]) _ _ knownRight evalRight
      refine .append (.append (.append (.note fun line => ?_)))
      refine (ih (m := m.goto line) shows evalLeft (agrees.mono (by simp [Expr.parts]))).weaken
        fun m₁ delivered => ?_
      apply (delivered.beside (by simp) op known (.inr rfl) (by simp [Place.reg])).weaken
      rintro m₂ ⟨kept, ebx⟩
      have eax : m₂.regs .eax = a := kept.2.2
      refine (resultCode_leads unique made (fun _ => ?_) (fun notPlus => ⟨eax, ebx notPlus⟩)
        divisor).weaken fun m₃ computed => (kept.trans (by simp) computed).of_goto
      rw [address, BitVec.ofInt_toInt, eax, BitVec.add_comm]
  | @both _ op left right _ _ _ _ _ _ _ _ _ _ _ _ _ made ihr ihl =>
      obtain ⟨a, b, evalLeft, evalRight, divisor, rfl⟩ := Expr.eval?_binary evaluated
      -- the right operand waits on the stack while the left one is computed
      refine .append (.append (.append (.append (.note fun line => ?_))))
      refine (ihr (m := m.goto line) shows evalRight (agrees.mono (by simp [Expr.parts]))).weaken
        fun m₁ pushed => ?_
      have pushed := pushed.of_goto
      have shows₁ := shows.keeps pushed.1 pushed.top_le
      refine (ihl shows₁ evalLeft (agrees.mono (by simp [Expr.parts]))).weaken
        fun m₂ delivered => ?_
      apply (pushed.popped delivered).weaken
      rintro m₃ ⟨popped, ebx⟩
      refine (resultCode_leads unique made (fun _ => ?_) (fun _ => ⟨popped.2.2, ebx⟩)
        divisor).weaken fun m₄ computed => popped.trans (by simp) computed
      rw [address, popped.2.2, ebx]

end Machine

end Asm

end Wordlang
