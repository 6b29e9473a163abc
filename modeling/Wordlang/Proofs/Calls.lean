import Mathlib.Algebra.Order.Ring.Nat
import Wordlang.Proofs.Frames

/-! # Functions in place

What a function does around its body: it saves the registers of its caller,
copies its arguments into its frame, and gives all of that back in the end. If
its body turns one store into another, then from label to return it leaves the
value of its result in `%eax` and everything else of its caller as it was.
-/

namespace Wordlang.Asm

namespace Machine

/-- The arguments of a call lie above the return address, on top of the stack. -/
structure Passed (m : Machine) (args : List Word) : Prop where
  room : m.top + 4 + 4 * args.length ≤ 2 ^ 32
  holds : ∀ {k value}, args[k]? = some value →
    m.memory (m.regs .esp + .ofNat 32 (4 + 4 * k)) = .word value

/-- A value is in `%eax`, and everything else of the caller is as it was. -/
structure Returned (m : Machine) (value : Word) (m' : Machine) : Prop where
  value : m'.regs .eax = value
  regs : ∀ reg, reg ≠ .eax → m'.regs reg = m.regs reg
  memory : ∀ address : Word, m.top ≤ address.toNat → m'.memory address = m.memory address

/-- The registers of the caller are saved below its stack, and the frame pointer shows
    where. -/
structure Saved (m m' : Machine) : Prop where
  room : 16 ≤ m.top
  base : m'.regs .ebp = m.regs .esp - .ofNat 32 4
  ebp : m'.memory (m.regs .esp - .ofNat 32 4) = .word (m.regs .ebp)
  ebx : m'.memory (m.regs .esp - .ofNat 32 8) = .word (m.regs .ebx)
  esi : m'.memory (m.regs .esp - .ofNat 32 12) = .word (m.regs .esi)
  edi : m'.memory (m.regs .esp - .ofNat 32 16) = .word (m.regs .edi)
  memory : ∀ address : Word, m.top ≤ address.toNat → m'.memory address = m.memory address

theorem toNat_esp_sub {m : Machine} (bytes : Nat) (room : bytes ≤ m.top) :
    (m.regs .esp - .ofNat 32 bytes).toNat + bytes = m.top := by
  unfold top at *
  have := (m.regs .esp).isLt
  rw [BitVec.toNat_sub, BitVec.toNat_ofNat]
  omega

theorem esp_sub_ne {m : Machine} {a b : Nat} (roomA : a ≤ m.top) (roomB : b ≤ m.top)
    (different : a ≠ b) : m.regs .esp - .ofNat 32 a ≠ m.regs .esp - .ofNat 32 b := by
  intro same
  have atA := toNat_esp_sub _ roomA
  have atB := toNat_esp_sub _ roomB
  rw [same] at atA
  omega

theorem Leads.pushBelow {image : Image} {m m₁ : Machine} {post : Machine → Prop} (depth : Nat)
    {width : Width} {source : Operand} (value : Word) (room : depth ≤ m.top)
    (esp : m₁.regs .esp = m.regs .esp - .ofNat 32 depth) (read : m₁.read? source = some value)
    (h : depth + 4 ≤ m.top → ∀ next : Machine,
      next.regs .esp = m.regs .esp - .ofNat 32 (depth + 4) →
      (∀ reg, reg ≠ .esp → next.regs reg = m₁.regs reg) →
      (∀ address, next.memory address = if address = m.regs .esp - .ofNat 32 (depth + 4)
        then .word value else m₁.memory address) → post next) :
    Leads image [.instr (.push width source)] m₁ post := by
  refine .push read fun room₁ => h ?_ _ ?_ ?_ ?_
  · have := toNat_esp_sub _ room
    unfold top at room₁
    rw [esp] at room₁
    omega
  · rw [regs_next, regs_push, if_pos rfl, esp, BitVec.sub_sub, BitVec.ofNat_add]
    rfl
  · intro reg other
    rw [regs_next, regs_push, if_neg other]
  · intro address
    rw [memory_next, memory_push, esp, BitVec.sub_sub, BitVec.ofNat_add]
    rfl

theorem Saved.toNat_base {m m' : Machine} (saved : Saved m m') :
    (m'.regs .ebp).toNat + 4 = m.top := by
  have room := saved.room
  rw [saved.base]
  exact toNat_esp_sub _ (by omega)

theorem Saved.keeps {m m₁ m₂ : Machine} (saved : Saved m m₁) (base : m₂.regs .ebp = m₁.regs .ebp)
    (memory : ∀ address : Word, (m₁.regs .ebp).toNat ≤ address.toNat + 12 →
      m₂.memory address = m₁.memory address) : Saved m m₂ := by
  have room := saved.room
  have toNat := saved.toNat_base
  have kept : ∀ bytes ≤ 16, m₂.memory (m.regs .esp - .ofNat 32 bytes) =
      m₁.memory (m.regs .esp - .ofNat 32 bytes) := by
    intro bytes bound
    have := toNat_esp_sub (m := m) bytes (by omega)
    exact memory _ (by omega)
  exact ⟨room, base.trans saved.base, (kept 4 (by omega)).trans saved.ebp,
    (kept 8 (by omega)).trans saved.ebx, (kept 12 (by omega)).trans saved.esi,
    (kept 16 (by omega)).trans saved.edi,
    fun address above => (memory address (by omega)).trans (saved.memory address above)⟩

theorem Saved.stays {m m₁ m₂ : Machine} (saved : Saved m m₁) (stays : Stays m₁ m₂) : Saved m m₂ :=
  saved.keeps stays.ebp stays.memory

section Frame

variable {image : Image} {m : Machine}

private theorem saves_leads : Leads image [.instr (.push .plain (.reg .ebp)),
    .instr (.mov .plain (.reg .esp) (.reg .ebp)), .instr (.push .plain (.reg .ebx)),
    .instr (.push .plain (.reg .esi)), .instr (.push .plain (.reg .edi))] m fun m' =>
      Saved m m' ∧ m'.regs .esp = m.regs .esp - .ofNat 32 16 := by
  refine .cons (.pushBelow (m := m) 0 (m.regs .ebp) (Nat.zero_le _) (by simp)
    rfl fun room₁ m₁ esp₁ regs₁ memory₁ => ?_)
  refine .cons (.instr rfl rfl fun m₂ regs₂ memory₂ _ => ?_)
  have esp₂ : m₂.regs .esp = m.regs .esp - .ofNat 32 4 := by simp [regs₂, esp₁]
  have ebp₂ : m₂.regs .ebp = m.regs .esp - .ofNat 32 4 := by simp [regs₂, esp₁]
  have others₂ : ∀ reg, reg ≠ .esp → reg ≠ .ebp → m₂.regs reg = m.regs reg := by
    intro reg notEsp notEbp
    simp [regs₂, notEbp, regs₁ reg notEsp]
  refine .cons (.pushBelow _ (m.regs .ebx) room₁ esp₂
    (congrArg some (others₂ _ (by simp) (by simp))) fun room₃ m₃ esp₃ regs₃ memory₃ => ?_)
  refine .cons (.pushBelow _ (m.regs .esi) room₃ esp₃
    (congrArg some ((regs₃ _ (by simp)).trans (others₂ _ (by simp) (by simp))))
    fun room₄ m₄ esp₄ regs₄ memory₄ => ?_)
  refine .pushBelow _ (m.regs .edi) room₄ esp₄
    (congrArg some ((regs₄ _ (by simp)).trans ((regs₃ _ (by simp)).trans
      (others₂ _ (by simp) (by simp))))) fun room₅ m₅ esp₅ regs₅ memory₅ => ?_
  have memory : ∀ address, m₅.memory address =
      if address = m.regs .esp - .ofNat 32 16 then .word (m.regs .edi)
      else if address = m.regs .esp - .ofNat 32 12 then .word (m.regs .esi)
      else if address = m.regs .esp - .ofNat 32 8 then .word (m.regs .ebx)
      else if address = m.regs .esp - .ofNat 32 4 then .word (m.regs .ebp)
      else m.memory address := by
    intro address
    rw [memory₅, memory₄, memory₃, memory₂, memory_setReg, memory₁]
  have base : m₅.regs .ebp = m.regs .esp - .ofNat 32 4 := by
    rw [regs₅ _ (by simp), regs₄ _ (by simp), regs₃ _ (by simp), ebp₂]
  refine ⟨⟨room₅, base, ?_, ?_, ?_, ?_, fun address above => ?_⟩, esp₅⟩
  · rw [memory, if_neg (esp_sub_ne (a := 4) (by omega) (by omega) (by omega)),
      if_neg (esp_sub_ne (a := 4) (by omega) (by omega) (by omega)),
      if_neg (esp_sub_ne (a := 4) (by omega) (by omega) (by omega)), if_pos rfl]
  · rw [memory, if_neg (esp_sub_ne (a := 8) (by omega) (by omega) (by omega)),
      if_neg (esp_sub_ne (a := 8) (by omega) (by omega) (by omega)), if_pos rfl]
  · rw [memory, if_neg (esp_sub_ne (a := 12) (by omega) (by omega) (by omega)), if_pos rfl]
  · rw [memory, if_pos rfl]
  · have apart : ∀ bytes, 0 < bytes → bytes ≤ 16 → address ≠ m.regs .esp - .ofNat 32 bytes := by
      rintro bytes positive bound rfl
      have := toNat_esp_sub (m := m) bytes (by omega)
      omega
    rw [memory, if_neg (apart 16 (by omega) (by omega)), if_neg (apart 12 (by omega) (by omega)),
      if_neg (apart 8 (by omega) (by omega)), if_neg (apart 4 (by omega) (by omega))]

/-- Above the frame, everything is kept by writing below it. -/
theorem Saved.below {m₁ m₂ : Machine} (saved : Saved m m₁) {depth : Nat} {content : Content}
    (room : depth ≤ m.top) (deep : 16 < depth)
    (regs : ∀ reg, reg ≠ .esp → m₂.regs reg = m₁.regs reg)
    (memory : ∀ address, m₂.memory address =
      if address = m.regs .esp - .ofNat 32 depth then content else m₁.memory address) :
    Saved m m₂ := by
  refine saved.keeps (regs _ (by simp)) fun address above => ?_
  have base := saved.toNat_base
  have apart : address ≠ m.regs .esp - .ofNat 32 depth := by
    rintro rfl
    have := toNat_esp_sub _ room
    omega
  rw [memory, if_neg apart]

theorem Passed.read? {m₁ : Machine} {args : List Word} (passed : Passed m args)
    (saved : Saved m m₁) {k : Nat} {value : Word} (h : args[k]? = some value) :
    m₁.read? (.mem (.based (frameBefore + k * wordSize : Nat) .ebp)) = some value := by
  have bound : k < args.length := (List.getElem?_eq_some_iff.mp h).1
  have room := passed.room
  have address : m₁.address (.based (frameBefore + k * wordSize : Nat) .ebp) =
      m.regs .esp + .ofNat 32 (4 + 4 * k) := by
    have split_ : frameBefore + k * wordSize = 4 + (4 + 4 * k) := by
      simp only [frameBefore, wordSize]
      omega
    rw [Machine.address, saved.base, BitVec.ofInt_natCast, split_, BitVec.ofNat_add,
      BitVec.add_comm,
      ← BitVec.add_assoc, BitVec.sub_add_cancel]
  have above : m.top ≤ (m.regs .esp + .ofNat 32 (4 + 4 * k)).toNat := by
    unfold top at *
    rw [BitVec.toNat_add, BitVec.toNat_ofNat]
    omega
  simp only [Machine.read?, load?, address, saved.memory _ above, passed.holds h]

private theorem arguments_leads {m₁ : Machine} {args : List Word} (passed : Passed m args)
    (saved : Saved m m₁) (esp : m₁.regs .esp = m.regs .esp - .ofNat 32 16) {params : Nat}
    (enough : params ≤ args.length) :
    Leads image (argumentsCode params) m₁ fun m₂ => Saved m m₂ ∧ 16 + 4 * params ≤ m.top ∧
      m₂.regs .esp = m.regs .esp - .ofNat 32 (16 + 4 * params) ∧
      ∀ k value, k < params → args[k]? = some value →
        m₂.memory (m.regs .esp - .ofNat 32 (20 + 4 * k)) = .word value := by
  induction params with
  | zero => exact .nil ⟨saved, saved.room, esp, fun k _ bound => absurd bound (Nat.not_lt_zero k)⟩
  | succ params ih =>
      have one_more : argumentsCode (params + 1) = argumentsCode params ++
          [.instr (.push .long (.mem (.based (frameBefore + params * wordSize : Nat) .ebp)))] := by
        rw [argumentsCode, List.range_succ, List.map_append]
        rfl
      rw [one_more]
      apply Leads.append
      apply (ih (by omega)).weaken
      rintro m₂ ⟨saved₂, room₂, esp₂, copied⟩
      have argument : args[params]? = some args[params] := List.getElem?_eq_getElem enough
      refine .pushBelow _ _ room₂ esp₂ (passed.read? saved₂ argument)
        fun room₃ m₃ esp₃ regs₃ memory₃ => ?_
      refine ⟨saved₂.below room₃ (by omega) regs₃ memory₃, by omega, esp₃,
        fun k value bound h => ?_⟩
      rw [memory₃]
      obtain last | earlier := Nat.eq_or_lt_of_le (Nat.le_of_lt_succ bound)
      · subst last
        rw [h] at argument
        rw [if_pos (by congr 2; omega), ← Option.some.inj argument]
      · rw [if_neg (esp_sub_ne (by omega) room₃ (by omega)), copied k value earlier h]

theorem release_leads (bytes : Nat) : Leads image (release bytes) m fun m' =>
    (∀ reg, reg ≠ .esp → m'.regs reg = m.regs reg) ∧
      m'.regs .esp = m.regs .esp + .ofNat 32 bytes ∧ m'.memory = m.memory := by
  unfold release
  split
  · next zero => exact .nil ⟨fun _ _ => rfl, by simp [zero], rfl⟩
  · refine .instr rfl rfl fun m' regs memory _ => ⟨fun reg other => ?_, ?_, memory⟩
    · rw [regs]
      exact if_neg other
    · rw [regs, ← BitVec.ofInt_natCast]
      rfl

private theorem locals_leads {m₁ : Machine} (saved : Saved m m₁) {depth : Nat}
    (room : depth ≤ m.top)
    (esp : m₁.regs .esp = m.regs .esp - .ofNat 32 depth) (bytes : Nat) :
    Leads image (if bytes = 0 then [] else [.instr (.arith .sub (.imm bytes) .esp)]) m₁ fun m₂ =>
      Saved m m₂ ∧ m₂.top + depth + bytes = m.top ∧ m₂.memory = m₁.memory ∧
        m₂.regs .ebp = m₁.regs .ebp := by
  have top₁ : m₁.top + depth = m.top := by
    rw [top, esp]
    exact toNat_esp_sub _ room
  split
  · next zero => exact .nil ⟨saved, by omega, rfl, rfl⟩
  · refine .reserve fun enough m₂ regs memory => ?_
    have ebp : m₂.regs .ebp = m₁.regs .ebp := by simp [regs]
    refine ⟨saved.keeps ebp fun address _ => by rw [memory], ?_, memory, ebp⟩
    have lowered := toNat_esp_sub _ enough
    have esp₂ : m₂.regs .esp = m₁.regs .esp - .ofNat 32 bytes := by simp [regs]
    have top₂ : m₂.top + bytes = m₁.top := by
      rw [top, esp₂]
      exact lowered
    omega

private theorem restores_leads {m₁ : Machine} (saved : Saved m m₁)
    (esp : m₁.regs .esp = m.regs .esp - .ofNat 32 16) :
    Leads image [.instr (.pop .edi), .instr (.pop .esi), .instr (.pop .ebx), .instr .leave] m₁
      (Returned m (m₁.regs .eax)) := by
  have back : ∀ a b : Nat,
      m.regs .esp - .ofNat 32 (a + b) + .ofNat 32 b = m.regs .esp - .ofNat 32 a := by
    intro a b
    rw [BitVec.ofNat_add, ← BitVec.sub_sub, BitVec.sub_add_cancel]
  refine .cons (.pop (by rw [esp]; exact saved.edi) fun m₂ regs₂ memory₂ => ?_)
  have esp₂ : m₂.regs .esp = m.regs .esp - .ofNat 32 12 := by
    rw [regs₂, regs_setReg, if_neg (by simp), regs_drop, if_pos rfl, esp]
    exact back 12 4
  refine .cons (.pop (by rw [esp₂, memory₂]; exact saved.esi) fun m₃ regs₃ memory₃ => ?_)
  have esp₃ : m₃.regs .esp = m.regs .esp - .ofNat 32 8 := by
    rw [regs₃, regs_setReg, if_neg (by simp), regs_drop, if_pos rfl, esp₂]
    exact back 8 4
  refine .cons (.pop (by rw [esp₃, memory₃, memory₂]; exact saved.ebx) fun m₄ regs₄ memory₄ => ?_)
  have ebp₄ : m₄.regs .ebp = m.regs .esp - .ofNat 32 4 := by
    simp [regs₄, regs₃, regs₂, saved.base]
  have memory₄ : m₄.memory = m₁.memory := by rw [memory₄, memory₃, memory₂]
  have left : m₄.execute? .leave =
      some (((m₄.setReg .esp (m₄.regs .ebp)).drop).setReg .ebp (m.regs .ebp)) := by
    simp only [execute?, pop?, load?, regs_setReg, if_pos, memory_setReg, ebp₄, memory₄, saved.ebp]
    rfl
  refine .instr left rfl fun m₅ regs₅ memory₅ _ =>
    ⟨?_, fun reg notEax => ?_, fun address above => ?_⟩
  · simp [regs₅, regs₄, regs₃, regs₂]
  · cases reg with
    | eax => exact absurd rfl notEax
    | esp =>
        rw [regs₅, regs_setReg, if_neg (by simp), regs_drop, if_pos rfl, regs_setReg, if_pos rfl,
          ebp₄]
        exact BitVec.sub_add_cancel _ _
    | ebp | ebx | esi | edi => simp [regs₅, regs₄, regs₃, regs₂]
  · rw [memory₅, memory_setReg, memory_drop, memory_setReg, memory₄, saved.memory address above]

/-- When the machine is ready for the body of a function, it shows the store in which the
    function starts. -/
theorem Runs.start {program : Program} {func : Func} {args : List Word}
    (checks : func.Checks program) {m₁ : Machine} (saved : Saved m m₁)
    (room : m₁.top + 16 + func.typing.size = m.top)
    (copied : ∀ k value, k < func.params.length → args[k]? = some value →
      m₁.memory (m.regs .esp - .ofNat 32 (20 + 4 * k)) = .word value) :
    Runs (func.lookup program) func.typing.size (func.entryStore args) m₁ := by
  have base := saved.toNat_base
  refine ⟨checks.lengths_entryStore args ▸ func.frame program, by omega, fun name cell found => ?_⟩
  have known : func.typing.lengths name = some cell.length := by
    rw [← checks.lengths_entryStore args, Store.lengths, found, Option.map_some]
  obtain ⟨symbol, named, length, inside⟩ := (func.frame program).inside known
  refine ⟨symbol, named, length, fun i value item => ?_⟩
  obtain ⟨k, kind, argument, isParam, rfl, again⟩ := checks.item?_entryStore found item
  obtain rfl := Option.some.inj (named.symm.trans again)
  have slot : m₁.slotOf { kind, offset := k * wordSize, length := 1 } 0 =
      m.regs .esp - .ofNat 32 (20 + 4 * k) := by
    have depth : Symbol.depth { kind, offset := k * wordSize, length := 1 } 0 = 16 + 4 * k := by
      simp only [Symbol.depth, wordSize, frameAfter]
      omega
    rw [slotOf, depth, saved.base, BitVec.sub_sub, ← BitVec.ofNat_add]
    congr 2
    omega
  have params := checks.params_le
  simp only [wordSize] at params
  rw [slot, copied k value isParam argument]
  refine ⟨?_, rfl⟩
  have := toNat_esp_sub (m := m) (20 + 4 * k) (by omega)
  omega

end Frame

end Machine

open Machine in
/-- A function whose body turns the store of its start into another one leaves the value
    that its result has there. -/
theorem FuncCode.leads {ctx : Context} {func : Func} {n : Nat} {inner : Code} {n' : Nat}
    (shape : FuncCode ctx func func.typing.size n inner n') {image : Image}
    (unique : (Code.labels image.code).Nodup) {program : Program} (checks : func.Checks program)
    (named : ctx.lookup = func.lookup program) {args : List Word} {last : Store} {value : Word}
    (arity : func.params.length = args.length) {m : Machine} (passed : Passed m args)
    (evaluated : func.result.eval? last = some value) (agrees : ctx.Agrees last func.result)
    (body : ∀ {n piece n' m}, StmtsCode ctx func.body n piece n' →
      Runs ctx.lookup func.typing.size (func.entryStore args) m →
      Leads image piece m fun m' => Runs ctx.lookup func.typing.size last m' ∧ Stays m m') :
    Leads image inner m (Returned m value) := by
  obtain ⟨bodyShape, resultShape⟩ := shape
  have params := checks.params_le
  refine .append (.append (.append (.append (.append (.append (.append (.append ?_)))))))
  apply saves_leads.weaken
  rintro m₁ ⟨saved₁, esp₁⟩
  apply (arguments_leads passed saved₁ esp₁ (Nat.le_of_eq arity)).weaken
  rintro m₂ ⟨saved₂, room₂, esp₂, copied⟩
  apply (locals_leads saved₂ room₂ esp₂ _).weaken
  rintro m₃ ⟨saved₃, room₃, memory₃, _⟩
  have runs₃ : Runs ctx.lookup func.typing.size (func.entryStore args) m₃ := by
    rw [named]
    refine .start checks saved₃ ?_ fun k value isParam argument => ?_
    · simp only [wordSize] at params room₃
      omega
    · rw [memory₃, copied k value isParam argument]
  apply (body bodyShape runs₃).weaken
  rintro m₄ ⟨runs₄, stays₄⟩
  apply Leads.note
  intro line₄
  have shows₄ : (m₄.goto line₄).Shows ctx.lookup last := runs₄.shows
  refine (exprCode_leads unique resultShape shows₄ evaluated agrees).weaken
    fun m₅ delivered => .note fun line₅ => ?_
  obtain ⟨runs₅, stays₅⟩ := runs₄.keeps delivered.of_goto.1 delivered.2.1
  have saved₅ := (saved₃.stays stays₄).stays stays₅
  apply (release_leads (m := m₅.goto line₅) _).weaken
  rintro m₆ ⟨regs₆, esp₆, memory₆⟩
  have saved₆ : Saved m m₆ := saved₅.keeps (regs₆ _ (by simp)) fun _ _ => by rw [memory₆]; rfl
  have released : m₆.regs .esp = m.regs .esp - .ofNat 32 16 := by
    have base := saved₅.toNat_base
    have room := runs₅.room
    have target := toNat_esp_sub _ saved₅.room
    have bytes : func.params.length * wordSize +
        (func.typing.size - func.params.length * wordSize) = func.typing.size := by omega
    refine BitVec.eq_of_toNat_eq ?_
    unfold top at *
    rw [esp₆, bytes, regs_goto, BitVec.toNat_add, BitVec.toNat_ofNat]
    omega
  refine (restores_leads saved₆ released).weaken fun m₇ returned => ?_
  have eax : m₆.regs .eax = value := (regs₆ _ (by simp)).trans delivered.2.2
  exact eax ▸ returned

end Wordlang.Asm
