import Mathlib.Data.List.Nodup
import Wordlang.Proofs.Acceptance
import Wordlang.Proofs.Frames
import Wordlang.Proofs.Language
import Wordlang.Proofs.Uses
import Wordlang.Proofs.WellFormed

/-! # Frames are filled

The words of a function's variables, from the first parameter to the last array, are
the words below its saved registers one after the other: an array only lists its own
words backwards. So they are different, and together they are the bytes of the scope.
The start of the function moves the stack pointer below them, and its end moves it
back.
-/

namespace Wordlang

open Asm

/-- The address of a word, counted downward from the saved registers. -/
def wordAt (k : Nat) : Address := .based (-((k * wordSize + frameAfter : Nat) : Int)) .ebp

private theorem wordAt_injective : Function.Injective wordAt := by
  intro k l same
  have bytes := (Address.based.inj same).1
  simp only [wordSize] at bytes
  omega

/-- An address is one of the first so many words exactly when it is a multiple of four
    within their bytes. -/
theorem mem_map_wordAt {address : Address} {words : Nat} :
    address ∈ (List.range' 0 words).map wordAt ↔ ∃ disp : Int, address = .based disp .ebp ∧
      4 ∣ disp ∧ -12 - (words * wordSize : Nat) ≤ disp ∧ disp < -12 := by
  simp only [List.mem_map, List.mem_range'_1, wordAt, wordSize, frameAfter]
  constructor
  · rintro ⟨k, bounds, rfl⟩
    exact ⟨_, rfl, by omega, by omega, by omega⟩
  · rintro ⟨disp, rfl, aligned, low, high⟩
    obtain ⟨quotient, rfl⟩ := aligned
    refine ⟨(-quotient - 4).toNat, by omega, ?_⟩
    congr 1
    omega

theorem Symbol.addresses_perm {symbol : Symbol} {k : Nat} (offset : symbol.offset = k * wordSize)
    (small : symbol.length ≤ 2147483648) (scalar : symbol.isArray = false → symbol.length = 1) :
    symbol.addresses.Perm ((List.range' k symbol.length).map wordAt) := by
  unfold addresses
  split
  · have element : ∀ i ∈ List.range symbol.length,
        symbol.elementSlot (.ofNat 32 i) = wordAt (k + symbol.length - 1 - i) := by
      intro i mem
      have bound := List.mem_range.mp mem
      have value : (BitVec.ofNat 32 i).toInt = i := by
        rw [BitVec.toInt_eq_toNat_cond, BitVec.toNat_ofNat]
        omega
      simp only [elementSlot, wordAt, offset, value, wordSize]
      congr 1
      omega
    rw [List.map_congr_left element]
    have backwards : (List.range symbol.length).map (fun i => wordAt (k + symbol.length - 1 - i)) =
        ((List.range' k symbol.length).map wordAt).reverse := by
      rw [← List.map_reverse, List.reverse_range', List.map_map]
      rfl
    rw [backwards]
    exact List.reverse_perm _
  · next notArray =>
    rw [scalar (by simpa using notArray), List.range'_one, slot, offset]
    exact .refl _

namespace Typing

theorem size_eq (typing : Typing) :
    typing.size = (typing.map fun entry => entry.2.length).sum * wordSize := by
  induction typing with
  | nil => rfl
  | cons entry rest ih => simp only [size, List.map_cons, List.sum_cons, ih, Nat.add_mul]

/-- The words of variables that lie one behind the other are those from their common offset
    on. -/
theorem addresses_perm {typing : Typing} (small : ∀ entry ∈ typing, entry.2.length ≤ 2147483648)
    (k : Nat) : ((layoutFrom (k * wordSize) typing).flatMap fun entry => entry.2.addresses).Perm
      ((List.range' k (typing.map fun entry => entry.2.length).sum).map wordAt) := by
  induction typing generalizing k with
  | nil => exact .refl _
  | cons entry rest ih =>
      obtain ⟨name, type⟩ := entry
      obtain ⟨first, others⟩ := List.forall_mem_cons.mp small
      have scalar : Symbol.isArray ⟨type.symbolKind, k * wordSize, type.length⟩ = false →
          type.length = 1 := by
        cases type <;> simp [Symbol.isArray, Ty.symbolKind, Ty.length]
      have own : (Symbol.addresses ⟨type.symbolKind, k * wordSize, type.length⟩).Perm
          ((List.range' k type.length).map wordAt) := Symbol.addresses_perm rfl first scalar
      rw [layoutFrom, List.flatMap_cons, ← Nat.add_mul, List.map_cons, List.sum_cons,
        ← List.range'_append_1, List.map_append]
      exact own.append (ih others _)

end Typing

namespace Func

variable {program : Program} {func : Func}

theorem Checks.addresses_perm (checks : func.Checks program) (indexable : func.Indexable) :
    (func.addresses (func.lookup program)).Perm
      ((List.range' 0 (func.typing.map fun entry => entry.2.length).sum).map wordAt) := by
  have small : ∀ entry ∈ func.typing, entry.2.length ≤ 2147483648 := by
    rintro ⟨name, type⟩ mem
    cases type with
    | int | bool => exact Nat.one_le_iff_ne_zero.mpr (by decide)
    | intarray length => exact indexable name length mem
  have nodup : ((Typing.layoutFrom 0 func.typing).map (·.1)).Nodup := by
    rw [Typing.map_fst_layoutFrom]
    exact checks.distinct.names_nodup
  have listed : func.addresses (func.lookup program) =
      (Typing.layoutFrom 0 func.typing).flatMap fun entry => entry.2.addresses := by
    let place (name : String) := ((func.lookup program name).map Symbol.addresses).getD []
    have named : func.addresses (func.lookup program) =
        (func.typing.map (·.1)).flatMap place := by
      rw [List.flatMap_map]
      rfl
    rw [named, ← Typing.map_fst_layoutFrom 0, List.flatMap_map]
    refine List.flatMap_congr fun entry mem => ?_
    have found : func.typing.scope.find? entry.1 = some entry.2 :=
      (lookup_eq_some_iff_mem nodup).mpr mem
    simp [place, lookup, found]
  rw [listed]
  simpa using Typing.addresses_perm small 0

theorem Checks.nodup_addresses (checks : func.Checks program) (indexable : func.Indexable) :
    (func.addresses (func.lookup program)).Nodup :=
  (checks.addresses_perm indexable).nodup_iff.mpr
    (List.Nodup.map wordAt_injective List.nodup_range')

theorem Checks.mem_addresses (checks : func.Checks program) (indexable : func.Indexable)
    {address : Address} : address ∈ func.addresses (func.lookup program) ↔
      ∃ disp : Int, address = .based disp .ebp ∧ 4 ∣ disp ∧
        -12 - func.typing.size ≤ disp ∧ disp < -12 := by
  rw [(checks.addresses_perm indexable).mem_iff, mem_map_wordAt, Typing.size_eq]

end Func

namespace Asm

theorem argumentsCode_succ (params : Nat) :
    argumentsCode (params + 1) = argumentsCode params ++ [copyArgument params] := by
  rw [argumentsCode, List.range_succ, List.map_append]
  rfl

private theorem argumentsCode_prefix {k params : Nat} (le : k ≤ params) :
    argumentsCode k <+: argumentsCode params := by
  have first : (List.range params).take k = List.range k := by
    rw [List.take_range, Nat.min_eq_left le]
  exact (first ▸ List.take_prefix k (List.range params)).map copyArgument

def saves : Code :=
  [.instr (.push .plain (.reg .ebp)), .instr (.mov .plain (.reg .esp) (.reg .ebp)),
    .instr (.push .plain (.reg .ebx)), .instr (.push .plain (.reg .esi)),
    .instr (.push .plain (.reg .edi))]

namespace Machine

variable {m m' : Machine}

theorem perform?_append (first second : Code) :
    m.perform? (first ++ second) = (m.perform? first).bind fun next => next.perform? second := by
  induction first generalizing m with
  | nil => rfl
  | cons line rest ih =>
      cases line with
      | instr instr =>
          rw [List.cons_append, perform?, perform?]
          cases m.execute? instr with
          | none => rfl
          | some next => exact ih
      | _ => exact ih

private theorem line_of_write? {value : Word} {dest : Operand}
    (written : m.write? value dest = some m') :
    m'.line = m.line := by
  cases dest with
  | imm => cases written
  | reg | mem =>
      obtain rfl := Option.some.inj written
      rfl

theorem line_of_execute? {instr : Instr} (executed : m.execute? instr = some m') :
    m'.line = m.line := by
  cases instr with
  | jump | call | ret => cases executed
  | push | pop | leave | arith | cmp =>
      obtain ⟨value, -, changed⟩ := Option.bind_eq_some_iff.mp executed
      obtain rfl := Option.some.inj changed
      rfl
  | mov =>
      obtain ⟨value, -, written⟩ := Option.bind_eq_some_iff.mp executed
      exact line_of_write? written
  | idiv divisor =>
      simp only [execute?] at executed
      split at executed
      · cases executed
      · obtain rfl := Option.some.inj executed
        rfl
  | cmovl source dest =>
      obtain rfl := Option.some.inj executed
      split <;> rfl
  | _ =>
      obtain rfl := Option.some.inj executed
      rfl

theorem reaches_of_perform? {image : Image} {piece : Code} (placed : CodeAt image.code m.line piece)
    (performed : m.perform? piece = some m') :
    Reaches image m m' ∧ m'.line = m.line + piece.length := by
  induction piece generalizing m with
  | nil =>
      obtain rfl := Option.some.inj performed
      exact ⟨.refl, rfl⟩
  | cons line rest ih =>
      obtain ⟨at_, later⟩ := CodeAt.cons_iff.mp placed
      obtain ⟨next, step, lineNext, performed⟩ : ∃ next, m.step image = .goes next ∧
          next.line = m.line + 1 ∧ next.perform? rest = some m' := by
        cases line with
        | instr instr =>
            obtain ⟨next, executed, performed⟩ := Option.bind_eq_some_iff.mp performed
            exact ⟨next.next, step_instr at_ executed, congrArg (· + 1) (line_of_execute? executed),
              performed⟩
        | _ => exact ⟨m.next, by simp only [step, at_], rfl, performed⟩
      obtain ⟨reached, lines⟩ := ih (lineNext ▸ later) performed
      refine ⟨.head step reached, ?_⟩
      rw [lines, lineNext, List.length_cons]
      omega

/-- Between two machines only words were written. -/
def WritesWords (m m' : Machine) : Prop :=
  ∀ address, (m.load? address).isSome → (m'.load? address).isSome

theorem WritesWords.push (m : Machine) (value : Word) :
    WritesWords m (m.push (.word value)).next := by
  intro address word
  simp only [load?, memory_next, memory_push] at *
  by_cases top : address = m.regs .esp - 4
  · rw [if_pos top]
    rfl
  · rw [if_neg top]
    exact word

theorem WritesWords.trans {m₁ m₂ m₃ : Machine} (first : WritesWords m₁ m₂)
    (second : WritesWords m₂ m₃) : WritesWords m₁ m₃ :=
  fun address word => second address (first address word)

private theorem exists_perform?_silent {code : Code}
    (silent : ∀ line ∈ code, ∀ instr, line ≠ .instr instr)
    (m : Machine) : ∃ line, m.perform? code = some (m.goto line) := by
  induction code generalizing m with
  | nil => exact ⟨m.line, rfl⟩
  | cons line rest ih =>
      obtain ⟨first, later⟩ := List.forall_mem_cons.mp silent
      obtain ⟨last, performed⟩ := ih later m.next
      cases line with
      | instr instr => exact absurd rfl (first instr)
      | _ => exact ⟨last, performed⟩

private theorem note_silent (ctx : Context) (text : String) :
    ∀ line ∈ ctx.note text, ∀ instr, line ≠ .instr instr := by
  unfold Context.note
  split <;> simp

private theorem entryLabels_silent (name : String) :
    ∀ line ∈ entryLabels name, ∀ instr, line ≠ .instr instr := by
  unfold entryLabels
  split <;> simp

theorem load?_push (m : Machine) (value : Word) :
    (m.push (.word value)).next.load? (m.regs .esp - 4) = some value := by
  simp [load?]

theorem load?_push_of_ne {address : Word} {content : Content} (other : address ≠ m.regs .esp - 4) :
    (m.push content).next.load? address = m.load? address := by
  simp only [load?, memory_next, memory_push, if_neg other]

theorem exists_perform?_saves (m : Machine) : ∃ m', m.perform? saves = some m' ∧
    m'.regs .ebp = m.regs .esp - 4 ∧ m'.regs .esp = m'.regs .ebp - 12 ∧ WritesWords m m' ∧
    m'.load? (m'.regs .ebp - 4) = some (m.regs .ebx) ∧
    m'.load? (m'.regs .ebp - 8) = some (m.regs .esi) ∧
    m'.load? (m'.regs .ebp - 12) = some (m.regs .edi) := by
  let m₁ := (m.push (.word (m.regs .ebp))).next
  let m₂ := (m₁.setReg .ebp (m₁.regs .esp)).next
  let m₃ := (m₂.push (.word (m.regs .ebx))).next
  let m₄ := (m₃.push (.word (m.regs .esi))).next
  let m₅ := (m₄.push (.word (m.regs .edi))).next
  have performed : m.perform? saves = some m₅ := rfl
  have words : WritesWords m m₅ := (WritesWords.push m _).trans <| (WritesWords.push m₂ _).trans <|
    (WritesWords.push m₃ _).trans (WritesWords.push m₄ _)
  have base : m₅.regs .ebp = m.regs .esp - 4 := by simp [m₅, m₄, m₃, m₂, m₁]
  have top₂ : m₂.regs .esp - 4 = m₅.regs .ebp - 4 := by simp [m₅, m₄, m₃, m₂, m₁]
  have top₃ : m₃.regs .esp - 4 = m₅.regs .ebp - 8 := by
    have lower : m₃.regs .esp = m₂.regs .esp - 4 := by simp [m₃]
    rw [lower, top₂, BitVec.sub_sub]
    rfl
  have top₄ : m₄.regs .esp - 4 = m₅.regs .ebp - 12 := by
    have lower : m₄.regs .esp = m₃.regs .esp - 4 := by simp [m₄]
    rw [lower, top₃, BitVec.sub_sub]
    rfl
  have top₅ : m₅.regs .esp = m₄.regs .esp - 4 := by simp [m₅]
  refine ⟨m₅, performed, base, top₅.trans top₄, words, ?_, ?_, ?_⟩
  · rw [load?_push_of_ne (by rw [top₄]; bv_omega), load?_push_of_ne (by rw [top₃]; bv_omega),
      ← top₂, load?_push]
  · rw [load?_push_of_ne (by rw [top₄]; bv_omega), ← top₃, load?_push]
  · rw [← top₄, load?_push]

theorem exists_perform?_labels (ctx : Context) (text name : String) (m : Machine) :
    ∃ line, m.perform? (ctx.note text ++ entryLabels name) = some (m.goto line) :=
  exists_perform?_silent (fun line mem => (List.mem_append.mp mem).elim (note_silent ctx text line)
    (entryLabels_silent name line)) m

theorem HasArgs.load? {m₁ : Machine} {count k : Nat} (args : m.HasArgs count) (bound : k < count)
    (base : m₁.regs .ebp = m.regs .esp - 4) (words : WritesWords m m₁) : ∃ value,
    m₁.load? (m₁.address (.based (frameBefore + k * wordSize : Nat) .ebp)) = some value := by
  have place : m₁.address (.based (frameBefore + k * wordSize : Nat) .ebp) =
      m.regs .esp + .ofNat 32 (4 + 4 * k) := by
    have split_ : frameBefore + k * wordSize = 4 + (4 + 4 * k) := by
      simp only [frameBefore, wordSize]
      omega
    rw [address, base, BitVec.ofInt_natCast, split_, BitVec.ofNat_add, BitVec.add_comm,
      ← BitVec.add_assoc]
    exact congrArg (· + _) (BitVec.sub_add_cancel _ _)
  obtain ⟨value, loaded⟩ := args k bound
  rw [place]
  exact Option.isSome_iff_exists.mp (words _ (by rw [loaded]; rfl))

theorem perform?_copyArgument {k : Nat} {value : Word}
    (loaded : m.load? (m.address (.based (frameBefore + k * wordSize : Nat) .ebp)) = some value) :
    m.perform? [copyArgument k] = some (m.push (.word value)).next := by
  simp only [copyArgument, perform?, execute?, read?, loaded]
  rfl

/-- Behind the copies of some arguments the stack pointer is as many words below the saved
    registers. -/
theorem exists_perform?_arguments (ctx : Context) (text name : String) {params : Nat}
    (args : m.HasArgs params) : ∃ m',
    m.perform? (ctx.note text ++ entryLabels name ++ saves ++ argumentsCode params) = some m' ∧
      m'.regs .ebp = m.regs .esp - 4 ∧
      m'.regs .esp = m'.regs .ebp - 12 - .ofNat 32 (params * wordSize) ∧ WritesWords m m' := by
  induction params with
  | zero =>
      obtain ⟨line, quiet⟩ := exists_perform?_labels ctx text name m
      obtain ⟨m', performed, base, top, words, -⟩ := exists_perform?_saves (m.goto line)
      refine ⟨m', ?_, base, by simpa using top, words⟩
      rw [argumentsCode, List.range_zero, List.map_nil, List.append_nil, perform?_append, quiet,
        Option.bind_some, performed]
  | succ params ih =>
      have earlier : m.HasArgs params := fun k bound => args k (Nat.lt_succ_of_lt bound)
      obtain ⟨m₁, performed, base, top, words⟩ := ih earlier
      obtain ⟨value, loaded⟩ := args.load? (Nat.lt_succ_self params) base words
      refine ⟨(m₁.push (.word value)).next, ?_, ?_, ?_, words.trans (.push m₁ value)⟩
      · rw [argumentsCode_succ, ← List.append_assoc, perform?_append, performed, Option.bind_some,
          perform?_copyArgument loaded]
      · simp [base]
      · have lower : (m₁.push (.word value)).next.regs .esp = m₁.regs .esp - 4 := by simp
        have same : (m₁.push (.word value)).next.regs .ebp = m₁.regs .ebp := by simp
        rw [lower, same, top, Nat.succ_mul, BitVec.ofNat_add, ← BitVec.sub_sub]
        rfl

theorem exists_perform?_reserve (bytes : Nat) (m : Machine) : ∃ m',
    m.perform? (if bytes = 0 then [] else [.instr (.arith .sub (.imm bytes) .esp)]) = some m' ∧
      m'.regs .ebp = m.regs .ebp ∧ m'.regs .esp = m.regs .esp - .ofNat 32 bytes := by
  split
  · next none => exact ⟨m, rfl, rfl, by simp [none]⟩
  · refine ⟨_, rfl, rfl, ?_⟩
    rw [← BitVec.ofInt_natCast]
    rfl

theorem exists_perform?_release (bytes : Nat) (m : Machine) : ∃ m',
    m.perform? (release bytes) = some m' ∧ m'.regs .ebp = m.regs .ebp ∧
      m'.regs .esp = m.regs .esp + .ofNat 32 bytes := by
  unfold release
  split
  · next none => exact ⟨m, rfl, rfl, by simp [none]⟩
  · refine ⟨_, rfl, rfl, ?_⟩
    rw [← BitVec.ofInt_natCast]
    rfl

end Machine

/-- The start of a function, part by part. -/
theorem start_eq (ctx : Context) (func : Func) (size : Nat) : ∃ text, start ctx func size =
    ctx.note text ++ entryLabels func.name ++ saves ++ argumentsCode func.params.length ++
      if size - func.params.length * wordSize = 0 then []
      else [.instr (.arith .sub (.imm (size - func.params.length * wordSize : Nat)) .esp)] :=
  prologue_eq _ _ _ _

end Asm

namespace Func

variable {program : Program} {func : Func}

private theorem enters_of_params_le {size : Nat} (params_le : func.params.length * wordSize ≤ size)
    (ctx : Context) {m : Machine} (args : m.HasArgs func.params.length) : ∃ m',
    m.perform? (start ctx func size) = some m' ∧
      m'.regs .esp = m'.regs .ebp - 12 - .ofNat 32 size := by
  obtain ⟨text, parts⟩ := start_eq ctx func size
  obtain ⟨m₁, performed, base, top, -⟩ := Machine.exists_perform?_arguments ctx text func.name args
  obtain ⟨m₂, reserved, same, lower⟩ :=
    Machine.exists_perform?_reserve (size - func.params.length * wordSize) m₁
  refine ⟨m₂, ?_, ?_⟩
  · rw [parts, Machine.perform?_append, performed, Option.bind_some, reserved]
  · rw [lower, top, same, BitVec.sub_sub _ (.ofNat 32 _), ← BitVec.ofNat_add,
      Nat.add_sub_cancel' params_le]

/-- The argument of a parameter is copied to the word that the parameter has. -/
theorem Checks.copies (checks : func.Checks program) {ctx : Context}
    (named : ctx.lookup = func.lookup program) {k : Nat} {param : Param}
    (at_ : func.params[k]? = some param) (size : Nat) : ∃ symbol before after,
    ctx.lookup param.name = some symbol ∧
      start ctx func size = before ++ copyArgument k :: after ∧
      ∀ m : Machine, m.HasArgs (k + 1) → ∃ m₁ m₂ value, m.perform? before = some m₁ ∧
        m₁.load? (m₁.address (.based (frameBefore + k * wordSize : Nat) .ebp)) = some value ∧
        m₁.perform? [copyArgument k] = some m₂ ∧
        m₂.address symbol.slot = m₂.regs .esp ∧
        m₂.memory (m₂.address symbol.slot) = .word value := by
  obtain ⟨text, parts⟩ := start_eq ctx func size
  have bound : k < func.params.length := (List.getElem?_eq_some_iff.mp at_).1
  have copied : argumentsCode k ++ [copyArgument k] <+: argumentsCode func.params.length :=
    argumentsCode_succ k ▸ argumentsCode_prefix bound
  obtain ⟨after, whole⟩ : ctx.note text ++ entryLabels func.name ++ saves ++
      (argumentsCode k ++ [copyArgument k]) <+: start ctx func size := by
    rw [parts]
    exact ((List.prefix_append_right_inj _).mpr copied).trans (List.prefix_append _ _)
  refine ⟨_, ctx.note text ++ entryLabels func.name ++ saves ++ argumentsCode k, after,
    named ▸ (checks.lookup_param at_).2, by rw [← whole]; simp, fun m args => ?_⟩
  have earlier : m.HasArgs k := fun j below => args j (Nat.lt_succ_of_lt below)
  obtain ⟨m₁, performed, base, top, words⟩ :=
    Machine.exists_perform?_arguments ctx text func.name earlier
  obtain ⟨value, loaded⟩ := args.load? (Nat.lt_succ_self k) base words
  have slot : (m₁.push (.word value)).next.address
      (Symbol.slot ⟨param.type.symbolKind, k * wordSize, 1⟩) =
        (m₁.push (.word value)).next.regs .esp := by
    have lower : (m₁.push (.word value)).next.regs .esp = m₁.regs .esp - 4 := by simp
    have same : (m₁.push (.word value)).next.regs .ebp = m₁.regs .ebp := by simp
    rw [Symbol.slot, Machine.address_based_neg, lower, same, top, BitVec.sub_sub, BitVec.sub_sub,
      BitVec.add_comm 12, BitVec.add_assoc, BitVec.ofNat_add]
    rfl
  refine ⟨m₁, _, value, performed, loaded, Machine.perform?_copyArgument loaded, slot, ?_⟩
  rw [slot]
  simp

end Func

theorem Asm.Machine.address_elementSlot_ebx (m : Machine) {symbol : Symbol}
    (nonempty : 1 ≤ symbol.length) :
    m.address (symbol.elementSlot (m.regs .ebx)) = m.address symbol.indexedSlot := by
  have bytes : -(symbol.offset + ((symbol.length : Int) - 1 - (m.regs .ebx).toInt) * wordSize +
      frameAfter) = -((symbol.offset + (symbol.length - 1) * wordSize + frameAfter : Nat) : Int) +
        (m.regs .ebx).toInt * wordSize := by
    simp only [wordSize]
    omega
  have size : BitVec.ofInt 32 (wordSize : Int) = .ofNat 32 wordSize := BitVec.ofInt_natCast _ _
  rw [Symbol.elementSlot, Symbol.indexedSlot, address, address, bytes, BitVec.ofInt_add,
    BitVec.ofInt_mul, BitVec.ofInt_toInt, size, BitVec.add_assoc, BitVec.add_comm (_ * _),
    ← BitVec.add_assoc]

namespace Func

variable {program : Program} {func : Func}

private theorem lookup_of_mem_typing (nodup : (func.typing.map (·.1)).Nodup) {name : String}
    {type : Ty}
    (mem : (name, type) ∈ func.typing) : ∃ symbol, func.lookup program name = some symbol ∧
      symbol.kind = type.symbolKind ∧ symbol.length = type.length := by
  obtain ⟨before, after, _, _, found⟩ :=
    Typing.scope_find?_eq_some ((lookup_eq_some_iff_mem nodup).mpr mem)
  exact ⟨_, by rw [lookup, found]; rfl, rfl, rfl⟩

theorem Checks.array_nonempty (checks : func.Checks program) {name : String}
    (array : func.typing.Array name) : ∃ symbol, func.lookup program name = some symbol ∧
      symbol.isArray = true ∧ 1 ≤ symbol.length := by
  obtain ⟨length, mem⟩ := array
  obtain ⟨symbol, found, kind, words⟩ := lookup_of_mem_typing checks.distinct.names_nodup mem
  have nonempty : length ≠ 0 := by
    rintro rfl
    exact checks.distinct.nonempty _ mem rfl
  refine ⟨symbol, found, by simp [Symbol.isArray, kind, Ty.symbolKind], ?_⟩
  rw [words]
  exact Nat.one_le_iff_ne_zero.mpr nonempty

theorem Checks.uses_fit (funcs_nodup : (List.map Func.name program).Nodup)
    (checks : func.Checks program) : ∀ use ∈ func.uses, use.Fits (func.lookup program) := by
  have wellFormed := (checks_iff funcs_nodup).mp checks
  have scalars : ∀ name, func.typing.Scalar name →
      Use.Fits (func.lookup program) (.scalar name) :=
    fun name => (exists_scalar_iff funcs_nodup wellFormed.names_nodup).mpr
  have arrays : ∀ name index, func.typing.Array name →
      Use.Fits (func.lookup program) (.element name index) :=
    fun name _ array => checks.array_nonempty array
  exact List.forall_mem_append.mpr ⟨wellFormed.body.forall_uses scalars arrays,
    wellFormed.result.forall_uses scalars arrays⟩

/-- Where its names are known, a function has code, and between start and end that code
    only reaches variables. -/
theorem Checks.exists_bodyCode (checks : func.Checks program) {ctx : Context}
    (named : ctx.lookup = func.lookup program) (n : Nat) : ∃ middle n',
    (bodyCode ctx func func.typing.size).run n =
      .ok (start ctx func func.typing.size ++ middle ++ epilogue ctx func.typing.size, n') ∧
    middle.Reaches ctx func.uses := by
  obtain ⟨code, n', made⟩ := bodyCode_succeeds func.typing.size
    (named ▸ Func.resolves_of_check checks.names) n
  have run := made
  simp only [bodyCode, Gen.makes_bind, Gen.makes_pure] at made
  obtain ⟨body, _, madeBody, result, n', madeResult, rfl, rfl⟩ := made
  have whole : func.params.length * wordSize +
      (func.typing.size - func.params.length * wordSize) = func.typing.size :=
    Nat.add_sub_cancel' checks.params_le
  rw [whole] at run
  refine ⟨body ++ ctx.note "return" ++ result, n', ?_, ?_⟩
  · simpa [start, Gen.Makes] using run
  · have reached := (stmtsCode_makes madeBody).reaches.append (exprCode_makes madeResult).reaches
    exact reached.of_addresses_eq (by simp)

private theorem saves_of_start (ctx : Context) (func : Func) (size : Nat) : ∃ before after,
    start ctx func size = before ++ after ∧ ∀ m : Machine, ∃ m', m.perform? before = some m' ∧
      m'.regs .esp = m'.regs .ebp - 12 ∧
      m'.load? (m'.regs .ebp - 4) = some (m.regs .ebx) ∧
      m'.load? (m'.regs .ebp - 8) = some (m.regs .esi) ∧
      m'.load? (m'.regs .ebp - 12) = some (m.regs .edi) := by
  obtain ⟨text, parts⟩ := start_eq ctx func size
  rw [List.append_assoc] at parts
  refine ⟨_, _, parts, fun m => ?_⟩
  obtain ⟨line, quiet⟩ := Machine.exists_perform?_labels ctx text func.name m
  obtain ⟨m', performed, -, top, -, saved⟩ := Machine.exists_perform?_saves (m.goto line)
  refine ⟨m', ?_, top, saved⟩
  rw [Machine.perform?_append, quiet, Option.bind_some, performed]

/-- A checked function lays its variables out in its frame. -/
theorem Checks.layout (funcs_nodup : (List.map Func.name program).Nodup)
    (checks : func.Checks program) {ctx : Context} (named : ctx.lookup = func.lookup program) :
    func.Layout ctx func.typing.size where
  nodup indexable := named ▸ checks.nodup_addresses indexable
  fill indexable address := named ▸ checks.mem_addresses indexable
  params_le := checks.params_le
  saves := saves_of_start ctx func _
  enters m args := enters_of_params_le checks.params_le ctx args
  copies k param at_ := checks.copies named at_ _
  leaves m top := by
    obtain ⟨m', performed, base, raised⟩ := Machine.exists_perform?_release func.typing.size m
    exact ⟨m', performed, base, by rw [raised, top, BitVec.sub_add_cancel]⟩
  code := checks.exists_bodyCode named
  uses := named ▸ checks.uses_fit funcs_nodup
  indexed name symbol found isArray m index held := by
    rw [named] at found
    have array := (exists_array_iff funcs_nodup checks.distinct.names_nodup).mp
      ⟨symbol, found, isArray⟩
    obtain ⟨other, again, -, nonempty⟩ := checks.array_nonempty array
    obtain rfl := Option.some.inj (found.symm.trans again)
    rw [← held]
    exact m.address_elementSlot_ebx nonempty

end Func

theorem Func.Loose.num_mem {func : Func} {kinds : List Token.Kind} (loose : func.Loose kinds)
    {name : String} {length : Nat} (mem : (name, Ty.intarray length) ∈ func.typing) :
    .num length ∈ kinds := by
  obtain ⟨params, decls, -, -⟩ := loose
  obtain isParam | isDecl := List.mem_append.mp mem
  · obtain ⟨param, declared, same⟩ := List.mem_map.mp isParam
    obtain ⟨rfl, isArray⟩ := Prod.mk.inj same
    obtain ⟨own, rfl, inside⟩ := params.exists_of_mem declared
    have own : .num length ∈ Spelling.param param := by
      simp [Spelling.param, isArray, Spelling.type]
    simp [inside own]
  · obtain ⟨decl, declared, isName⟩ := List.mem_flatMap.mp isDecl
    obtain ⟨_, _, same⟩ := List.mem_map.mp isName
    obtain ⟨rfl, isArray⟩ := Prod.mk.inj same
    obtain ⟨own, ⟨names, -, rfl⟩, inside⟩ := decls.exists_of_mem declared
    have own : .num length ∈ Spelling.type decl.type := by simp [isArray, Spelling.type]
    have inDecls := inside (List.mem_append_left _ (List.mem_append_right _
      (List.mem_cons_of_mem _ own)))
    simp [inDecls]

private theorem indexable_of_readProgram {text : String} {program : Program}
    (read : (readProgram text).result = .ok program) {func : Func} (mem : func ∈ program) :
    func.Indexable := by
  obtain ⟨parser, ran⟩ := readProgram_eq_ok.mp read
  obtain ⟨items, scans⟩ := (Cursor.start text).exists_scans
  obtain ⟨own, line, rfl, loose⟩ := Parser.items_of_program scans ran
  obtain ⟨kinds, spelled, inside⟩ := loose.exists_of_mem mem
  intro name length declared
  have written : (Token.Kind.num length).Writable :=
    scans.writable_of_append _ (inside (spelled.num_mem declared))
  have bound := (Token.Kind.writable_num length).mp written
  unfold Lexeme.maxNumber at bound
  omega

theorem Func.Checks.withScope {program : Program} {func : Func} (checks : func.Checks program)
    (scope : Option Nat) : Func.Checks program { func with scope } :=
  ⟨checks.params_scalar, ⟨checks.distinct.names_nodup, checks.distinct.nonempty⟩, checks.names⟩

/-- Every function of a checked program lays its variables out in its frame. Where the
    program is read from a text, all elements of its arrays have indices. -/
theorem Program.layout_of_check {program checked : Program} {checker : Checker}
    (passed : program.check = .ok checked checker) {func : Func} (mem : func ∈ checked) :
    (∃ scope, func.scope = some scope ∧ ∀ options facts,
      func.Layout (.ofScope options facts checker.table scope) (checker.table.scopeSize scope)) ∧
      ∀ text, (readProgram text).result = .ok program → func.Indexable := by
  obtain ⟨nodup, rfl, table, checks⟩ := check_eq_ok passed
  obtain ⟨original, inProgram, scope, rfl, named, size⟩ := mem_withScopes mem
  constructor
  · refine ⟨scope, rfl, fun options facts => ?_⟩
    rw [table, size]
    exact ((checks original inProgram).withScope (some scope)).layout nodup named
  · exact fun text read name length => indexable_of_readProgram read inProgram name length

def pairText : String :=
  "function f(n: int): int \x7b var a: intarray[2]; a[n] = n; return a[0]; \x7d"

/-- The three words of the function are different, and the lowest one is not below the
    stack pointer. -/
theorem pair_layout : ∃ program checked checker func scope,
    (readProgram pairText).result = .ok program ∧ program.check = .ok checked checker ∧
      func ∈ checked ∧ func.scope = some scope ∧ checker.table.scopeSize scope = 12 ∧
        (func.addresses (checker.table.lookup scope)).Nodup ∧
          .based (-24) .ebp ∈ func.addresses (checker.table.lookup scope) := by
  obtain ⟨program, read, accepted⟩ := exists_ok_of_any (x := (readProgram pairText).result)
    (p := fun program => (checkProgram program).result.toOption.any fun made =>
      made.1.any fun func => func.scope.any fun scope => made.2.scopeSize scope == 12)
    (by decide +kernel)
  obtain ⟨⟨checked, table⟩, made, known⟩ := exists_ok_of_any accepted
  obtain ⟨checker, passed, rfl⟩ := checkProgram_eq_ok.mp made
  obtain ⟨func, mem, known⟩ := List.any_eq_true.mp known
  obtain ⟨⟨scope, own, layout⟩, indexable⟩ := program.layout_of_check passed mem
  rw [own, Option.any_some, beq_iff_eq] at known
  have words := layout {} .empty
  rw [known] at words
  exact ⟨program, checked, checker, func, scope, read, passed, mem, own, known,
    words.nodup (indexable _ read), (words.fill (indexable _ read) _).mpr
      ⟨-24, rfl, by decide, by decide, by decide⟩⟩

end Wordlang
