import Wordlang.Proofs.Discipline
import Wordlang.Proofs.Jumps

/-! # Code in other places

What some lines do on their own they do wherever they stand, as long as they neither call a
function nor end one and no line behind them defines one of their labels. On their own, the
depths of the lines tell how much of the stack they need.
-/

namespace Wordlang.Asm

/-- The line neither calls a function nor ends one. -/
@[simp] def Line.isLocal : Line → Bool
  | .instr (.call _) => false
  | .instr .leave => false
  | .instr .ret => false
  | _ => true

def Local (piece : Code) : Prop := piece.all Line.isLocal = true

@[simp] theorem local_append (first second : Code) :
    Local (first ++ second) ↔ Local first ∧ Local second := by
  rw [Local, List.all_append, Bool.and_eq_true, Local, Local]

theorem Plain.isLocal {piece : Code} (plain : Plain piece) : Local piece := by
  refine List.all_eq_true.mpr fun line mem => ?_
  have plain := List.all_eq_true.mp plain line mem
  cases line with
  | instr op =>
      cases op with
      | call | leave | ret => simp at plain
      | _ => rfl
  | _ => rfl

private theorem binaryCode_local {op : BinOp} {n : Nat} {piece : Code} {n' : Nat}
    (made : (binaryCode op).Makes n piece n') : Local piece := by
  cases binaryCode_makes made with
  | plus | minus | times | div | and | or => exact Plain.isLocal (by simp)
  | compared => rfl

theorem resultCode_local {op : BinOp} {total : Address} {place : Place} {n : Nat} {piece : Code}
    {n' : Nat} (made : (resultCode op total place).Makes n piece n') : Local piece := by
  cases resultCode_makes made with
  | sum => exact (plain_sum place total).isLocal
  | computed _ computes =>
      exact (local_append _ _).mpr ⟨binaryCode_local computes, (plain_store place).isLocal⟩

theorem ExprCode.isLocal {ctx e place n piece n'} (shape : ExprCode ctx e place n piece n') :
    Local piece := by
  induction shape with
  | known | int | bool | var | element => exact Plain.isLocal (by simp)
  | index _ _ _ _ ih | unary _ _ ih => simp [ih, Plain.isLocal]
  | left _ _ _ made ih | right _ _ _ _ made ih =>
      simp [ih, resultCode_local made, Plain.isLocal]
  | both _ _ _ _ _ made second first =>
      have popped : Local [.instr (.pop .ebx)] := rfl
      simp only [local_append, (plain_note ctx _).isLocal, second, first, popped,
        resultCode_local made, and_self]

theorem ExprCode.labels_nodup {ctx e place n piece n'} (shape : ExprCode ctx e place n piece n') :
    (Code.labels piece).Nodup := by
  have numbered := shape.numbered
  rw [labels_eq_marks]
  exact numbered.nodup.map_on fun a memA b memB =>
    Label.print_injective (numbered.generated a memA) (numbered.generated b memB)

namespace Machine

variable {m m' : Machine}

section Goto

variable (m) (line : Nat)

@[simp] theorem address_goto (address : Address) :
    (m.goto line).address address = m.address address := by
  cases address <;> rfl

@[simp] theorem read?_goto (source : Operand) : (m.goto line).read? source = m.read? source := by
  cases source with
  | mem address => simp only [read?, load?, address_goto, memory_goto]
  | _ => rfl

private theorem write?_goto (value : Word) (dest : Operand) :
    (m.goto line).write? value dest = (m.write? value dest).map (·.goto line) := by
  cases dest with
  | mem address => simp only [write?, address_goto, Option.map_some]; rfl
  | _ => rfl

theorem pop?_goto (reg : Reg) : (m.goto line).pop? reg = (m.pop? reg).map (·.goto line) := by
  simp only [pop?, load?, regs_goto, memory_goto]
  cases m.memory (m.regs .esp) <;> rfl

private theorem execute?_goto (op : Instr) :
    (m.goto line).execute? op = (m.execute? op).map (·.goto line) := by
  cases op with
  | push _ source =>
      simp only [execute?, read?_goto]
      cases m.read? source <;> rfl
  | pop dest => exact pop?_goto m line dest
  | mov _ source dest =>
      simp only [execute?, read?_goto]
      cases m.read? source with
      | none => rfl
      | some value => exact write?_goto m line value dest
  | leal source dest => simp only [execute?, address_goto, Option.map_some]; rfl
  | arith op source dest =>
      simp only [execute?, read?_goto]
      cases m.read? source <;> rfl
  | cmp source dest =>
      simp only [execute?, read?_goto]
      cases m.read? source <;> rfl
  | idiv divisor =>
      have same : (m.goto line).regs divisor = m.regs divisor := rfl
      by_cases zero : m.regs divisor = 0
      · rw [execute?, execute?, if_pos zero, if_pos (same.trans zero)]
        rfl
      · rw [execute?, execute?, if_neg zero, if_neg (same ▸ zero)]
        rfl
  | cmovl source dest =>
      have same : (m.goto line).flags = m.flags := rfl
      by_cases less : m.flags.holds .less = true
      · rw [execute?, execute?, if_pos less, if_pos (same ▸ less)]
        rfl
      · rw [execute?, execute?, if_neg less, if_neg (same ▸ less)]
        rfl
  | leave => exact pop?_goto (m.setReg .esp (m.regs .ebp)) line .ebp
  | _ => rfl

end Goto

section Lines

variable {before piece after : Code}

private theorem find?_append_of_some {name : String} {line : Nat}
    (found : find? piece name = some line) :
    find? (before ++ piece) name = some (before.length + line) := by
  induction before with
  | nil => simpa using found
  | cons first rest ih =>
      simp only [List.cons_append, find?, ih, List.length_cons]
      congr 1
      omega

private theorem find?_append_of_notMem {name : String} (apart : name ∉ Code.labels after) :
    find? (piece ++ after) name = find? piece name := by
  induction piece with
  | nil => exact find?_eq_none apart
  | cons first rest ih => simp only [List.cons_append, find?, ih]

private theorem getElem?_relocated {line : Line} (at_ : piece[m.line]? = some line) :
    (before ++ piece ++ after)[(m.goto (before.length + m.line)).line]? = some line := by
  have bound := (List.getElem?_eq_some_iff.mp at_).1
  rw [line_goto, List.append_assoc, List.getElem?_append_right (Nat.le_add_right _ _),
    Nat.add_sub_cancel_left, List.getElem?_append_left bound, at_]

private theorem find?_relocated (apart : ∀ name ∈ Code.labels piece, name ∉ Code.labels after)
    {name : String} {line : Nat} (found : find? piece name = some line) :
    find? (before ++ piece ++ after) name = some (before.length + line) := by
  obtain ⟨label, stands, same⟩ := exists_label_of_find? found
  have isLabel : name ∈ Code.labels piece :=
    List.mem_filterMap.mpr ⟨_, List.mem_of_getElem? stands, congrArg some same⟩
  rw [find?_append_of_notMem (apart name isLabel)]
  exact find?_append_of_some found

end Lines

variable {part whole : Image} {before after : Code}
  (within : whole.code = before ++ part.code ++ after)
  (apart : ∀ name ∈ Code.labels part.code, name ∉ Code.labels after)

include within apart

private theorem jump_relocated {cond : Jump} {target : Label}
    (at_ : part.code[m.line]? = some (.instr (.jump cond target)))
    (stands : whole.code[(m.goto (before.length + m.line)).line]? =
      some (.instr (.jump cond target))) (goes : m.step part = .goes m') :
    (m.goto (before.length + m.line)).step whole = .goes (m'.goto (before.length + m'.line)) := by
  by_cases taken : m.flags.holds cond = true
  · cases found : find? part.code target.print with
    | none => simp [step, at_, taken, found] at goes
    | some line =>
        obtain rfl : m.goto line = m' := by simpa [step, at_, taken, found] using goes
        exact step_jump stands taken (within ▸ find?_relocated apart found)
  · obtain rfl : m.next = m' := by simpa [step, at_, taken] using goes
    exact step_jump_not stands (Bool.not_eq_true _ ▸ taken)

private theorem step_relocated (isLocal : Local part.code) (goes : m.step part = .goes m') :
    (m.goto (before.length + m.line)).step whole = .goes (m'.goto (before.length + m'.line)) := by
  cases at_ : part.code[m.line]? with
  | none => simp [step, at_] at goes
  | some line =>
      have stands : whole.code[(m.goto (before.length + m.line)).line]? = some line :=
        within ▸ getElem?_relocated at_
      cases line with
      | text | globl | comment | label =>
          obtain rfl : m.next = m' := by simpa [step, at_] using goes
          simp only [step, stands]
          rfl
      | instr op =>
          have stays := List.all_eq_true.mp isLocal _ (List.mem_of_getElem? at_)
          cases executed : m.execute? op with
          | some machine =>
              rw [step_instr at_ executed] at goes
              obtain rfl := Progress.goes.inj goes
              have same := execute?_goto m (before.length + m.line) op
              rw [executed, Option.map_some] at same
              rw [step_instr stands same, line_next, line_of_execute? executed]
              rfl
          | none =>
              -- the line does not execute, so it can only go on as a jump
              cases op with
              | call | leave | ret => simp at stays
              | jump cond target => exact jump_relocated within apart at_ stands goes
              | _ => simp [step, at_, executed] at goes

/-- What some lines come to on their own, they come to wherever they stand. -/
theorem reaches_relocated (isLocal : Local part.code) (reached : Reaches part m m') :
    Reaches whole (m.goto (before.length + m.line)) (m'.goto (before.length + m'.line)) := by
  induction reached with
  | refl => exact .refl
  | tail _ goes ih => exact ih.tail (step_relocated within apart isLocal goes)

end Machine

namespace Annotates

variable {depth : Nat → Nat} {image : Image} {room : Nat} {m : Machine}

private theorem top_of_level (bounded : room < 2 ^ 32) {d : Nat} (shallow : d ≤ room)
    (level : m.regs .esp + .ofNat 32 d = .ofNat 32 room) : m.top + d = room := by
  have sum := congrArg BitVec.toNat level
  have small := (m.regs .esp).isLt
  rw [BitVec.toNat_add, BitVec.toNat_ofNat, BitVec.toNat_ofNat] at sum
  unfold Machine.top
  omega

variable (annotated : Annotates depth image.code) (isLocal : Local image.code)
  (bounded : room < 2 ^ 32) (shallow : ∀ i ≤ image.code.length, depth i ≤ room)

include annotated isLocal bounded shallow

theorem hasRoom (level : m.regs .esp + .ofNat 32 (depth m.line) = .ofNat 32 room) :
    m.hasRoom image = true := by
  cases at_ : image.code[m.line]? with
  | none => simp only [Machine.hasRoom, at_]
  | some line =>
      have bound := (List.getElem?_eq_some_iff.mp at_).1
      have height := top_of_level bounded (shallow m.line (Nat.le_of_lt bound)) level
      have deeper := (annotated.step m.line line at_).2
      have fits := shallow (m.line + 1) bound
      have stays := List.all_eq_true.mp isLocal line (List.mem_of_getElem? at_)
      unfold Machine.hasRoom
      rw [at_]
      split
      · next same =>
        obtain rfl := Option.some.inj same
        simp only [Line.shift, Instr.shift] at deeper
        exact decide_eq_true (by omega)
      · next same =>
        obtain rfl := Option.some.inj same
        simp at stays
      · next bytes same =>
        obtain rfl := Option.some.inj same
        simp only [Line.shift, Instr.shift] at deeper
        exact decide_eq_true (by omega)
      · rfl

/-- On their own, local lines stay inside the address space if there is room for the deepest
    of them. -/
theorem fits
    (apart : ∀ place target : Label, .label place ∈ image.code → target.isGenerated = true →
      place.print = target.print → place.isGenerated = true)
    (level : m.regs .esp + .ofNat 32 (depth m.line) = .ofNat 32 room) : Machine.Fits image m := by
  intro steps
  induction steps generalizing m with
  | zero => rfl
  | succ steps ih =>
      rw [Machine.fitsFor, annotated.hasRoom isLocal bounded shallow level, Bool.true_and]
      cases stepped : m.step image with
      | ends | stuck => rfl
      | goes m' =>
          have stays : ∀ op, image.code[m.line]? = some (.instr op) →
              op ≠ .leave ∧ op ≠ .ret ∧ ∀ target, op ≠ .call target := by
            intro op at_
            have stays := List.all_eq_true.mp isLocal _ (List.mem_of_getElem? at_)
            refine ⟨?_, ?_, fun target => ?_⟩ <;> rintro rfl <;> simp at stays
          exact ih ((annotated.esp_within apart (.step stepped stays)).trans level)

end Annotates

end Wordlang.Asm
