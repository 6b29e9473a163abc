import Wordlang.Asm.Depth
import Wordlang.Proofs.Execution
import Wordlang.Proofs.Labels

/-! # Depths of generated code

Every piece of generated code makes the stack deeper by an amount that its construct decides,
and is never less deep than where it begins. The labels and jumps of one construct share a
number and stand at one depth, so that a number has a depth.
-/

namespace Wordlang.Asm

namespace Instr

theorem tracked_mov {width : Width} {source : Operand} {dest : Reg}
    (tracked : (mov width source (.reg dest)).tracked = true) (other : ¬ dest.isGeneral = true) :
    source = .reg .esp ∧ dest = .ebp := by
  cases source with
  | imm | mem => exact absurd tracked other
  | reg source =>
      cases source <;> cases dest <;> first | exact ⟨rfl, rfl⟩ | exact absurd tracked other

theorem tracked_arith {op : Arith} {source : Operand} {dest : Reg}
    (tracked : (arith op source dest).tracked = true) (other : ¬ dest.isGeneral = true) :
    ∃ bytes, source = .imm bytes ∧ dest = .esp ∧ (op = .sub ∨ op = .add) := by
  cases source with
  | reg | mem => cases op <;> exact absurd tracked other
  | imm bytes =>
      cases dest with
      | esp =>
          cases op with
          | sub => exact ⟨bytes, rfl, rfl, .inl rfl⟩
          | add => exact ⟨bytes, rfl, rfl, .inr rfl⟩
          | _ => exact absurd tracked other
      | _ => cases op <;> exact absurd tracked other

theorem shift_arith {op : Arith} {source : Operand} {dest : Reg} (general : dest.isGeneral = true) :
    (arith op source dest).shift = 0 := by
  cases dest with
  | esp => exact absurd general (by decide)
  | _ => cases op <;> cases source <;> rfl

end Instr

namespace Machine

variable {m m' : Machine}

/-- The stack pointer has moved down by so many bytes. The frame pointer has stayed where it was
    or has been set to the stack pointer. -/
def Moved (m m' : Machine) (bytes : Int) : Prop :=
  m'.regs .esp = m.regs .esp - .ofInt 32 bytes ∧
    (m'.regs .ebp = m.regs .ebp ∨ m'.regs .ebp = m'.regs .esp)

theorem moved_of_eq (stack : m'.regs .esp = m.regs .esp) (frame : m'.regs .ebp = m.regs .ebp) :
    m.Moved m' 0 :=
  ⟨by rw [stack]; exact (BitVec.sub_zero _).symm, .inl frame⟩

theorem moved_setReg {reg : Reg} (general : reg.isGeneral = true) (value : Word) :
    m.Moved (m.setReg reg value) 0 := by
  cases reg with
  | esp | ebp => exact absurd general (by decide)
  | _ => exact moved_of_eq rfl rfl

private theorem moved_mov {width : Width} {source dest : Operand}
    (tracked : (Instr.mov width source dest).tracked = true)
    (done : m.execute? (.mov width source dest) = some m') : m.Moved m' 0 := by
  obtain ⟨value, read, written⟩ := Option.bind_eq_some_iff.mp done
  cases dest with
  | imm => exact absurd written (Option.some_ne_none m').symm
  | mem address =>
      obtain rfl := Option.some.inj written
      exact moved_of_eq rfl rfl
  | reg dest =>
      obtain rfl := Option.some.inj written
      by_cases general : dest.isGeneral = true
      · exact moved_setReg general value
      · obtain ⟨rfl, rfl⟩ := Instr.tracked_mov tracked general
        obtain rfl := Option.some.inj read
        exact ⟨(BitVec.sub_zero _).symm, .inr rfl⟩

private theorem moved_arith {op : Arith} {source : Operand} {dest : Reg}
    (tracked : (Instr.arith op source dest).tracked = true)
    (done : m.execute? (.arith op source dest) = some m') :
    m.Moved m' (Instr.arith op source dest).shift := by
  obtain ⟨value, read, done⟩ := Option.bind_eq_some_iff.mp done
  obtain rfl := Option.some.inj done
  by_cases general : dest.isGeneral = true
  · rw [Instr.shift_arith general]
    exact moved_setReg general _
  · obtain ⟨bytes, rfl, rfl, adds⟩ := Instr.tracked_arith tracked general
    obtain rfl := Option.some.inj read
    rcases adds with rfl | rfl
    · exact ⟨rfl, .inl rfl⟩
    · have back : m.regs .esp + .ofInt 32 bytes = m.regs .esp - .ofInt 32 (-bytes) := by
        rw [BitVec.ofInt_neg, BitVec.sub_neg]
      exact ⟨back, .inl rfl⟩

/-- The machine moves the stack pointer as the shift of an instruction says. -/
theorem moved_of_execute? {op : Instr} (tracked : op.tracked = true) (stays : op ≠ .leave)
    (done : m.execute? op = some m') : m.Moved m' op.shift := by
  cases op with
  | push =>
      obtain ⟨value, _, done⟩ := Option.bind_eq_some_iff.mp done
      obtain rfl := Option.some.inj done
      exact ⟨rfl, .inl rfl⟩
  | pop dest =>
      obtain ⟨value, _, done⟩ := Option.bind_eq_some_iff.mp done
      obtain rfl := Option.some.inj done
      cases dest with
      | esp | ebp => exact absurd tracked (by decide)
      | _ => exact ⟨BitVec.sub_neg.symm, .inl rfl⟩
  | mov => exact moved_mov tracked done
  | arith => exact moved_arith tracked done
  | movzbl | leal | neg | inc =>
      obtain rfl := Option.some.inj done
      exact moved_setReg tracked _
  | cmovl source dest =>
      obtain rfl := Option.some.inj done
      split
      · exact moved_setReg tracked _
      · exact moved_of_eq rfl rfl
  | cmp =>
      obtain ⟨value, read, done⟩ := Option.bind_eq_some_iff.mp done
      obtain rfl := Option.some.inj done
      exact moved_of_eq rfl rfl
  | test | cdq =>
      obtain rfl := Option.some.inj done
      exact moved_of_eq rfl rfl
  | setne dest =>
      obtain rfl := Option.some.inj done
      cases dest <;> exact moved_setReg rfl _
  | idiv =>
      simp only [execute?] at done
      split at done
      · contradiction
      · obtain rfl := Option.some.inj done
        exact moved_of_eq rfl rfl
  | leave => exact absurd rfl stays
  | jump | call | ret => exact absurd done (Option.some_ne_none m').symm

end Machine

namespace Line

def tag? : Line → Option Label
  | .label place => if place.isGenerated then some place else none
  | .instr (.jump _ target) => some target
  | _ => none

/-- A line that leaves the labels alone and takes nothing off the stack. -/
def rises (line : Line) : Bool := line.tracked && line.tag?.isNone && 0 ≤ line.shift

end Line

@[simp] theorem Line.shift_label (place : Label) : (Line.label place).shift = 0 := rfl

@[simp] theorem Line.shift_jump (cond : Jump) (target : Label) :
    (Line.instr (.jump cond target)).shift = 0 := rfl

@[simp] theorem Line.tag?_jump (cond : Jump) (target : Label) :
    (Line.instr (.jump cond target)).tag? = some target := rfl

@[simp] theorem Line.tag?_label (place : Label) :
    (Line.label place).tag? = if place.isGenerated then some place else none := rfl

namespace Code

/-- Code that starts at some depth is never less deep than a floor. -/
def Above (floor : Int) : Int → Code → Prop
  | depth, [] => floor ≤ depth
  | depth, line :: rest =>
      floor ≤ depth ∧ line.tracked = true ∧ Above floor (depth + line.shift) rest

/-- The labels that code defines or jumps to, with the depths at which it does. -/
def tags : Int → Code → List (Label × Int)
  | _, [] => []
  | depth, line :: rest =>
      (line.tag?.map (·, depth)).toList ++ tags (depth + line.shift) rest

variable {floor depth : Int} {first second rest : Code} {line : Line}

@[simp] theorem shift_nil : shift [] = 0 := rfl

@[simp] theorem shift_cons : shift (line :: rest) = line.shift + shift rest := rfl

@[simp] theorem shift_append : shift (first ++ second) = shift first + shift second := by
  induction first with
  | nil => simp
  | cons line rest ih => rw [List.cons_append, shift_cons, ih, shift_cons, Int.add_assoc]

@[simp] theorem above_nil : Above floor depth [] ↔ floor ≤ depth := Iff.rfl

theorem above_cons : Above floor depth (line :: rest) ↔
    floor ≤ depth ∧ line.tracked = true ∧ Above floor (depth + line.shift) rest := Iff.rfl

theorem Above.le_start (above : Above floor depth first) : floor ≤ depth := by
  cases first with
  | nil => exact above
  | cons => exact above.1

@[simp] theorem above_append : Above floor depth (first ++ second) ↔
    Above floor depth first ∧ Above floor (depth + shift first) second := by
  induction first generalizing depth with
  | nil =>
      simp only [List.nil_append, above_nil, shift_nil, Int.add_zero]
      exact ⟨fun above => ⟨above.le_start, above⟩, And.right⟩
  | cons line rest ih =>
      rw [List.cons_append, above_cons, above_cons, ih, shift_cons, Int.add_assoc]
      simp only [and_assoc]

theorem Above.mono {floor' : Int} (above : Above floor depth first) (le : floor' ≤ floor) :
    Above floor' depth first := by
  induction first generalizing depth with
  | nil => exact Int.le_trans le above
  | cons line rest ih => exact ⟨Int.le_trans le above.1, above.2.1, ih above.2.2⟩

@[simp] theorem tags_nil : tags depth [] = [] := rfl

theorem tags_cons : tags depth (line :: rest) =
    (line.tag?.map (·, depth)).toList ++ tags (depth + line.shift) rest := rfl

@[simp] theorem tags_append :
    tags depth (first ++ second) = tags depth first ++ tags (depth + shift first) second := by
  induction first generalizing depth with
  | nil => simp
  | cons line rest ih =>
      rw [List.cons_append, tags_cons, ih, tags_cons, shift_cons, List.append_assoc, Int.add_assoc]

theorem Above.le_end (above : Above floor depth first) : floor ≤ depth + shift first := by
  have both : Above floor depth (first ++ []) := by rwa [List.append_nil]
  exact (above_append.mp both).2

theorem above_of_rises (rises : ∀ line ∈ first, line.rises = true) (le : floor ≤ depth) :
    Above floor depth first := by
  induction first generalizing depth with
  | nil => exact le
  | cons line rest ih =>
      obtain ⟨own, others⟩ := List.forall_mem_cons.mp rises
      simp only [Line.rises, Bool.and_eq_true, decide_eq_true_eq] at own
      exact ⟨le, own.1.1, ih others (by omega)⟩

theorem tags_of_rises (rises : ∀ line ∈ first, line.rises = true) : tags depth first = [] := by
  induction first generalizing depth with
  | nil => rfl
  | cons line rest ih =>
      obtain ⟨own, others⟩ := List.forall_mem_cons.mp rises
      simp only [Line.rises, Bool.and_eq_true, Option.isNone_iff_eq_none] at own
      rw [tags_cons, own.1.2, ih others]
      rfl

end Code

open Code (Above tags shift)

/-- Generated labels with depths. Their numbers are from one on and below another, and each
    number has one depth. -/
structure Tagged (n : Nat) (tags : List (Label × Int)) (n' : Nat) : Prop where
  le : n ≤ n'
  generated : ∀ tag ∈ tags, tag.1.isGenerated = true
  lower : ∀ tag ∈ tags, n ≤ tag.1.number
  upper : ∀ tag ∈ tags, tag.1.number < n'
  single : ∀ tag ∈ tags, ∀ other ∈ tags, tag.1.number = other.1.number → tag.2 = other.2

namespace Tagged

variable {n n₁ n' : Nat} {first second all : List (Label × Int)}

theorem none (n : Nat) : Tagged n [] n where
  le := Nat.le_refl n
  generated := List.forall_mem_nil _
  lower := List.forall_mem_nil _
  upper := List.forall_mem_nil _
  single := List.forall_mem_nil _

theorem append (h₁ : Tagged n first n₁) (h₂ : Tagged n₁ second n') :
    Tagged n (first ++ second) n' where
  le := Nat.le_trans h₁.le h₂.le
  generated tag mem := (List.mem_append.mp mem).elim (h₁.generated tag) (h₂.generated tag)
  lower tag mem := (List.mem_append.mp mem).elim (h₁.lower tag)
    fun mem => Nat.le_trans h₁.le (h₂.lower tag mem)
  upper tag mem := (List.mem_append.mp mem).elim
    (fun mem => Nat.lt_of_lt_of_le (h₁.upper tag mem) h₂.le) (h₂.upper tag)
  single tag mem other mem' number := by
    rcases List.mem_append.mp mem with left | right <;>
      rcases List.mem_append.mp mem' with left' | right'
    · exact h₁.single tag left other left' number
    · have := h₁.upper tag left
      have := h₂.lower other right'
      omega
    · have := h₁.upper other left'
      have := h₂.lower tag right
      omega
    · exact h₂.single tag right other right' number

end Tagged

/-- A piece of code with the label numbers before and behind it. Wherever it begins, it makes
    the stack deeper by a gain and is never less deep than at its beginning. -/
structure Piece (n : Nat) (code : Code) (gain : Int) (n' : Nat) : Prop where
  shift : shift code = gain
  above : ∀ depth, Above depth depth code
  tags : ∀ depth, Tagged n (tags depth code) n'

namespace Piece

variable {n n₁ n' : Nat} {code later : Code} {gain gain' : Int}

theorem gain_nonneg (piece : Piece n code gain n') : 0 ≤ gain := by
  have deeper := (piece.above 0).le_end
  rwa [piece.shift, Int.zero_add] at deeper

theorem of_rises (rises : ∀ line ∈ code, line.rises = true) (shifted : Code.shift code = gain) :
    Piece n code gain n where
  shift := shifted
  above depth := Code.above_of_rises rises (Int.le_refl depth)
  tags _ := (Code.tags_of_rises rises).symm ▸ .none n

theorem append (first : Piece n code gain n₁) (second : Piece n₁ later gain' n') :
    Piece n (code ++ later) (gain + gain') n' where
  shift := by rw [Code.shift_append, first.shift, second.shift]
  above depth := by
    have nonneg := first.gain_nonneg
    rw [Code.above_append, first.shift]
    exact ⟨first.above depth, (second.above (depth + gain)).mono (by omega)⟩
  tags depth := by
    rw [Code.tags_append, first.shift]
    exact (first.tags depth).append (second.tags (depth + gain))

theorem step (piece : Piece n code gain n') {op : Instr} (tracked : op.tracked = true)
    (noTag : (Line.instr op).tag? = none) (shifted : gain + op.shift = gain') (enough : 0 ≤ gain') :
    Piece n (code ++ [.instr op]) gain' n' where
  shift := by simp [piece.shift, Line.shift, shifted]
  above depth := by
    have nonneg := piece.gain_nonneg
    rw [Code.above_append, piece.shift]
    exact ⟨piece.above depth, by omega, tracked, by rw [Line.shift, Code.above_nil]; omega⟩
  tags depth := by
    rw [Code.tags_append, Code.tags_cons, noTag, Code.tags_nil]
    simpa using piece.tags depth

theorem release {bytes : Nat} (piece : Piece n code bytes n') :
    Piece n (code ++ Asm.release bytes) 0 n' := by
  unfold Asm.release
  split
  · next isZero => simpa [isZero] using piece
  · exact piece.step rfl rfl (by rw [Instr.shift]; omega) (Int.le_refl 0)

theorem pop (piece : Piece n code 4 n') : Piece n (code ++ [.instr (.pop .ebx)]) 0 n' :=
  piece.step rfl rfl rfl (Int.le_refl 0)

theorem still (first : Piece n code gain n₁) (second : Piece n₁ later 0 n') :
    Piece n (code ++ later) gain n' := by
  simpa using first.append second

/-- A piece that leaves the stack alone changes no gain before another piece. -/
theorem onto (first : Piece n code 0 n₁) (second : Piece n₁ later gain n') :
    Piece n (code ++ later) gain n' := by
  simpa using first.append second

end Piece

/-- Code of a construct that is yet to be finished. Its own labels have the numbers from one on
    and below another and stand at the depth where it begins; pieces in between use the numbers
    that follow. -/
structure Construct (n n₁ : Nat) (code : Code) (n' : Nat) : Prop where
  shift : shift code = 0
  above : ∀ depth, Above depth depth code
  tags : ∀ depth, ∃ inner, Tagged n₁ inner n' ∧ ∀ tag ∈ tags depth code,
    tag ∈ inner ∨
      tag.1.isGenerated = true ∧ n ≤ tag.1.number ∧ tag.1.number < n₁ ∧ tag.2 = depth

namespace Construct

variable {n n₁ n₂ n' : Nat} {code later : Code}

theorem nil (n n₁ : Nat) : Construct n n₁ [] n₁ where
  shift := rfl
  above depth := Int.le_refl depth
  tags _ := ⟨[], .none n₁, List.forall_mem_nil _⟩

theorem mark {line : Line} {label : Label} (construct : Construct n n₁ code n')
    (tag : line.tag? = some label) (generated : label.isGenerated = true)
    (lower : n ≤ label.number) (upper : label.number < n₁) :
    Construct n n₁ (code ++ [line]) n' := by
  have still : line.shift = 0 ∧ line.tracked = true := by
    cases line with
    | label => exact ⟨rfl, rfl⟩
    | instr op =>
        cases op with
        | jump => exact ⟨rfl, rfl⟩
        | _ => exact absurd tag nofun
    | _ => exact absurd tag nofun
  refine ⟨?_, fun depth => ?_, fun depth => ?_⟩
  · simp [construct.shift, still.1]
  · rw [Code.above_append, construct.shift, Int.add_zero]
    exact ⟨construct.above depth, Int.le_refl depth, still.2, by simp [still.1]⟩
  · obtain ⟨inner, tagged, covered⟩ := construct.tags depth
    refine ⟨inner, tagged, fun other mem => ?_⟩
    rw [Code.tags_append, construct.shift, Int.add_zero, Code.tags_cons, tag] at mem
    rcases List.mem_append.mp mem with earlier | own
    · exact covered other earlier
    · obtain rfl : other = (label, depth) := by simpa using own
      exact .inr ⟨generated, lower, upper, rfl⟩

theorem label (construct : Construct n n₁ code n') (place : Label)
    (generated : place.isGenerated = true) (lower : n ≤ place.number) (upper : place.number < n₁) :
    Construct n n₁ (code ++ [.label place]) n' :=
  construct.mark (if_pos generated) generated lower upper

theorem jump (construct : Construct n n₁ code n') (cond : Jump) (target : Label)
    (generated : target.isGenerated = true) (lower : n ≤ target.number)
    (upper : target.number < n₁) :
    Construct n n₁ (code ++ [.instr (.jump cond target)]) n' :=
  construct.mark rfl generated lower upper

theorem piece (construct : Construct n n₁ code n₂) (piece : Piece n₂ later 0 n') :
    Construct n n₁ (code ++ later) n' := by
  refine ⟨?_, fun depth => ?_, fun depth => ?_⟩
  · rw [Code.shift_append, construct.shift, piece.shift, Int.add_zero]
  · rw [Code.above_append, construct.shift, Int.add_zero]
    exact ⟨construct.above depth, piece.above depth⟩
  · obtain ⟨inner, tagged, covered⟩ := construct.tags depth
    refine ⟨inner ++ Code.tags depth later, tagged.append (piece.tags depth), fun tag mem => ?_⟩
    rw [Code.tags_append, construct.shift, Int.add_zero] at mem
    rcases List.mem_append.mp mem with earlier | inside
    · exact (covered tag earlier).imp_left (List.mem_append_left _)
    · exact .inl (List.mem_append_right _ inside)

/-- A construct is a piece. -/
theorem finish (construct : Construct n n₁ code n') (le : n ≤ n₁) : Piece n code 0 n' where
  shift := construct.shift
  above := construct.above
  tags depth := by
    obtain ⟨inner, tagged, covered⟩ := construct.tags depth
    refine ⟨Nat.le_trans le tagged.le, fun tag mem => ?_, fun tag mem => ?_, fun tag mem => ?_,
      fun tag mem other mem' number => ?_⟩
    · exact (covered tag mem).elim (tagged.generated tag) And.left
    · exact (covered tag mem).elim (fun inside => Nat.le_trans le (tagged.lower tag inside))
        fun own => own.2.1
    · exact (covered tag mem).elim (tagged.upper tag)
        fun own => Nat.lt_of_lt_of_le own.2.2.1 tagged.le
    · rcases covered tag mem with inside | own <;> rcases covered other mem' with inside' | own'
      · exact tagged.single tag inside other inside' number
      · have := tagged.lower tag inside
        omega
      · have := tagged.lower other inside'
        omega
      · exact own.2.2.2.trans own'.2.2.2.symm

end Construct

/-- By how many bytes the stack is deeper when a value has reached its place. -/
def Place.gain : Place → Int
  | stack => 4
  | eax => 0
  | ebx => 0

theorem nil_piece (n : Nat) : Piece n [] 0 n :=
  .of_rises (List.forall_mem_nil _) Code.shift_nil

theorem line_piece {line : Line} {gain : Int} (rises : line.rises = true)
    (shifted : line.shift = gain) (n : Nat) : Piece n [line] gain n :=
  .of_rises (List.forall_mem_singleton.mpr rises) (by simp [shifted])

theorem note_piece (ctx : Context) (text : String) (n : Nat) : Piece n (ctx.note text) 0 n := by
  unfold Context.note
  split
  · exact line_piece rfl rfl n
  · exact nil_piece n

namespace Place

theorem immediate_piece (place : Place) (value : Word) (n : Nat) :
    Piece n (place.immediate value) place.gain n := by
  cases place <;> exact line_piece rfl rfl n

theorem load_piece (place : Place) (address : Address) (n : Nat) :
    Piece n (place.load address) place.gain n := by
  cases place <;> exact line_piece rfl rfl n

theorem store_piece (place : Place) (n : Nat) : Piece n place.store place.gain n := by
  cases place with
  | eax => exact nil_piece n
  | stack | ebx => exact line_piece rfl rfl n

theorem sum_piece (place : Place) (total : Address) (n : Nat) :
    Piece n (place.sum total) place.gain n := by
  cases place with
  | stack => exact (line_piece rfl rfl n).append (line_piece rfl rfl n)
  | eax | ebx => exact line_piece rfl rfl n

end Place

private theorem unaryCode_piece (ctx : Context) (op : UnOp) (n : Nat) : Piece n
    (unaryCode ctx op) 0 n := by
  cases op <;> exact (note_piece ctx _ n).still (.of_rises (by decide) (by decide))

theorem knownOperand_piece (op : BinOp) (value : Word) {reg : Reg}
    (general : reg.isGeneral = true) (n : Nat) : Piece n (knownOperand op value reg) 0 n := by
  unfold knownOperand
  split
  · exact nil_piece n
  · have rises : (Line.instr (.mov .plain (.imm value.toInt) (.reg reg))).rises = true := by
      simp [Line.rises, Line.tracked, Instr.tracked, general, Line.tag?, Line.shift, Instr.shift]
    exact line_piece rises rfl n

private theorem binaryCode_piece {op : BinOp} {n : Nat} {code : Code} {n' : Nat}
    (made : (binaryCode op).Makes n code n') : Piece n code 0 n' := by
  cases binaryCode_makes made with
  | plus | minus | times | div | and | or => exact .of_rises (by decide) (by decide)
  | @compared _ jump _ comparison =>
      have low := Nat.le_refl n
      have high := Nat.lt_succ_self n
      have compare : Piece (n + 1) [.instr (.cmp (.reg .ebx) .eax)] 0 (n + 1) :=
        line_piece rfl rfl _
      have result (value : Int) :
          Piece (n + 1) [.instr (.mov .plain (.imm value) (.reg .eax))] 0 (n + 1) :=
        line_piece rfl rfl _
      have test := ((Construct.nil n (n + 1)).piece compare).jump jump (.holds op n) comparison
        low high
      have fails := (test.piece (result 0)).jump .always (.compared op n) comparison low high
      have holds := (fails.label (.holds op n) comparison low high).piece (result 1)
      exact (holds.label (.compared op n) comparison low high).finish (Nat.le_succ n)

theorem resultCode_piece {op : BinOp} {total : Address} {place : Place} {n : Nat} {code : Code}
    {n' : Nat} (made : (resultCode op total place).Makes n code n') :
    Piece n code place.gain n' := by
  cases resultCode_makes made with
  | sum => exact place.sum_piece total n
  | computed _ computes => exact (binaryCode_piece computes).onto (place.store_piece _)

/-- The code of an expression makes the stack deeper by the value, if that is pushed. -/
theorem ExprCode.piece {ctx e place n code n'} (shape : ExprCode ctx e place n code n') :
    Piece n code place.gain n' := by
  induction shape with
  | known | int | bool => exact Place.immediate_piece _ _ _
  | var | element => exact Place.load_piece _ _ _
  | index _ _ _ _ ih => exact Piece.onto ih (Place.load_piece _ _ _)
  | unary _ _ ih => exact Piece.onto (ih.still (unaryCode_piece _ _ _)) (Place.store_piece _ _)
  | left _ _ _ made ih =>
      exact Piece.onto (((note_piece _ _ _).onto ih).still (knownOperand_piece _ _ rfl _))
        (resultCode_piece made)
  | right _ _ _ _ made ih =>
      exact Piece.onto (((note_piece _ _ _).onto ih).still (knownOperand_piece _ _ rfl _))
        (resultCode_piece made)
  | both _ _ _ _ _ made ihRight ihLeft =>
      -- the second operand waits on the stack while the first is computed
      exact ((((note_piece _ _ _).onto ihRight).still ihLeft).pop).onto
        (resultCode_piece made)

theorem conditionCode_piece {ctx : Context} {cond : Expr} {n : Nat} {code : Code} {n' : Nat}
    (made : (conditionCode ctx cond).Makes n code n') : Piece n code 0 n' := by
  obtain ⟨made⟩ := conditionCode_makes made
  exact made.piece.still (line_piece rfl rfl _)

theorem ArgsCode.piece {ctx args n code n'} (shape : ArgsCode ctx args n code n') :
    Piece n code (args.length * wordSize : Nat) n' := by
  induction shape with
  | nil => exact nil_piece _
  | @cons arg rest _ _ _ _ _ _ made ih =>
      have gain : ((arg :: rest).length * wordSize : Nat) =
          ((rest.length * wordSize : Nat) : Int) + Place.stack.gain := by
        simp only [List.length_cons, wordSize, Place.gain]
        omega
      rw [gain]
      exact ih.append made.piece

theorem callCode_piece {ctx : Context} {callee : String} {args : List Expr} {n : Nat} {code : Code}
    {n' : Nat} (made : (callCode ctx callee args).Makes n code n') :
    Piece n code (args.length * wordSize : Nat) n' := by
  obtain ⟨_, _, pushed⟩ := callCode_makes made
  exact ((note_piece _ _ _).onto pushed.piece).still (line_piece rfl rfl _)

theorem storeEax_piece (address : Address) (n : Nat) : Piece n (storeEax address) 0 n :=
  line_piece rfl rfl n

theorem storeWord_piece (value : Word) (address : Address) (n : Nat) :
    Piece n (storeWord value address) 0 n :=
  line_piece rfl rfl n

private theorem assignCode_piece {ctx : Context} {slot : Address} {value : Expr} {n : Nat}
    {code : Code}
    {n' : Nat} (made : (assignCode ctx slot value).Makes n code n') : Piece n code 0 n' := by
  cases assignCode_makes made with
  | known => exact storeWord_piece _ _ n
  | computed _ made => exact made.piece.still (storeEax_piece _ _)

private theorem assignIndexCode_piece {ctx : Context} {symbol : Symbol} {index value : Expr}
    {n : Nat}
    {code : Code} {n' : Nat} (made : (assignIndexCode ctx symbol index value).Makes n code n') :
    Piece n code 0 n' := by
  cases assignIndexCode_makes made with
  | known => exact storeWord_piece _ _ n
  | content _ _ made => exact made.piece.still (storeEax_piece _ _)
  | place _ _ made => exact made.piece.still (storeWord_piece _ _ _)
  | both _ _ madeIndex made =>
      exact ((madeIndex.piece.still made.piece).pop).still (storeEax_piece _ _)

theorem callCode_release_piece {ctx : Context} {callee : String} {args : List Expr} {n : Nat}
    {code : Code} {n' : Nat} (made : (callCode ctx callee args).Makes n code n') :
    Piece n (code ++ release (args.length * wordSize)) 0 n' :=
  (callCode_piece made).release

private theorem callIndexCode_piece {ctx : Context} {symbol : Symbol} {index : Expr}
    {callee : String}
    {args : List Expr} {n : Nat} {code : Code} {n' : Nat}
    (made : (callIndexCode ctx symbol index callee args).Makes n code n') :
    Piece n code 0 n' := by
  cases callIndexCode_makes made with
  | known _ called => exact (callCode_release_piece called).still (storeEax_piece _ _)
  | computed _ madeIndex called =>
      have both := madeIndex.piece.still (callCode_release_piece called)
      rw [← List.append_assoc] at both
      exact (both.pop).still (storeEax_piece _ _)

theorem StmtsCode.piece {ctx stmts n code n'} (shape : StmtsCode ctx stmts n code n') :
    Piece n code 0 n' := by
  induction shape with
  | nil => exact nil_piece _
  | assign _ made _ ih => exact ((note_piece _ _ _).still (assignCode_piece made)).still ih
  | assignIndex _ made _ ih =>
      exact ((note_piece _ _ _).still (assignIndexCode_piece made)).still ih
  | call _ made _ ih =>
      -- the result is stored before the arguments are given back
      exact ((callCode_piece made).still (storeEax_piece _ _)).release.still ih
  | callIndex _ made _ ih => exact (callIndexCode_piece made).still ih
  | whenFalse _ _ _ ih | loopFalse _ _ _ ih => exact (note_piece _ _ _).still ih
  | whenTrue _ _ _ inner later | chooseTrue _ _ _ inner later =>
      exact ((note_piece _ _ _).still inner).still later
  | block _ _ inner later => exact inner.still later
  | chooseFalse _ _ _ _ inner later => exact ((note_piece _ _ _).still inner).still later
  | @when _ _ _ n _ _ _ _ _ _ _ made _ _ inner later =>
      have low := Nat.le_refl n
      have high := Nat.lt_succ_self n
      have test := (Construct.nil n (n + 1)).piece (conditionCode_piece made)
      have body := (test.jump .notEqual (.whenDone n) rfl low high).piece inner
      exact ((body.label (.whenDone n) rfl low high).finish (Nat.le_succ n)).still later
  | @choose _ _ _ _ n _ _ _ _ _ _ _ _ _ made _ _ _ first second later =>
      have test := (Construct.nil n (n + 2)).piece (conditionCode_piece made)
      have thens := (test.jump .notEqual (.otherwise n) rfl (Nat.le_refl n)
        (Nat.lt_add_of_pos_right Nat.two_pos)).piece first
      have between := (thens.jump .always (.chooseDone (n + 1)) rfl (Nat.le_succ n)
        (Nat.lt_succ_self (n + 1))).label (.otherwise n) rfl (Nat.le_refl n)
        (Nat.lt_add_of_pos_right Nat.two_pos)
      have elses := (between.piece second).label (.chooseDone (n + 1)) rfl (Nat.le_succ n)
        (Nat.lt_succ_self (n + 1))
      rw [List.append_assoc _ [_] [_]] at elses
      exact (elses.finish (Nat.le_add_right n 2)).still later
  | @loopTrue _ _ _ n _ _ _ _ _ _ _ inner later =>
      have low := Nat.le_refl n
      have high := Nat.lt_succ_self n
      have start := (Construct.nil n (n + 1)).label (.loop n) rfl low high
      have again := (start.piece inner).jump .always (.loop n) rfl low high
      have note := note_piece ctx "while folded to true" n
      have all := note.still (again.finish (Nat.le_succ n))
      simpa using all.still later
  | @loop _ _ _ n _ _ _ _ _ _ _ made _ _ inner later =>
      have low := Nat.le_refl n
      have high := Nat.lt_succ_self n
      have start := (Construct.nil n (n + 1)).label (.loop n) rfl low high
      have test := (start.piece (conditionCode_piece made)).jump .notEqual (.loopDone n) rfl
        low high
      have again := (test.piece inner).jump .always (.loop n) rfl low high
      have done := again.label (.loopDone n) rfl low high
      rw [List.append_assoc _ [_] [_]] at done
      exact (done.finish (Nat.le_succ n)).still later

end Wordlang.Asm
