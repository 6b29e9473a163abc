import Wordlang.Proofs.Depths
import Wordlang.Proofs.Layout
import Wordlang.Proofs.Visits

/-! # Order on the stack

The depth of a line is what all lines before it have pushed. From the depths of the pieces
follows what they are at every line of a function: behind its start it works at one depth, to
which every statement returns, and its end finds on the stack what the start has saved. While
the machine stays in a frame, its stack pointer moves with the depths.
-/

namespace Wordlang.Asm

open Code (Above tags shift)

/-- The code at some line starts at some depth, and its lines have the depths that come from
    their shifts. -/
def Follows (depth : Nat → Nat) (d : Int) (line : Nat) (code : Code) : Prop :=
  ∀ k ≤ code.length, (depth (line + k) : Int) = d + shift (code.take k)

variable {depth : Nat → Nat} {d floor : Int} {line : Nat} {code first second : Code}

theorem Code.Above.take (above : Above floor d code) (k : Nat) :
    floor ≤ d + shift (code.take k) := by
  rw [← List.take_append_drop k code, Code.above_append] at above
  exact above.1.le_end

theorem Code.Above.tracked (above : Above floor d code) {own : Line} (mem : own ∈ code) :
    own.tracked = true := by
  induction code generalizing d with
  | nil => exact absurd mem List.not_mem_nil
  | cons other rest ih =>
      rcases List.mem_cons.mp mem with rfl | later
      · exact above.2.1
      · exact ih above.2.2 later

theorem Code.mem_tags {own : Line} {label : Label} {i : Nat} (at_ : code[i]? = some own)
    (tag : own.tag? = some label) : (label, d + shift (code.take i)) ∈ tags d code := by
  induction code generalizing d i with
  | nil => simp at at_
  | cons other rest ih =>
      rw [Code.tags_cons, List.mem_append]
      cases i with
      | zero =>
          obtain rfl : other = own := by simpa using at_
          left
          simp [tag]
      | succ i =>
          right
          rw [List.take_succ_cons, Code.shift_cons, ← Int.add_assoc]
          exact ih (by simpa using at_)

theorem depthAt_follows (above : Above 0 0 code) : Follows (depthAt code) 0 0 code := by
  intro k _
  have nonneg := above.take k
  rw [Nat.zero_add, depthAt]
  omega

namespace Follows

theorem start (follows : Follows depth d line code) : (depth line : Int) = d := by
  simpa using follows 0 (Nat.zero_le _)

theorem stop (follows : Follows depth d line code) :
    (depth (line + code.length) : Int) = d + shift code := by
  simpa using follows code.length (Nat.le_refl _)

theorem left (follows : Follows depth d line (first ++ second)) : Follows depth d line first := by
  intro k le
  rw [follows k (by rw [List.length_append]; omega), List.take_append_of_le_length le]

theorem right (follows : Follows depth d line (first ++ second)) :
    Follows depth (d + shift first) (line + first.length) second := by
  intro k le
  have both := follows (first.length + k) (by rw [List.length_append]; omega)
  rwa [List.take_length_add_append, Code.shift_append, ← Int.add_assoc, ← Nat.add_assoc] at both

theorem behind (still : shift first = 0) (follows : Follows depth d line (first ++ second)) :
    Follows depth d (line + first.length) second := by
  have later := follows.right
  rwa [still, Int.add_zero] at later

/-- The lines can be counted from where the code begins. -/
theorem shifted (follows : Follows depth d line code) :
    Follows (fun i => depth (line + i)) d 0 code := by
  intro k le
  rw [Nat.zero_add]
  exact follows k le

theorem ge_of_above {base : Nat} (follows : Follows depth d line code) (above : Above base d code)
    {k : Nat} (le : k ≤ code.length) : base ≤ depth (line + k) := by
  have reached := above.take k
  rw [← follows k le] at reached
  exact_mod_cast reached

end Follows

/-- The lines of a piece have depths as they are supposed to be. -/
theorem Piece.annotates {n n' : Nat} {gain : Int} (piece : Piece n code gain n') :
    Annotates (depthAt code) code := by
  have follows := depthAt_follows (piece.above 0)
  have tagged := piece.tags 0
  have depth_eq : ∀ {i : Nat} {own : Line}, code[i]? = some own →
      (depthAt code i : Int) = 0 + Code.shift (code.take i) := by
    intro i own at_
    have bound := (List.getElem?_eq_some_iff.mp at_).1
    simpa using follows i (Nat.le_of_lt bound)
  refine ⟨fun i own at_ => ⟨(piece.above 0).tracked (List.mem_of_getElem? at_), ?_⟩, ?_, ?_⟩
  · have bound := (List.getElem?_eq_some_iff.mp at_).1
    have next := follows (i + 1) bound
    rw [List.take_add_one, at_, Option.toList_some, Code.shift_append, Code.shift_cons,
      Code.shift_nil, Int.add_zero, Nat.zero_add] at next
    rw [depth_eq at_, next, Int.add_assoc]
  · intro i j cond target place jumps stands generated same
    have jumped := Code.mem_tags (d := 0) jumps (Line.tag?_jump cond target)
    have placed := Code.mem_tags (d := 0) stands (by rw [Line.tag?_label, if_pos generated])
    have equal : place = target :=
      Label.print_injective generated (tagged.generated _ jumped) same
    have depths := tagged.single _ jumped _ placed (by rw [equal])
    have : (depthAt code i : Int) = depthAt code j := by
      rw [depth_eq jumps, depth_eq stands]
      exact depths
    exact_mod_cast this
  · intro i cond target jumps
    exact tagged.generated _ (Code.mem_tags (d := 0) jumps (Line.tag?_jump cond target))

/-- Code between an instruction that saves a register and one that reads it again. -/
def around (reg : Reg) (read : Instr) (inner : Code) : Code :=
  .instr (.push .plain (.reg reg)) :: (inner ++ [.instr read])

/-- What is pushed before a piece that leaves the stack alone can be taken off behind it. -/
theorem Piece.around {n n' : Nat} (piece : Piece n code 0 n') (reg : Reg) (read : Instr)
    (tracked : read.tracked = true) (noTag : (Line.instr read).tag? = none)
    (shifted : read.shift = -4) : Piece n (around reg read code) 0 n' := by
  have pushed : Piece n [.instr (.push .plain (.reg reg))] 4 n := line_piece rfl rfl n
  exact (pushed.still piece).step tracked noTag (by rw [shifted]; rfl) (Int.le_refl 0)

theorem Restores.of_around {n n' entry exit : Nat} {inner : Code} {reg : Reg} {read : Instr}
    (before after : Code) (follows : Follows depth d 0 code)
    (split : code = before ++ around reg read inner ++ after) (piece : Piece n inner 0 n')
    (enters : before.length < entry) (exits : exit ≤ before.length + 1 + inner.length) :
    Restores depth code entry exit (.push .plain (.reg reg)) read := by
  have whole : code = before ++ [.instr (.push .plain (.reg reg))] ++ inner ++
      (.instr read :: after) := by simp [split, around]
  rw [whole] at follows ⊢
  have within := follows.left.right
  rw [Nat.zero_add, List.length_append, List.length_singleton] at within
  have start := within.start
  have stop := within.stop
  rw [piece.shift, Int.add_zero] at stop
  have level : depth (before.length + 1) = depth (before.length + 1 + inner.length) := by
    exact_mod_cast start.trans stop.symm
  refine ⟨before.length, before.length + 1 + inner.length, enters, exits, ?_, ?_, level,
    fun k low high => ?_⟩
  · simp
  · have place : before.length + 1 + inner.length =
        (before ++ [Line.instr (.push .plain (.reg reg))] ++ inner).length := by
      rw [List.length_append, List.length_append, List.length_singleton]
    rw [place, List.getElem?_append_right (Nat.le_refl _), Nat.sub_self]
    rfl
  · obtain ⟨m, rfl⟩ : ∃ m, k = before.length + 1 + m := ⟨k - (before.length + 1), by omega⟩
    rw [← level, ← Int.ofNat_le, start, within m (by omega)]
    have reached := (piece.above 0).take m
    omega

namespace Machine

variable {m m' : Machine}

/-- A name is found at a label that is written like it. -/
theorem exists_label_of_find? {name : String} {line : Nat} (found : find? code name = some line) :
    ∃ label, code[line]? = some (.label label) ∧ label.print = name := by
  induction code generalizing line with
  | nil => exact absurd found (Option.some_ne_none line).symm
  | cons first rest ih =>
      rw [find?] at found
      cases below : find? rest name with
      | some later =>
          rw [below] at found
          obtain rfl := Option.some.inj found
          exact ih below
      | none =>
          rw [below] at found
          by_cases defined : first.defined? = some name
          · obtain rfl : 0 = line := by simpa [defined] using found
            cases first with
            | label label => exact ⟨label, rfl, Option.some.inj defined⟩
            | _ => exact absurd defined (Option.some_ne_none name).symm
          · simp [defined] at found

/-- The machine goes on inside a frame. A call counts as one step, which is over when the call
    is back behind it with the stack as it was. -/
inductive Within (image : Image) : Machine → Machine → Prop where
  | step {m m' : Machine} : m.step image = .goes m' →
      (∀ op, image.code[m.line]? = some (.instr op) →
        op ≠ .leave ∧ op ≠ .ret ∧ ∀ target, op ≠ .call target) → Within image m m'
  | call {m m' : Machine} {target : Label} : image.code[m.line]? = some (.instr (.call target)) →
      Reaches image m m' → m'.line = m.line + 1 → m'.regs .esp = m.regs .esp → Within image m m'

end Machine

namespace Annotates

variable {image : Image} (annotated : Annotates depth image.code)
  (apart : ∀ place target : Label, .label place ∈ image.code → target.isGenerated = true →
    place.print = target.print → place.isGenerated = true)
  {m m' : Machine}

include annotated

theorem still {i : Nat} {line : Line} (at_ : image.code[i]? = some line) (none : line.shift = 0) :
    depth (i + 1) = depth i := by
  have deeper := (annotated.step i line at_).2
  omega

theorem esp_execute {op : Instr} (at_ : image.code[m.line]? = some (.instr op))
    (stays : op ≠ .leave) (executed : m.execute? op = some m') :
    m'.regs .esp + .ofNat 32 (depth (m.line + 1)) = m.regs .esp + .ofNat 32 (depth m.line) := by
  obtain ⟨tracked, deeper⟩ := annotated.step m.line _ at_
  have moved := (Machine.moved_of_execute? tracked stays executed).1
  have next : (depth (m.line + 1) : Int) = depth m.line + op.shift := deeper
  rw [moved, ← BitVec.ofInt_natCast, next, BitVec.ofInt_add, BitVec.ofInt_natCast,
    BitVec.add_comm (.ofNat 32 _), ← BitVec.add_assoc, BitVec.sub_add_cancel]

include apart

theorem esp_jump {cond : Jump} {target : Label}
    (at_ : image.code[m.line]? = some (.instr (.jump cond target)))
    (goes : m.step image = .goes m') :
    m'.regs .esp + .ofNat 32 (depth m'.line) = m.regs .esp + .ofNat 32 (depth m.line) := by
  by_cases holds : m.flags.holds cond = true
  · cases found : Machine.find? image.code target.print with
    | none => simp [Machine.step, at_, holds, found] at goes
    | some line =>
        obtain rfl : m.goto line = m' := by
          simpa [Machine.step, at_, holds, found] using goes
        obtain ⟨place, stands, same⟩ := Machine.exists_label_of_find? found
        have generated := apart place target (List.mem_of_getElem? stands)
          (annotated.generated _ _ _ at_) same
        rw [Machine.line_goto, Machine.regs_goto,
          annotated.jump _ _ _ _ _ at_ stands generated same]
  · obtain rfl : m.next = m' := by simpa [Machine.step, at_, holds] using goes
    rw [Machine.line_next, annotated.still at_ rfl, Machine.regs_next]

/-- Stack pointer and depth make up one address, which no step inside a frame changes. -/
theorem esp_within (within : Machine.Within image m m') :
    m'.regs .esp + .ofNat 32 (depth m'.line) = m.regs .esp + .ofNat 32 (depth m.line) := by
  cases within with
  | call at_ _ line top => rw [line, top, annotated.still at_ rfl]
  | step goes stays =>
      cases at_ : image.code[m.line]? with
      | none => simp [Machine.step, at_] at goes
      | some line =>
          cases line with
          | text | globl | comment | label =>
              obtain rfl : m.next = m' := by simpa [Machine.step, at_] using goes
              rw [Machine.line_next, annotated.still at_ rfl, Machine.regs_next]
          | instr op =>
              obtain ⟨notLeave, notRet, notCall⟩ := stays op at_
              cases executed : m.execute? op with
              | some machine =>
                  rw [Machine.step_instr at_ executed] at goes
                  obtain rfl := Progress.goes.inj goes
                  rw [Machine.line_next, Machine.regs_next, Machine.line_of_execute? executed]
                  exact annotated.esp_execute at_ notLeave executed
              | none =>
                  cases op with
                  | jump => exact annotated.esp_jump apart at_ goes
                  | call target => exact absurd rfl (notCall target)
                  | ret => exact absurd rfl notRet
                  | _ => simp [Machine.step, at_, executed] at goes

/-- The depth of a line is how far the stack pointer is below the place where it was at depth
    nought, however the machine got there. -/
theorem esp_of_reaches (run : Relation.ReflTransGen (Machine.Within image) m m') :
    m'.regs .esp + .ofNat 32 (depth m'.line) = m.regs .esp + .ofNat 32 (depth m.line) := by
  induction run with
  | refl => rfl
  | tail _ within ih => exact (annotated.esp_within apart within).trans ih

end Annotates

private theorem stmtCode_piece {ctx : Context} {stmt : Stmt} {n : Nat} {code : Code} {n' : Nat}
    (made : (stmtCode ctx stmt).Makes n code n') : Piece n code 0 n' := by
  have alone : (stmtsCode ctx [stmt]).Makes n (code ++ []) n' := by
    simp only [stmtsCode, Gen.makes_bind, Gen.makes_pure]
    exact ⟨code, n', made, [], n', ⟨rfl, rfl⟩, rfl, rfl⟩
  rw [List.append_nil] at alone
  exact (stmtsCode_makes alone).piece

section Levels

variable {ctx : Context} {base : Nat} {n n' : Nat}

/-- Wherever the code of some statements begins at a depth, each of them comes back to it. -/
def Level (ctx : Context) (depth : Nat → Nat) (base : Nat) (stmts : List Stmt) : Prop :=
  ∀ {n code n' line}, (stmtsCode ctx stmts).Makes n code n' → Follows depth base line code →
    Levels ctx depth base (Stmt.liveAll ctx.known stmts) line code

private theorem when_inside {cond : Expr} {body : List Stmt} (level : Level ctx depth base body)
    (made : (stmtCode ctx (.when cond body)).Makes n code n')
    (follows : Follows depth base line code) :
    LevelsInside ctx depth base (Stmt.live ctx.known (.when cond body)) line code := by
  rw [Stmt.live, LevelsInside]
  cases known : ctx.known cond with
  | none =>
      simp only [stmtCode, known, Gen.makes_bind, Gen.makes_newNumber, Gen.makes_pure] at made
      obtain ⟨_, _, ⟨rfl, rfl⟩, test, _, tested, inner, _, made, rfl, rfl⟩ := made
      have still := (conditionCode_piece tested).shift
      exact ⟨_, inner, _, rfl, level made (follows.left.behind (by simp [still]))⟩
  | some value =>
      by_cases isTrue : value = 1
      · simp only [stmtCode, known, isTrue, if_true, Gen.makes_bind, Gen.makes_pure] at made
        obtain ⟨inner, _, made, rfl, rfl⟩ := made
        simp only [isTrue, Option.all_some, beq_self_eq_true, if_true]
        exact ⟨_, inner, [], (List.append_nil _).symm,
          level made (follows.behind (note_piece _ _ n).shift)⟩
      · simp only [isTrue, Option.all_some, beq_iff_eq, if_false]
        exact ⟨code, [], [], by simp, rfl⟩

private theorem choose_inside {cond : Expr} {thens elses : List Stmt}
    (level : Level ctx depth base thens)
    (level' : Level ctx depth base elses)
    (made : (stmtCode ctx (.choose cond thens elses)).Makes n code n')
    (follows : Follows depth base line code) :
    LevelsInside ctx depth base (Stmt.live ctx.known (.choose cond thens elses)) line code := by
  rw [Stmt.live, LevelsInside]
  cases known : ctx.known cond with
  | none =>
      simp only [stmtCode, known, Gen.makes_bind, Gen.makes_newNumber, Gen.makes_pure] at made
      obtain ⟨_, _, ⟨rfl, rfl⟩, _, _, ⟨rfl, rfl⟩, test, _, tested, inner, _, made, other, _,
        madeOther, rfl, rfl⟩ := made
      have still := (conditionCode_piece tested).shift
      have still' := (stmtsCode_makes made).piece.shift
      exact ⟨_, inner, _, other, _, rfl,
        level made (follows.left.left.left.behind (by simp [still])),
        level' madeOther (follows.left.behind (by simp [still, still']))⟩
  | some value =>
      by_cases isTrue : value = 1
      · simp only [stmtCode, known, isTrue, if_true, Gen.makes_bind, Gen.makes_pure] at made
        obtain ⟨inner, _, made, rfl, rfl⟩ := made
        simp only [isTrue, Option.all_some, beq_self_eq_true, bne_self_eq_false, if_true]
        exact ⟨_, inner, [], [], [], by simp,
          level made (follows.behind (note_piece _ _ n).shift), rfl⟩
      · simp only [stmtCode, known, isTrue, if_false, Gen.makes_bind, Gen.makes_pure] at made
        obtain ⟨inner, _, made, rfl, rfl⟩ := made
        have behind := follows.behind (note_piece ctx _ n).shift
        simp only [isTrue, Option.all_some, beq_iff_eq, bne_iff_ne, ne_eq, not_false_eq_true,
          if_true, if_false]
        exact ⟨ctx.note "if/else folded to false", [], [], inner, [], by simp, rfl,
          level' made (by simpa using behind)⟩

private theorem loop_inside {cond : Expr} {body : List Stmt} (level : Level ctx depth base body)
    (made : (stmtCode ctx (.loop cond body)).Makes n code n')
    (follows : Follows depth base line code) :
    LevelsInside ctx depth base (Stmt.live ctx.known (.loop cond body)) line code := by
  rw [Stmt.live, LevelsInside]
  cases known : ctx.known cond with
  | none =>
      simp only [stmtCode, known, Gen.makes_bind, Gen.makes_newNumber, Gen.makes_pure] at made
      obtain ⟨_, _, ⟨rfl, rfl⟩, test, _, tested, inner, _, made, rfl, rfl⟩ := made
      have still := (conditionCode_piece tested).shift
      exact ⟨_, inner, _, rfl, level made (follows.left.behind (by simp [still]))⟩
  | some value =>
      by_cases isTrue : value = 1
      · simp only [stmtCode, known, isTrue, if_true, Gen.makes_bind, Gen.makes_newNumber,
          Gen.makes_pure] at made
        obtain ⟨number, _, ⟨rfl, rfl⟩, inner, _, made, rfl, rfl⟩ := made
        have still := (note_piece ctx "while folded to true" number).shift
        simp only [isTrue, Option.all_some, beq_self_eq_true, if_true]
        exact ⟨_, inner, _, rfl, level made (follows.left.behind (by simp [still]))⟩
      · simp only [isTrue, Option.all_some, beq_iff_eq, if_false]
        exact ⟨code, [], [], by simp, rfl⟩

mutual

theorem stmtsCode_levels (stmts : List Stmt) : Level ctx depth base stmts := by
  intro n code n' line made follows
  cases stmts with
  | nil =>
      obtain ⟨rfl, rfl⟩ := (Gen.makes_pure _ _ _ _).mp (by simpa only [stmtsCode] using made)
      rw [Stmt.liveAll, Levels]
  | cons stmt rest =>
      simp only [stmtsCode, Gen.makes_bind, Gen.makes_pure] at made
      obtain ⟨own, _, first, later, _, others, rfl, rfl⟩ := made
      have still := (stmtCode_piece first).shift
      have start := follows.start
      have stop := follows.left.stop
      rw [still, Int.add_zero] at stop
      rw [Stmt.liveAll, Levels]
      exact ⟨own, later, rfl, ⟨_, _, (stmtCode_live ctx stmt).symm ▸ first⟩,
        Int.ofNat.inj start, Int.ofNat.inj stop, stmtCode_inside stmt first follows.left,
        stmtsCode_levels rest others (follows.behind still)⟩

theorem stmtCode_inside (stmt : Stmt) {n : Nat} {code : Code} {n' line : Nat}
    (made : (stmtCode ctx stmt).Makes n code n') (follows : Follows depth base line code) :
    LevelsInside ctx depth base (stmt.live ctx.known) line code := by
  cases stmt with
  | assign | assignIndex | call | callIndex => trivial
  | when cond body => exact when_inside (stmtsCode_levels body) made follows
  | choose cond thens elses =>
      exact choose_inside (stmtsCode_levels thens) (stmtsCode_levels elses) made follows
  | loop cond body => exact loop_inside (stmtsCode_levels body) made follows
  | block body =>
      rw [Stmt.live, LevelsInside]
      exact stmtsCode_levels body (by simpa only [stmtCode] using made) follows

end

end Levels

def restores : Code :=
  [.instr (.pop .edi), .instr (.pop .esi), .instr (.pop .ebx), .instr .leave, .instr .ret]

/-- The pieces of a function whose statements have some code. They make room and give it
    back. -/
structure Pieces (labels grow body result shrink : Code) (room n n₁ n' : Nat) : Prop where
  labels : Piece n labels 0 n
  grow : Piece n grow room n
  body : Piece n body 0 n₁
  result : Piece n₁ result 0 n'
  shrink : ∀ code, Piece n code room n' → Piece n (code ++ shrink) 0 n'

namespace Pieces

variable {labels grow body result shrink : Code} {room n n₁ n' : Nat}
  (pieces : Pieces labels grow body result shrink room n n₁ n')

include pieces

/-- Between the saved registers a function leaves the stack alone. -/
theorem inner : Piece n (grow ++ body ++ result ++ shrink) 0 n' :=
  pieces.shrink _ ((pieces.grow.still pieces.body).still pieces.result)

theorem inEdi : Piece n (around .edi (.pop .edi) (grow ++ body ++ result ++ shrink)) 0 n' :=
  pieces.inner.around .edi (.pop .edi) rfl rfl rfl

theorem inEsi : Piece n (around .esi (.pop .esi) (around .edi (.pop .edi)
    (grow ++ body ++ result ++ shrink))) 0 n' :=
  pieces.inEdi.around .esi (.pop .esi) rfl rfl rfl

theorem inEbx : Piece n ([.instr (.mov .plain (.reg .esp) (.reg .ebp))] ++ around .ebx (.pop .ebx)
    (around .esi (.pop .esi) (around .edi (.pop .edi) (grow ++ body ++ result ++ shrink)))) 0 n' :=
  (line_piece rfl rfl n).still (pieces.inEsi.around .ebx (.pop .ebx) rfl rfl rfl)

theorem whole :
    Piece n (labels ++ saves ++ grow ++ body ++ result ++ (shrink ++ restores)) 0 n' := by
  have returns : Piece n' [.instr .ret] 0 n' := line_piece rfl rfl n'
  have all := (pieces.labels.still (pieces.inEbx.around .ebp .leave rfl rfl rfl)).still
    returns
  simpa [around, saves, restores] using all

theorem shift_start : shift (labels ++ saves ++ grow) = (16 + room : Nat) := by
  have saved : shift saves = 16 := by decide
  simp only [Code.shift_append, pieces.labels.shift, pieces.grow.shift, saved]
  omega

theorem shift_shrink : shift shrink = -room := by
  have all := pieces.inner.shift
  simp only [Code.shift_append, pieces.grow.shift, pieces.body.shift, pieces.result.shift] at all
  omega

variable (follows : Follows depth 0 0
  (labels ++ saves ++ grow ++ body ++ result ++ (shrink ++ restores)))

include follows

/-- What a function saves it finds again. -/
theorem restored (reg : Reg) (mem : reg ∈ [Reg.ebx, .esi, .edi]) : Restores depth
    (labels ++ saves ++ grow ++ body ++ result ++ (shrink ++ restores))
    (labels ++ saves ++ grow).length (labels ++ saves ++ grow ++ body ++ result).length
    (.push .plain (.reg reg)) (.pop reg) := by
  simp only [List.mem_cons, List.not_mem_nil, or_false] at mem
  rcases mem with rfl | rfl | rfl
  · refine .of_around (labels ++ saves.take 2) (restores.drop 3) follows ?_ pieces.inEsi ?_ ?_ <;>
      simp [around, saves, restores]
    omega
  · refine .of_around (labels ++ saves.take 3) (restores.drop 2) follows ?_ pieces.inEdi ?_ ?_ <;>
      simp [around, saves, restores]
    omega
  · refine .of_around (labels ++ saves.take 4) (restores.drop 1) follows ?_ pieces.inner ?_ ?_ <;>
      simp [around, saves, restores]
    omega

theorem frame : Restores depth
    (labels ++ saves ++ grow ++ body ++ result ++ (shrink ++ restores))
    (labels ++ saves ++ grow).length (labels ++ saves ++ grow ++ body ++ result).length
    (.push .plain (.reg .ebp)) .leave := by
  refine .of_around labels (restores.drop 4) follows ?_ pieces.inEbx ?_ ?_ <;>
    simp [around, saves, restores]
  omega

theorem discipline {ctx : Context} {func : Func}
    (made : (stmtsCode ctx func.body).Makes n body n₁) :
    Discipline ctx func (16 + room) depth (labels ++ saves ++ grow) body result
      (shrink ++ restores) := by
  have start := pieces.shift_start
  have enters := follows.left.left.left.stop
  have exits := follows.left.stop
  have inside := follows.left
  rw [List.append_assoc _ body result] at inside
  have inside := inside.right
  rw [start, Int.zero_add, Nat.zero_add] at inside
  -- the end is cut before and behind `leave`
  have cut : shrink ++ restores =
      shrink ++ restores.take 3 ++ [.instr .leave] ++ [.instr .ret] := by
    simp [restores]
  have behind := cut ▸ follows
  rw [← List.append_assoc, ← List.append_assoc] at behind
  have left := behind.left.left.stop
  have done := behind.left.right.stop
  have popped : shift (restores.take 3) = -12 := by decide
  have leave : Line.shift (.instr .leave) = -4 := rfl
  simp only [Code.shift_append, start, pieces.body.shift, pieces.result.shift,
    pieces.shift_shrink, popped, Code.shift_cons, Code.shift_nil, leave,
    List.length_singleton, Nat.zero_add] at enters exits left done
  exact {
    entry := Int.ofNat.inj follows.start
    enters := by omega
    floor := fun k le => inside.ge_of_above ((pieces.body.still pieces.result).above _) le
    statements := stmtsCode_levels func.body made inside.left
    exits := by omega
    restores := pieces.restored follows
    frame := pieces.frame follows
    leaves := ⟨shrink ++ restores.take 3, by simp [restores], by omega, by omega⟩ }

end Pieces

private theorem entryLabels_piece (name : String) (n : Nat) : Piece n (entryLabels name) 0 n := by
  unfold entryLabels
  split
  · exact (line_piece rfl rfl n).append (line_piece rfl rfl n)
  · exact line_piece rfl rfl n

private theorem argumentsCode_piece (params n : Nat) :
    Piece n (argumentsCode params) (params * wordSize : Nat) n := by
  induction params with
  | zero => exact nil_piece n
  | succ params ih =>
      have words : ((params + 1) * wordSize : Nat) = ((params * wordSize : Nat) : Int) + 4 := by
        simp only [wordSize]
        omega
      rw [argumentsCode_succ, words]
      exact ih.append (line_piece rfl rfl n)

private theorem sub_piece (bytes n : Nat) :
    Piece n (if bytes = 0 then [] else [.instr (.arith .sub (.imm bytes) .esp)]) bytes n := by
  split
  · next isZero => exact isZero ▸ nil_piece n
  · have rises : (Line.instr (.arith .sub (.imm bytes) .esp)).rises = true :=
      decide_eq_true (Int.natCast_nonneg bytes)
    exact line_piece rises rfl n

private theorem epilogue_eq (ctx : Context) (bytes : Nat) :
    epilogue ctx bytes = ctx.note "epilogue" ++ release bytes ++ restores :=
  rfl

section Body

variable {ctx : Context} {func : Func} {size n n' : Nat}

theorem bodyCode_pieces (made : (bodyCode ctx func size).Makes n code n') :
    let room := func.params.length * wordSize + (size - func.params.length * wordSize)
    ∃ labels grow body result shrink n₁, start ctx func size = labels ++ saves ++ grow ∧
      epilogue ctx room = shrink ++ restores ∧
      code = start ctx func size ++ body ++ result ++ epilogue ctx room ∧
      (stmtsCode ctx func.body).Makes n body n₁ ∧
      Pieces labels grow body result shrink room n n₁ n' := by
  intro room
  simp only [bodyCode, Gen.makes_bind, Gen.makes_pure] at made
  obtain ⟨body, n₁, made, result, _, computes, rfl, rfl⟩ := made
  obtain ⟨text, opens⟩ := start_eq ctx func size
  rw [List.append_assoc _ (argumentsCode _)] at opens
  exact ⟨_, _, body, ctx.note "return" ++ result, _, n₁, opens, epilogue_eq ctx room,
    by simp only [start, List.append_assoc, room], made, {
      labels := (note_piece ctx text n).still (entryLabels_piece func.name n)
      grow := (argumentsCode_piece _ n).append (sub_piece _ n)
      body := (stmtsCode_makes made).piece
      result := (note_piece ctx "return" n₁).onto (exprCode_makes computes).piece
      shrink := fun code grown => by
        rw [← List.append_assoc]
        exact (grown.still (note_piece _ _ _)).release }⟩

theorem bodyCode_piece (made : (bodyCode ctx func size).Makes n code n') :
    Piece n code 0 n' := by
  obtain ⟨_, _, _, _, _, _, opens, closes, rfl, _, pieces⟩ := bodyCode_pieces made
  rw [opens, closes]
  exact pieces.whole

private theorem bodyCode_disciplined (made : (bodyCode ctx func size).Makes n code n')
    (follows : Follows depth 0 0 code) : func.Disciplined ctx size depth code := by
  obtain ⟨_, _, body, result, _, _, opens, closes, rfl, made, pieces⟩ := bodyCode_pieces made
  refine ⟨body, result, rfl, ?_⟩
  rw [opens, closes] at follows ⊢
  exact pieces.discipline follows made

end Body

section Program

variable {options : Options} {facts : FactTable} {table : Table}

theorem funcCode_makes {func : Func} {n : Nat} {code : Code} {n' : Nat}
    (made : (funcCode options facts table func).Makes n code n') :
    ∃ scope, func.scope = some scope ∧
      (bodyCode { options, facts, lookup := table.lookup scope, scope } func
        (table.scopeSize scope)).Makes n code n' := by
  unfold funcCode at made
  split at made
  · exact absurd made (Gen.makes_throw _ _ _ _)
  · next scope known => exact ⟨scope, known, made⟩

private theorem funcsCode_piece {funcs : List Func} {n : Nat} {code : Code} {n' : Nat}
    (made : (funcsCode options facts table funcs).Makes n code n') : Piece n code 0 n' := by
  induction funcs generalizing n code with
  | nil =>
      obtain ⟨rfl, rfl⟩ := (Gen.makes_pure _ _ _ _).mp made
      exact nil_piece n
  | cons func rest ih =>
      simp only [funcsCode, Gen.makes_bind, Gen.makes_pure] at made
      obtain ⟨own, _, first, later, _, others, rfl, rfl⟩ := made
      obtain ⟨scope, _, first⟩ := funcCode_makes first
      exact (bodyCode_piece first).still (ih others)

private theorem funcsCode_disciplined {funcs : List Func} {n : Nat} {code : Code} {n' : Nat}
    (made : (funcsCode options facts table funcs).Makes n code n')
    (follows : Follows depth 0 line code) :
    Program.Disciplined options facts table depth funcs line code := by
  induction funcs generalizing n code line with
  | nil =>
      obtain ⟨rfl, rfl⟩ := (Gen.makes_pure _ _ _ _).mp made
      rfl
  | cons func rest ih =>
      simp only [funcsCode, Gen.makes_bind, Gen.makes_pure] at made
      obtain ⟨own, _, first, later, _, others, rfl, rfl⟩ := made
      obtain ⟨scope, known, body⟩ := funcCode_makes first
      exact ⟨scope, own, later, known, rfl, ⟨_, _, first⟩,
        bodyCode_disciplined body follows.left.shifted,
        ih others (follows.behind (bodyCode_piece body).shift)⟩

/-- The lines of generated code have depths that every instruction changes by what it pushes
    or takes off and that agree wherever a jump meets a label, and by these depths every
    function keeps the stack in order. -/
theorem generate_disciplined {program : Program} {code : Code} {labels : Nat}
    (made : generate options facts table program = .ok (code, labels)) :
    ∃ depth body, code = header ++ body ∧ Annotates depth code ∧
      Program.Disciplined options facts table depth program header.length body := by
  obtain ⟨body, rfl, makes⟩ := generate_makes made
  have opens : Piece 0 header 0 0 := .of_rises (by decide) (by decide)
  have whole := opens.still (funcsCode_piece makes)
  have follows := (depthAt_follows (whole.above 0)).behind opens.shift
  rw [Nat.zero_add] at follows
  exact ⟨depthAt (header ++ body), body, rfl, whole.annotates, funcsCode_disciplined makes follows⟩

/-- A loop that fills an array with results, so that an index waits below an argument. -/
def fillingText : String :=
  "function f(n: int): int \x7b
     var a: intarray[2];
     while (n < 2) \x7b a[n] = f(n + 1); n = n + 1; \x7d
     return a[0]; \x7d"

theorem filling_disciplined : ∃ program checked checker code labels,
    (readProgram fillingText).result = .ok program ∧ program.check = .ok checked checker ∧
      generate {} .empty checker.table checked = .ok (code, labels) ∧
        ∃ depth body, code = header ++ body ∧ Annotates depth code ∧
          Program.Disciplined {} .empty checker.table depth checked header.length body := by
  obtain ⟨program, read, accepted⟩ := exists_ok_of_any (x := (readProgram fillingText).result)
    (p := fun program => (checkProgram program).result.toOption.any fun made =>
      (generate {} .empty made.2 made.1).toOption.any fun _ => true) (by decide +kernel)
  obtain ⟨⟨checked, table⟩, made, generated⟩ := exists_ok_of_any accepted
  obtain ⟨checker, passed, rfl⟩ := checkProgram_eq_ok.mp made
  obtain ⟨⟨code, labels⟩, made, _⟩ := exists_ok_of_any generated
  exact ⟨program, checked, checker, code, labels, read, passed, made, generate_disciplined made⟩

end Program

end Wordlang.Asm
