import Wordlang.Asm.Delivery

/-! # Execution of code in place

Code of a part of a program stands somewhere in the code of the whole, and what
the machine does there does not depend on what stands around it. `Leads` says
that the machine passes a piece of code from its first line to the line behind
its last one and then satisfies a condition; pieces compose by `Leads.append`.
Whether the stack fits is assumed once, for the whole run, and handed to the
conditions of the instructions that lower the stack pointer.
-/

namespace Wordlang.Asm

def CodeAt (code : Code) (line : Nat) (piece : Code) : Prop :=
  ∀ i < piece.length, code[line + i]? = piece[i]?

namespace CodeAt

theorem all (code : Code) : CodeAt code 0 code := by
  intro i _
  rw [Nat.zero_add]

theorem append_iff {code line first second} : CodeAt code line (first ++ second) ↔
    CodeAt code line first ∧ CodeAt code (line + first.length) second := by
  constructor
  · intro h
    refine ⟨fun i hi => ?_, fun i hi => ?_⟩
    · rw [h i (by simp only [List.length_append]; omega), List.getElem?_append_left hi]
    · have at_ := h (first.length + i) (by simp only [List.length_append]; omega)
      rwa [List.getElem?_append_right (by omega), Nat.add_sub_cancel_left, ← Nat.add_assoc] at at_
  · rintro ⟨h₁, h₂⟩ i hi
    rw [List.length_append] at hi
    by_cases inFirst : i < first.length
    · rw [h₁ i inFirst, List.getElem?_append_left inFirst]
    · rw [List.getElem?_append_right (by omega), ← h₂ (i - first.length) (by omega)]
      congr 1
      omega

theorem cons_iff {code line op rest} : CodeAt code line (op :: rest) ↔
    code[line]? = some op ∧ CodeAt code (line + 1) rest := by
  rw [← List.singleton_append, append_iff]
  refine and_congr_left' ⟨fun h => h 0 (by simp), fun h i hi => ?_⟩
  obtain rfl : i = 0 := by simpa using hi
  exact h

end CodeAt

namespace Machine

theorem find?_eq_none {code : Code} {name : String} (h : name ∉ Code.labels code) :
    find? code name = none := by
  induction code with
  | nil => rfl
  | cons first rest ih =>
      have notFirst : first.defined? ≠ some name :=
        fun same => h (List.mem_filterMap.mpr ⟨first, List.mem_cons_self, same⟩)
      have notRest : name ∉ Code.labels rest := by
        intro inRest
        obtain ⟨found, mem, same⟩ := List.mem_filterMap.mp inRest
        exact h (List.mem_filterMap.mpr ⟨found, List.mem_cons_of_mem _ mem, same⟩)
      simp only [find?, ih notRest, if_neg notFirst]

/-- A code that defines no name twice is entered at a label where it stands. -/
theorem find?_eq {code : Code} {line : Nat} {label : Label}
    (unique : (Code.labels code).Nodup) (h : code[line]? = some (.label label)) :
    find? code label.print = some line := by
  induction code generalizing line with
  | nil => simp at h
  | cons first rest ih =>
      cases line with
      | zero =>
          obtain rfl : first = .label label := by simpa using h
          have named : (Line.label label).defined? = some label.print := rfl
          rw [Code.labels, List.filterMap_cons_some named, List.nodup_cons] at unique
          simp only [find?, find?_eq_none unique.1, named, if_pos]
      | succ line =>
          have uniqueRest : (Code.labels rest).Nodup :=
            unique.sublist ((List.sublist_cons_self first rest).filterMap _)
          simp only [find?, ih uniqueRest (by simpa using h)]

/-- The stack stays inside the address space for ever. -/
def Fits (image : Image) (m : Machine) : Prop := ∀ steps, m.fitsFor image steps = true

theorem Fits.hasRoom {image m} (fits : Fits image m) : m.hasRoom image = true := by
  have first := fits 1
  simp only [fitsFor, Bool.and_eq_true] at first
  exact first.1

theorem Fits.step {image m m'} (fits : Fits image m) (h : m.step image = .goes m') :
    Fits image m' := by
  intro steps
  have later := fits (steps + 1)
  simp only [fitsFor, h, Bool.and_eq_true] at later
  exact later.2

theorem Fits.reaches {image m m'} (fits : Fits image m) (h : Reaches image m m') :
    Fits image m' := by
  induction h with
  | refl => exact fits
  | tail _ step ih => exact ih.step step

/-- A run that reaches the end of the outermost call ends there. -/
theorem run_of_reaches {image m m' last} (h : Reaches image m m')
    (ends : m'.step image = .ends last) : ∃ steps, run image steps m = some last := by
  induction h using Relation.ReflTransGen.head_induction_on with
  | refl => exact ⟨1, by simp only [run, ends]⟩
  | head step _ ih =>
      obtain ⟨steps, finished⟩ := ih
      exact ⟨steps + 1, by simp only [run, step, finished]⟩

section Parts

variable (m : Machine) (reg other : Reg) (value address : Word) (content : Content) (line : Nat)

@[simp] theorem regs_setReg :
    (m.setReg reg value).regs other = if other = reg then value else m.regs other := rfl

@[simp] theorem setReg_self : m.setReg reg (m.regs reg) = m := by
  have same : (fun other => if other = reg then m.regs reg else m.regs other) = m.regs := by
    funext other
    split
    · next h => rw [h]
    · rfl
  rw [setReg, same]

@[simp] theorem memory_setReg : (m.setReg reg value).memory = m.memory := rfl

@[simp] theorem flags_setReg : (m.setReg reg value).flags = m.flags := rfl

@[simp] theorem line_setReg : (m.setReg reg value).line = m.line := rfl

@[simp] theorem regs_setMem : (m.setMem address content).regs = m.regs := rfl

@[simp] theorem line_setMem : (m.setMem address content).line = m.line := rfl

@[simp] theorem memory_setMem (place : Word) : (m.setMem address content).memory place =
    if place = address then content else m.memory place := rfl

@[simp] theorem regs_goto : (m.goto line).regs = m.regs := rfl

@[simp] theorem memory_goto : (m.goto line).memory = m.memory := rfl

@[simp] theorem flags_goto : (m.goto line).flags = m.flags := rfl

@[simp] theorem line_goto : (m.goto line).line = line := rfl

@[simp] theorem regs_next : m.next.regs = m.regs := rfl

@[simp] theorem memory_next : m.next.memory = m.memory := rfl

@[simp] theorem flags_next : m.next.flags = m.flags := rfl

@[simp] theorem line_next : m.next.line = m.line + 1 := rfl

@[simp] theorem regs_push : (m.push content).regs other =
    if other = .esp then m.regs .esp - 4 else m.regs other := rfl

@[simp] theorem memory_push (place : Word) : (m.push content).memory place =
    if place = m.regs .esp - 4 then content else m.memory place := rfl

@[simp] theorem line_push : (m.push content).line = m.line := rfl

@[simp] theorem regs_drop : m.drop.regs other =
    if other = .esp then m.regs .esp + 4 else m.regs other := rfl

@[simp] theorem memory_drop : m.drop.memory = m.memory := rfl

@[simp] theorem line_drop : m.drop.line = m.line := rfl

end Parts

section Steps

variable {image : Image} {m m' : Machine}

theorem step_instr {instr : Instr} (h : image.code[m.line]? = some (.instr instr))
    (executed : m.execute? instr = some m') : m.step image = .goes m'.next := by
  cases instr with
  | jump | call | ret => simp [execute?] at executed
  | _ => simp only [step, h, executed]

theorem step_label {label : Label} (h : image.code[m.line]? = some (.label label)) :
    m.step image = .goes m.next := by
  simp only [step, h]

private theorem step_comment {text : String} (h : image.code[m.line]? = some (.comment text)) :
    m.step image = .goes m.next := by
  simp only [step, h]

theorem step_jump {cond : Jump} {target : Label} {line : Nat}
    (h : image.code[m.line]? = some (.instr (.jump cond target)))
    (taken : m.flags.holds cond = true) (found : find? image.code target.print = some line) :
    m.step image = .goes (m.goto line) := by
  simp only [step, h, taken, found, if_pos]

theorem step_jump_not {cond : Jump} {target : Label}
    (h : image.code[m.line]? = some (.instr (.jump cond target)))
    (notTaken : m.flags.holds cond = false) : m.step image = .goes m.next := by
  simp only [step, h, notTaken, Bool.false_eq_true, if_false]

theorem step_call {target : Label} {line : Nat}
    (h : image.code[m.line]? = some (.instr (.call target)))
    (found : find? image.code target.print = some line) :
    m.step image = .goes ((m.push (.back (some (m.line + 1)))).goto line) := by
  simp only [step, h, found]

theorem step_ret {line : Nat} (h : image.code[m.line]? = some (.instr .ret))
    (back : m.memory (m.regs .esp) = .back (some line)) :
    m.step image = .goes (m.drop.goto line) := by
  simp only [step, h, back]

theorem step_ret_outside (h : image.code[m.line]? = some (.instr .ret))
    (back : m.memory (m.regs .esp) = .back none) : m.step image = .ends m.drop := by
  simp only [step, h, back]

end Steps

/-- Where a piece stands and the stack fits, the machine passes the piece, and behind it
    the condition holds. -/
def Leads (image : Image) (piece : Code) (m : Machine) (post : Machine → Prop) : Prop :=
  CodeAt image.code m.line piece → Fits image m →
    ∃ m', Reaches image m m' ∧ m'.line = m.line + piece.length ∧ post m'

namespace Leads

variable {image : Image} {m : Machine} {post : Machine → Prop}

theorem nil (h : post m) : Leads image [] m post :=
  fun _ _ => ⟨m, .refl, rfl, h⟩

theorem weaken {piece : Code} {pre : Machine → Prop} (h : Leads image piece m pre)
    (imp : ∀ m', pre m' → post m') : Leads image piece m post := by
  intro placed fits
  obtain ⟨m', reached, line, holds⟩ := h placed fits
  exact ⟨m', reached, line, imp m' holds⟩

theorem append {first second : Code}
    (h : Leads image first m fun m' => Leads image second m' post) :
    Leads image (first ++ second) m post := by
  intro placed fits
  obtain ⟨placed₁, placed₂⟩ := CodeAt.append_iff.mp placed
  obtain ⟨m₁, reached₁, line₁, later⟩ := h placed₁ fits
  obtain ⟨m₂, reached₂, line₂, holds⟩ := later (line₁ ▸ placed₂) (fits.reaches reached₁)
  refine ⟨m₂, reached₁.trans reached₂, ?_, holds⟩
  rw [line₂, line₁, List.length_append, Nat.add_assoc]

theorem cons {op : Line} {rest : Code}
    (h : Leads image [op] m fun m' => Leads image rest m' post) :
    Leads image (op :: rest) m post :=
  append h

theorem step {op : Line} {m' : Machine} (line : m'.line = m.line + 1) (holds : post m')
    (goes : image.code[m.line]? = some op → Fits image m → m.step image = .goes m') :
    Leads image [op] m post :=
  fun placed fits =>
    ⟨m', .single (goes (CodeAt.cons_iff.mp placed).1 fits), line, holds⟩

theorem label {place : Label} (h : post m.next) : Leads image [.label place] m post :=
  step rfl h fun placed _ => step_label placed

theorem comment {text : String} (h : post m.next) : Leads image [.comment text] m post :=
  step rfl h fun placed _ => step_comment placed

/-- Where the next line is does not matter for what follows. -/
theorem instr {op : Instr} {m' : Machine} (executed : m.execute? op = some m')
    (line : m'.line = m.line)
    (h : ∀ next : Machine, next.regs = m'.regs → next.memory = m'.memory →
      next.flags = m'.flags → post next) : Leads image [.instr op] m post := by
  have lines : m'.next.line = m.line + 1 := by rw [line_next, line]
  exact step lines (h _ rfl rfl rfl) fun placed _ => step_instr placed executed

theorem push {width : Width} {source : Operand} {value : Word}
    (read : m.read? source = some value)
    (h : 4 ≤ m.top → post (m.push (.word value)).next) :
    Leads image [.instr (.push width source)] m post := by
  intro placed fits
  have at_ := (CodeAt.cons_iff.mp placed).1
  have room : 4 ≤ m.top := by
    have room := fits.hasRoom
    simpa only [hasRoom, at_, decide_eq_true_eq] using room
  have executed : m.execute? (.push width source) = some (m.push (.word value)) := by
    simp only [execute?, read]
    rfl
  exact ⟨_, .single (step_instr at_ executed), rfl, h room⟩

theorem pop {reg : Reg} {value : Word} (loaded : m.memory (m.regs .esp) = .word value)
    (h : ∀ next : Machine, next.regs = (m.drop.setReg reg value).regs →
      next.memory = m.memory → post next) : Leads image [.instr (.pop reg)] m post := by
  have executed : m.execute? (.pop reg) = some (m.drop.setReg reg value) := by
    simp only [execute?, pop?, load?, loaded]
    rfl
  exact .instr executed rfl fun next regs memory _ => h next regs memory

/-- What is reserved lies inside the address space. -/
theorem reserve {bytes : Nat} (h : bytes ≤ m.top → ∀ next : Machine,
      next.regs = (m.setReg .esp (m.regs .esp - .ofNat 32 bytes)).regs →
      next.memory = m.memory → post next) :
    Leads image [.instr (.arith .sub (.imm bytes) .esp)] m post := by
  intro placed fits
  have at_ := (CodeAt.cons_iff.mp placed).1
  have room : bytes ≤ m.top := by
    have room := fits.hasRoom
    simp only [hasRoom, at_, decide_eq_true_eq] at room
    omega
  refine ⟨_, .single (step_instr at_ rfl), rfl, h room _ ?_ rfl⟩
  rw [← BitVec.ofInt_natCast]
  rfl

theorem fall {cond : Jump} {target : Label} (notTaken : m.flags.holds cond = false)
    (h : post m.next) : Leads image [.instr (.jump cond target)] m post :=
  step rfl h fun placed _ => step_jump_not placed notTaken

theorem skip (unique : (Code.labels image.code).Nodup) {cond : Jump} {target : Label}
    {between : Code} (taken : m.flags.holds cond = true) (h : ∀ line, post (m.goto line)) :
    Leads image (.instr (.jump cond target) :: (between ++ [.label target])) m post := by
  intro placed _
  obtain ⟨jump, rest⟩ := CodeAt.cons_iff.mp placed
  have label := (CodeAt.cons_iff.mp (CodeAt.append_iff.mp rest).2).1
  let landed := m.goto (m.line + 1 + between.length)
  have leaves : m.step image = .goes landed := step_jump jump taken (find?_eq unique label)
  refine ⟨landed.next, .head leaves (.single (step_label label)), ?_, h _⟩
  simp only [landed, line_next, line_goto, List.length_cons, List.length_append, List.length_nil]
  omega

/-- A jump back to the start of a piece of code, which is then passed from there. -/
theorem again (unique : (Code.labels image.code).Nodup) {target : Label}
    {whole front back tail : Code} (parts : whole = front ++ .instr (.jump .always target) :: back)
    (start : whole = .label target :: tail)
    (h : Leads image front m fun m' => Leads image whole (m'.goto m.line) post) :
    Leads image whole m post := by
  intro placed fits
  have label := (CodeAt.cons_iff.mp (start ▸ placed)).1
  obtain ⟨placedFront, placedBack⟩ := CodeAt.append_iff.mp (parts ▸ placed)
  obtain ⟨m', reached, line, later⟩ := h placedFront fits
  have jump := (CodeAt.cons_iff.mp placedBack).1
  rw [← line] at jump
  have back : Reaches image m (m'.goto m.line) :=
    reached.tail (step_jump jump rfl (find?_eq unique label))
  obtain ⟨last, reached', line', holds⟩ := later placed (fits.reaches back)
  exact ⟨last, back.trans reached', line', holds⟩

section Branches

abbrev jump (cond : Jump) (target : Label) : Code := [.instr (.jump cond target)]

abbrev mark (place : Label) : Code := [.label place]

abbrev jumpPast (cond : Jump) (target place : Label) : Code :=
  [.instr (.jump cond target), .label place]

variable {test inner first second later : Code} {head otherwise done : Label}

theorem when_taken (h : Leads image test m fun m₁ => m₁.flags.holds .notEqual = false ∧
      Leads image inner m₁.next fun m₂ => Leads image later m₂.next post) :
    Leads image (test ++ jump .notEqual done ++ inner ++ mark done ++ later) m post := by
  apply append
  apply append
  apply append
  apply append
  apply h.weaken
  rintro m₁ ⟨notTaken, h⟩
  apply fall notTaken
  apply h.weaken
  exact fun m₂ h => label h

variable (unique : (Code.labels image.code).Nodup)

include unique

theorem when_skipped (h : Leads image test m fun m₁ => m₁.flags.holds .notEqual = true ∧
      ∀ line, Leads image later (m₁.goto line) post) :
    Leads image (test ++ jump .notEqual done ++ inner ++ mark done ++ later) m post := by
  have parts : test ++ jump .notEqual done ++ inner ++ mark done ++ later =
      test ++ (.instr (.jump .notEqual done) :: (inner ++ mark done) ++ later) := by simp
  rw [parts]
  apply append
  apply h.weaken
  rintro m₁ ⟨taken, h⟩
  apply append
  exact skip unique taken h

theorem choose_first (h : Leads image test m fun m₁ => m₁.flags.holds .notEqual = false ∧
      Leads image first m₁.next fun m₂ => ∀ line, Leads image later (m₂.goto line) post) :
    Leads image (test ++ jump .notEqual otherwise ++ first ++ jumpPast .always done otherwise ++
      second ++ mark done ++ later) m post := by
  have parts : test ++ jump .notEqual otherwise ++ first ++
      jumpPast .always done otherwise ++ second ++ mark done ++ later =
      test ++ jump .notEqual otherwise ++ first ++
        (.instr (.jump .always done) :: (.label otherwise :: second ++ mark done) ++ later) := by
    simp
  rw [parts]
  apply append
  apply append
  apply append
  apply h.weaken
  rintro m₁ ⟨notTaken, h⟩
  apply fall notTaken
  apply h.weaken
  intro m₂ h
  apply append
  exact skip unique rfl h

theorem choose_second (h : Leads image test m fun m₁ => m₁.flags.holds .notEqual = true ∧
      ∀ line, Leads image second (m₁.goto line) fun m₂ => Leads image later m₂.next post) :
    Leads image (test ++ jump .notEqual otherwise ++ first ++ jumpPast .always done otherwise ++
      second ++ mark done ++ later) m post := by
  have parts : test ++ jump .notEqual otherwise ++ first ++
      jumpPast .always done otherwise ++ second ++ mark done ++ later =
      test ++ (.instr (.jump .notEqual otherwise) ::
        ((first ++ jump .always done) ++ mark otherwise) ++
          (second ++ (mark done ++ later))) := by
    simp
  rw [parts]
  apply append
  apply h.weaken
  rintro m₁ ⟨taken, h⟩
  apply append
  apply skip unique taken
  intro line
  apply append
  apply (h line).weaken
  intro m₂ h
  apply append
  exact label h

theorem loop_again (h : Leads image test m.next fun m₁ => m₁.flags.holds .notEqual = false ∧
      Leads image inner m₁.next fun m₂ => Leads image (mark head ++ test ++
        jump .notEqual done ++ inner ++ jumpPast .always head done ++
          later) (m₂.goto m.line) post) :
    Leads image (mark head ++ test ++ jump .notEqual done ++ inner ++
      jumpPast .always head done ++ later) m post := by
  have parts : mark head ++ test ++ jump .notEqual done ++ inner ++
      jumpPast .always head done ++ later =
      (mark head ++ test ++ jump .notEqual done ++ inner) ++
        .instr (.jump .always head) :: (.label done :: later) := by simp
  have begins : mark head ++ test ++ jump .notEqual done ++ inner ++
      jumpPast .always head done ++ later =
      .label head :: (test ++ jump .notEqual done ++ inner ++
        jumpPast .always head done ++ later) := by simp
  apply again unique parts begins
  apply append
  apply append
  apply append
  apply label
  apply h.weaken
  rintro m₁ ⟨notTaken, h⟩
  exact fall notTaken h

theorem loop_done (h : Leads image test m.next fun m₁ => m₁.flags.holds .notEqual = true ∧
      ∀ line, Leads image later (m₁.goto line) post) :
    Leads image (mark head ++ test ++ jump .notEqual done ++ inner ++
      jumpPast .always head done ++ later) m post := by
  have parts : mark head ++ test ++ jump .notEqual done ++ inner ++
      jumpPast .always head done ++ later =
      mark head ++ test ++ (.instr (.jump .notEqual done) ::
        ((inner ++ jump .always head) ++ mark done) ++ later) := by simp
  rw [parts]
  apply append
  apply append
  apply label
  apply h.weaken
  rintro m₁ ⟨taken, h⟩
  apply append
  exact skip unique taken h

end Branches

end Leads

end Machine

end Wordlang.Asm
