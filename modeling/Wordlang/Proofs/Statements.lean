import Wordlang.Proofs.Calls

/-! # Statements by generated code

The code of statements, run on a machine that shows a store, leaves the machine
showing the store that the statements make of it, and nothing above the frame has
changed. The proof follows the run of the source: each unit of its fuel is one
statement, one pass through a loop or one call, and a call is the run of a body in
a frame further down.
-/

namespace Wordlang.Asm

namespace Machine

variable {image : Image} {m : Machine}

section Assignments

variable {lookup : Lookup} {size : Nat} {store store' : Store}

theorem Runs.stored (runs : Runs lookup size store m) {target : String} {symbol : Symbol} {i : Nat}
    {value : Word} (found : lookup target = some symbol)
    (written : store.Writes target i value store')
    {address : Address} (place : m.address address = m.slotOf symbol i) {width : Width}
    {source : Operand} (read : m.read? source = some value) :
    Leads image [.instr (.mov width source (.mem address))] m fun m' =>
      Runs lookup size store' m' ∧ Stays m m' := by
  have executed : m.execute? (.mov width source (.mem address)) =
      some (m.setMem (m.slotOf symbol i) (.word value)) := by
    simp only [execute?, read, write?, place]
    rfl
  exact .instr executed rfl fun m' regs memory _ => runs.writes found written regs memory

theorem Runs.storedWord (runs : Runs lookup size store m) {target : String} {symbol : Symbol}
    {i : Nat} {value : Word} (found : lookup target = some symbol)
    (written : store.Writes target i value store') {address : Address}
    (place : m.address address = m.slotOf symbol i) :
    Leads image (storeWord value address) m fun m' => Runs lookup size store' m' ∧ Stays m m' :=
  runs.stored found written place (congrArg some BitVec.ofInt_toInt)

theorem Runs.storedEax (runs : Runs lookup size store m) {m₁ : Machine} {value : Word}
    (delivered : Delivers m .eax value m₁) {target : String} {symbol : Symbol} {i : Nat}
    (found : lookup target = some symbol) (written : store.Writes target i value store')
    {address : Address} (place : m₁.address address = m₁.slotOf symbol i) :
    Leads image (storeEax address) m₁ fun m' => Runs lookup size store' m' ∧ Stays m m' := by
  obtain ⟨runs₁, stays₁⟩ := runs.keeps delivered.1 delivered.2.1
  have eax : m₁.read? (.reg .eax) = some value := congrArg some delivered.2.2
  exact (runs₁.stored found written place eax).weaken
    fun m' after => ⟨after.1, stays₁.trans after.2⟩

variable {ctx : Context} {n : Nat} {piece : Code} {n' : Nat}

private theorem assignCode_leads (unique : (Code.labels image.code).Nodup)
    {target : String} {symbol : Symbol} {e : Expr} {value : Word}
    (made : (assignCode ctx symbol.slot e).Makes n piece n')
    (runs : Runs ctx.lookup size store m) (found : ctx.lookup target = some symbol)
    (evaluated : e.eval? store = some value) (agrees : ctx.Agrees store e)
    (put : store.put target value = some store') :
    Leads image piece m fun m' => Runs ctx.lookup size store' m' ∧ Stays m m' := by
  obtain ⟨scalar, written⟩ := Store.writes_put put
  obtain ⟨_, same, length, _⟩ := runs.frame.inside scalar
  obtain rfl : symbol = _ := Option.some.inj (found.symm.trans same)
  cases assignCode_makes made with
  | known known =>
      obtain rfl := agrees _ (Expr.mem_parts _) _ _ known evaluated
      exact runs.storedWord found written (m.address_slot length)
  | computed _ made =>
      apply Leads.append
      apply (exprCode_leads unique made runs.shows evaluated agrees).weaken
      intro m₁ delivered
      exact runs.storedEax delivered found written (m₁.address_slot length)

private theorem assignIndexCode_leads (unique : (Code.labels image.code).Nodup)
    {target : String} {symbol : Symbol} {index e : Expr} {i value : Word}
    (made : (assignIndexCode ctx symbol index e).Makes n piece n')
    (runs : Runs ctx.lookup size store m) (found : ctx.lookup target = some symbol)
    (evalIndex : index.eval? store = some i) (evaluated : e.eval? store = some value)
    (agreesIndex : ctx.Agrees store index) (agrees : ctx.Agrees store e)
    (put : store.putItem target i value = some store') :
    Leads image piece m fun m' => Runs ctx.lookup size store' m' ∧ Stays m m' := by
  obtain ⟨length, position, array, inside, written⟩ := Store.writes_putItem put
  obtain ⟨_, same, rfl, _⟩ := runs.frame.inside array
  obtain rfl : symbol = _ := Option.some.inj (found.symm.trans same)
  cases assignIndexCode_makes made with
  | known knownIndex known =>
      obtain rfl := agreesIndex _ (Expr.mem_parts _) _ _ knownIndex evalIndex
      obtain rfl := agrees _ (Expr.mem_parts _) _ _ known evaluated
      exact runs.storedWord found written (m.address_elementSlot inside)
  | content knownIndex _ made =>
      obtain rfl := agreesIndex _ (Expr.mem_parts _) _ _ knownIndex evalIndex
      apply Leads.append
      apply (exprCode_leads unique made runs.shows evaluated agrees).weaken
      intro m₁ delivered
      exact runs.storedEax delivered found written (m₁.address_elementSlot inside)
  | place _ known made =>
      obtain rfl := agrees _ (Expr.mem_parts _) _ _ known evaluated
      apply Leads.append
      apply (exprCode_leads unique made runs.shows evalIndex agreesIndex).weaken
      intro m₁ delivered
      obtain ⟨runs₁, stays₁⟩ := runs.keeps delivered.1 delivered.2.1
      have place := m₁.address_indexedSlot (delivered.2.2.symm ▸ inside)
      exact (runs₁.storedWord found written place).weaken
        fun m' after => ⟨after.1, stays₁.trans after.2⟩
  | both _ _ madeIndex made =>
      apply Leads.append
      apply Leads.append
      apply Leads.append
      apply (exprCode_leads unique madeIndex runs.shows evalIndex agreesIndex).weaken
      intro m₁ pushed
      have shows₁ := runs.shows.keeps pushed.1 pushed.top_le
      apply (exprCode_leads unique made shows₁ evaluated agrees).weaken
      intro m₂ delivered
      apply (pushed.popped delivered).weaken
      rintro m₃ ⟨popped, ebx⟩
      exact runs.storedEax popped found written (m₃.address_indexedSlot (ebx.symm ▸ inside))

theorem conditionCode_leads (unique : (Code.labels image.code).Nodup) {cond : Expr} {test : Word}
    (made : (conditionCode ctx cond).Makes n piece n') (runs : Runs ctx.lookup size store m)
    (evaluated : cond.eval? store = some test) (agrees : ctx.Agrees store cond) :
    Leads image piece m fun m' => (Runs ctx.lookup size store m' ∧ Stays m m') ∧
      m'.flags.holds .notEqual = (test != 1) := by
  obtain ⟨made⟩ := conditionCode_makes made
  refine .append ((exprCode_leads unique made runs.shows evaluated agrees).weaken
    fun m₁ delivered => .instr rfl rfl fun m₂ regs₂ memory₂ flags₂ => ⟨?_, ?_⟩)
  · have kept : Keeps m m₂ := by
      refine ⟨?_, ?_, ?_, fun address above => ?_⟩
      · rw [regs₂, ← delivered.1.esi]
      · rw [regs₂, ← delivered.1.edi]
      · rw [regs₂, ← delivered.1.ebp]
      · rw [memory₂, ← delivered.1.memory address above]
    exact runs.keeps kept (by rw [regs₂]; exact delivered.2.1)
  · rw [flags₂, ← delivered.2.2]
    exact (holds_ofCompare (m₁.regs .eax) 1).2.1

end Assignments

section Calls

variable {ctx : Context} {store : Store} {n : Nat} {piece : Code} {n' : Nat}

private theorem length_of_mapM {args : List Expr} {values : List Word}
    (h : args.mapM (·.eval? store) = some values) : args.length = values.length := by
  induction args generalizing values with
  | nil =>
      obtain rfl : [] = values := Option.some.inj h
      rfl
  | cons arg rest ih =>
      rw [List.mapM_cons] at h
      obtain ⟨value, _, h⟩ := Option.bind_eq_some_iff.mp h
      obtain ⟨others, evalRest, h⟩ := Option.bind_eq_some_iff.mp h
      obtain rfl : value :: others = values := Option.some.inj h
      rw [List.length_cons, List.length_cons, ih evalRest]

/-- Values lie on top of the stack, the first one uppermost. -/
structure Stacked (m : Machine) (values : List Word) (m' : Machine) : Prop where
  kept : Keeps m m'
  room : 4 * values.length ≤ m.top
  esp : m'.regs .esp = m.regs .esp - .ofNat 32 (4 * values.length)
  holds : ∀ {k value}, values[k]? = some value →
    m'.memory (m'.regs .esp + .ofNat 32 (4 * k)) = .word value

theorem Stacked.top_eq {m' : Machine} {values : List Word} (stacked : Stacked m values m') :
    m'.top + 4 * values.length = m.top := by
  rw [top, stacked.esp]
  exact toNat_esp_sub _ stacked.room

theorem Stacked.pushed {m₁ m₂ : Machine} {value : Word} {values : List Word}
    (stacked : Stacked m values m₁) (delivered : Delivers m₁ .stack value m₂) :
    Stacked m (value :: values) m₂ := by
  obtain ⟨kept, room, esp, top⟩ := delivered
  have height := stacked.top_eq
  refine ⟨stacked.kept.trans (by omega) kept, ?_, ?_, ?_⟩
  · rw [List.length_cons]
    omega
  · rw [esp, stacked.esp, BitVec.sub_sub, List.length_cons, Nat.mul_add, BitVec.ofNat_add]
    rfl
  · intro k content h
    cases k with
    | zero =>
        obtain rfl : value = content := by simpa using h
        simpa using top
    | succ k =>
        have h : values[k]? = some content := by simpa using h
        have bound : k < values.length := (List.getElem?_eq_some_iff.mp h).1
        have address : m₂.regs .esp + .ofNat 32 (4 * (k + 1)) =
            m₁.regs .esp + .ofNat 32 (4 * k) := by
          rw [esp, Nat.mul_add, Nat.add_comm, BitVec.ofNat_add, ← BitVec.add_assoc]
          congr 1
          exact BitVec.sub_add_cancel _ _
        have above : m₁.top ≤ (m₁.regs .esp + .ofNat 32 (4 * k)).toNat := by
          have := (m.regs .esp).isLt
          unfold Machine.top at *
          rw [BitVec.toNat_add, BitVec.toNat_ofNat]
          omega
        rw [address, kept.memory _ above, stacked.holds h]

private theorem argsCode_leads (unique : (Code.labels image.code).Nodup) {args : List Expr}
    {values : List Word} (shape : ArgsCode ctx args n piece n') (shows : m.Shows ctx.lookup store)
    (evaluated : args.mapM (·.eval? store) = some values)
    (agrees : ∀ arg ∈ args, ctx.Agrees store arg) :
    Leads image piece m (Stacked m values) := by
  induction shape generalizing values with
  | nil =>
      obtain rfl : [] = values := Option.some.inj evaluated
      exact .nil ⟨.refl m, Nat.zero_le _, by simp, by simp⟩
  | cons _ made ih =>
      rw [List.mapM_cons] at evaluated
      obtain ⟨value, evalArg, evaluated⟩ := Option.bind_eq_some_iff.mp evaluated
      obtain ⟨others, evalRest, evaluated⟩ := Option.bind_eq_some_iff.mp evaluated
      obtain rfl : value :: others = values := Option.some.inj evaluated
      obtain ⟨agreesArg, agreesRest⟩ := List.forall_mem_cons.mp agrees
      apply Leads.append
      apply (ih evalRest agreesRest).weaken
      intro m₁ stacked
      have height := stacked.top_eq
      have shows₁ := shows.keeps stacked.kept (by omega)
      exact (exprCode_leads unique made shows₁ evalArg agreesArg).weaken
        fun m₂ => stacked.pushed

/-- Values on top of the stack are passed by whatever is pushed on them as a return address. -/
theorem Stacked.passed {values : List Word} {m₁ : Machine} (stacked : Stacked m values m₁)
    (room : 4 ≤ m₁.top) (content : Content) (line : Nat) :
    Passed ((m₁.push content).goto line) values := by
  have height := stacked.top_eq
  have lowered : (m₁.push content).top + 4 = m₁.top := top_sub_four room rfl
  have := (m.regs .esp).isLt
  refine ⟨?_, ?_⟩
  · change (m₁.push content).top + 4 + 4 * values.length ≤ 2 ^ 32
    unfold Machine.top at *
    omega
  · intro k value h
    have bound : k < values.length := (List.getElem?_eq_some_iff.mp h).1
    have address : (m₁.push content).regs .esp + .ofNat 32 (4 + 4 * k) =
        m₁.regs .esp + .ofNat 32 (4 * k) := by
      rw [BitVec.ofNat_add, ← BitVec.add_assoc]
      congr 1
      exact BitVec.sub_add_cancel _ _
    have apart : m₁.regs .esp + .ofNat 32 (4 * k) ≠ m₁.regs .esp - 4 := by
      intro same
      change (m₁.regs .esp - 4).toNat + 4 = m₁.top at lowered
      have higher : (m₁.regs .esp + .ofNat 32 (4 * k)).toNat = m₁.top + 4 * k := by
        unfold Machine.top at *
        rw [BitVec.toNat_add, BitVec.toNat_ofNat]
        omega
      rw [same] at higher
      omega
    rw [regs_goto, address, memory_goto, memory_push, if_neg apart, stacked.holds h]

/-- A function stands in a code, behind its label and in front of a return. -/
structure Stands (image : Image) (func : Func) (inner : Code) (line : Nat) : Prop where
  found : find? image.code func.name = some line
  placed : CodeAt image.code line (.label (.function func.name) :: (inner ++ [.instr .ret]))

theorem Stands.reaches {func : Func} {inner : Code} {line : Nat}
    (stands : Stands image func inner line)
    {m : Machine} (at_ : m.line = line) (fits : Fits image m) {values : List Word} {value : Word}
    (passed : Passed m values)
    (leads : ∀ m, Passed m values → Leads image inner m (Returned m value)) :
    ∃ m', Reaches image m m' ∧ image.code[m'.line]? = some (.instr .ret) ∧ Returned m value m' := by
  obtain ⟨label, placed⟩ := CodeAt.cons_iff.mp stands.placed
  obtain ⟨placedInner, placedRet⟩ := CodeAt.append_iff.mp placed
  have enters : m.step image = .goes m.next := step_label (at_ ▸ label)
  obtain ⟨m', reached, behind, returned⟩ := leads m.next ⟨passed.room, passed.holds⟩
    (by rw [line_next, at_]; exact placedInner) (fits.step enters)
  refine ⟨m', .head enters reached, ?_, returned.value, returned.regs, returned.memory⟩
  rw [behind, line_next, at_]
  exact (CodeAt.cons_iff.mp placedRet).1

theorem Stands.call_leads {func : Func} {inner : Code} {line : Nat}
    (stands : Stands image func inner line) {values : List Word} {value : Word} {m₁ : Machine}
    (stacked : Stacked m values m₁)
    (leads : ∀ m, Passed m values → Leads image inner m (Returned m value)) :
    Leads image [.instr (.call (.function func.name))] m₁ (Delivers m₁ .eax value) := by
  intro placed fits
  have call := (CodeAt.cons_iff.mp placed).1
  have room : 4 ≤ m₁.top := by
    have room := fits.hasRoom
    simpa only [hasRoom, call, decide_eq_true_eq] using room
  let entered := (m₁.push (.back (some (m₁.line + 1)))).goto line
  have enters : m₁.step image = .goes entered := step_call call stands.found
  have height : entered.top + 4 = m₁.top := top_sub_four room rfl
  have passed : Passed entered values := stacked.passed room _ line
  obtain ⟨m₂, reached, ret, returned⟩ := stands.reaches rfl (fits.step enters) passed leads
  have esp₂ : m₂.regs .esp = m₁.regs .esp - 4 := returned.regs _ (by simp)
  have back : m₂.memory (m₂.regs .esp) = .back (some (m₁.line + 1)) := by
    have same : m₂.regs .esp = entered.regs .esp := esp₂
    rw [same, returned.memory _ (Nat.le_refl _)]
    simp [entered]
  refine ⟨m₂.drop.goto (m₁.line + 1), .head enters (reached.tail (step_ret ret back)), rfl, ?_⟩
  refine ⟨⟨?_, ?_, ?_, ?_⟩, ?_, ?_⟩
  · exact returned.regs _ (by simp)
  · exact returned.regs _ (by simp)
  · exact returned.regs _ (by simp)
  · intro address above
    have apart : address ≠ m₁.regs .esp - 4 := by
      rintro rfl
      have lowered : (m₁.regs .esp - 4).toNat + 4 = m₁.top := height
      omega
    rw [memory_goto, memory_drop, returned.memory address (by omega)]
    simp only [entered, memory_goto, memory_push, if_neg apart]
  · rw [regs_goto, regs_drop, if_pos rfl, esp₂, BitVec.sub_add_cancel]
  · exact returned.value

/-- A value is in `%eax`, and so many words were left on the stack. -/
structure Called (m : Machine) (words : Nat) (value : Word) (m' : Machine) : Prop where
  kept : Keeps m m'
  room : 4 * words ≤ m.top
  esp : m'.regs .esp = m.regs .esp - .ofNat 32 (4 * words)
  eax : m'.regs .eax = value

/-- The code of a call brings a value to `%eax`; the arguments are still on the stack. -/
def Calls (image : Image) (ctx : Context) (store : Store) (callee : String) (args : List Expr)
    (value : Word) : Prop :=
  ∀ {n piece n' m}, (callCode ctx callee args).Makes n piece n' → m.Shows ctx.lookup store →
    Leads image piece m (Called m args.length value)

theorem Stands.calls {func : Func} {inner : Code} {line : Nat}
    (stands : Stands image func inner line)
    (unique : (Code.labels image.code).Nodup) {args : List Expr} {values : List Word} {value : Word}
    (evaluated : args.mapM (·.eval? store) = some values)
    (agrees : ∀ arg ∈ args, ctx.Agrees store arg)
    (leads : ∀ m, Passed m values → Leads image inner m (Returned m value)) :
    Calls image ctx store func.name args value := by
  intro n piece n' m made shows
  obtain ⟨_, _, pushed⟩ := callCode_makes made
  apply Leads.append
  apply Leads.append
  apply Leads.note
  intro line₀
  have shows₀ : (m.goto line₀).Shows ctx.lookup store := shows
  apply (argsCode_leads unique pushed shows₀ evaluated agrees).weaken
  intro m₁ stacked
  apply (stands.call_leads stacked leads).weaken
  intro m₂ delivered
  have height : m₁.top ≤ (m.goto line₀).top := by
    have := stacked.top_eq
    omega
  obtain ⟨esi, edi, ebp, memory⟩ := stacked.kept.trans height delivered.1
  rw [length_of_mapM evaluated]
  exact ⟨⟨esi, edi, ebp, memory⟩, stacked.room, delivered.2.1.trans stacked.esp, delivered.2.2⟩

/-- When the arguments are given back, nothing is left of a call but its value. -/
theorem Called.release_leads {words : Nat} {value : Word} {m₁ : Machine}
    (called : Called m words value m₁) :
    Leads image (release (words * wordSize)) m₁ (Delivers m .eax value) := by
  apply (Machine.release_leads _).weaken
  rintro m₂ ⟨regs₂, esp₂, memory₂⟩
  refine ⟨⟨?_, ?_, ?_, ?_⟩, ?_, ?_⟩
  · exact (regs₂ _ (by simp)).trans called.kept.esi
  · exact (regs₂ _ (by simp)).trans called.kept.edi
  · exact (regs₂ _ (by simp)).trans called.kept.ebp
  · intro address above
    rw [memory₂, called.kept.memory address above]
  · rw [esp₂, called.esp, wordSize, Nat.mul_comm, BitVec.sub_add_cancel]
  · exact (regs₂ _ (by simp)).trans called.eax

variable {size : Nat} {store' : Store}

theorem Called.store_leads {words : Nat} {value : Word} {m₁ : Machine}
    (called : Called m words value m₁) (runs : Runs ctx.lookup size store m) {target : String}
    {symbol : Symbol} (found : ctx.lookup target = some symbol)
    (put : store.put target value = some store') :
    Leads image (storeEax symbol.slot ++ release (words * wordSize)) m₁ fun m' =>
      Runs ctx.lookup size store' m' ∧ Stays m m' := by
  obtain ⟨scalar, written⟩ := Store.writes_put put
  obtain ⟨_, same, length, _⟩ := runs.frame.inside scalar
  obtain rfl : symbol = _ := Option.some.inj (found.symm.trans same)
  apply Leads.append
  have executed : m₁.execute? (.mov .plain (.reg .eax) (.mem symbol.slot)) =
      some (m₁.setMem (m₁.slotOf symbol 0) (.word value)) := by
    simp only [execute?, read?, write?, m₁.address_slot length, called.eax]
    rfl
  refine .instr executed rfl fun m₂ regs₂ memory₂ _ => ?_
  apply (Machine.release_leads _).weaken
  rintro m₃ ⟨regs₃, esp₃, memory₃⟩
  -- the store happens as if the arguments had been given back before it
  let released := m₁.setReg .esp (m.regs .esp)
  have kept : Keeps m released :=
    ⟨called.kept.esi, called.kept.edi, called.kept.ebp, called.kept.memory⟩
  obtain ⟨runs₁, stays₁⟩ := runs.keeps kept rfl
  have regs : m₃.regs = released.regs := by
    funext reg
    by_cases isEsp : reg = .esp
    · subst isEsp
      rw [esp₃, regs₂, regs_setMem, called.esp, wordSize, Nat.mul_comm, BitVec.sub_add_cancel]
      rfl
    · rw [regs₃ reg isEsp, regs₂, regs_setMem]
      exact (if_neg isEsp).symm
  have memory : m₃.memory = (released.setMem (released.slotOf symbol 0) (.word value)).memory := by
    rw [memory₃, memory₂]
    rfl
  obtain ⟨runs₃, stays₃⟩ := runs₁.writes found written regs memory
  exact ⟨runs₃, stays₁.trans stays₃⟩

private theorem callIndexCode_leads (unique : (Code.labels image.code).Nodup) {target : String}
    {symbol : Symbol} {index : Expr} {i value : Word} {callee : String} {args : List Expr}
    (made : (callIndexCode ctx symbol index callee args).Makes n piece n')
    (runs : Runs ctx.lookup size store m) (found : ctx.lookup target = some symbol)
    (evalIndex : index.eval? store = some i) (agrees : ctx.Agrees store index)
    (calls : Calls image ctx store callee args value)
    (put : store.putItem target i value = some store') :
    Leads image piece m fun m' => Runs ctx.lookup size store' m' ∧ Stays m m' := by
  obtain ⟨length, position, array, inside, written⟩ := Store.writes_putItem put
  obtain ⟨_, same, rfl, _⟩ := runs.frame.inside array
  obtain rfl : symbol = _ := Option.some.inj (found.symm.trans same)
  cases callIndexCode_makes made with
  | known known called =>
      obtain rfl := agrees _ (Expr.mem_parts _) _ _ known evalIndex
      apply Leads.append
      apply Leads.append
      apply (calls called runs.shows).weaken
      intro m₁ returned
      apply returned.release_leads.weaken
      intro m₂ delivered
      exact runs.storedEax delivered found written (m₂.address_elementSlot inside)
  | computed _ madeIndex called =>
      apply Leads.append
      apply Leads.append
      apply Leads.append
      apply Leads.append
      apply (exprCode_leads unique madeIndex runs.shows evalIndex agrees).weaken
      intro m₁ pushed
      apply (calls called (runs.shows.keeps pushed.1 pushed.top_le)).weaken
      intro m₂ returned
      apply returned.release_leads.weaken
      intro m₃ delivered
      apply (pushed.popped delivered).weaken
      rintro m₄ ⟨popped, ebx⟩
      exact runs.storedEax popped found written (m₄.address_indexedSlot (ebx.symm ▸ inside))

end Calls

end Machine

/-- What is known about an expression and its parts agrees with their values in a store,
    wherever code generation uses it. -/
def Faithful (options : Options) (facts : FactTable) (visit : Expr × Store) : Prop :=
  ∀ ctx : Context, ctx.options = options → ctx.facts = facts → ctx.Agrees visit.2 visit.1

/-- The code of a program in which every function has its place. -/
structure Linked (options : Options) (facts : FactTable) (program : Program) (image : Image) :
    Prop where
  unique : (Code.labels image.code).Nodup
  checks : ∀ func ∈ program, func.Checks program
  stands : ∀ func ∈ program, ∃ ctx n inner n' line, ctx.options = options ∧ ctx.facts = facts ∧
    ctx.lookup = func.lookup program ∧ FuncCode ctx func func.typing.size n inner n' ∧
      Machine.Stands image func inner line

section Statements

variable {options : Options} {facts : FactTable} {program : Program}

/-- How a run goes on behind a condition: one way where it is 1, the other where it is not. -/
inductive Decides (options : Options) (facts : FactTable) (cond : Expr) (store : Store)
    (taken skipped : Prop) : Prop where
  | taken : cond.eval? store = some 1 → Faithful options facts (cond, store) → taken →
      Decides options facts cond store taken skipped
  | skipped {test : Word} : cond.eval? store = some test →
      Faithful options facts (cond, store) → test ≠ 1 → skipped →
      Decides options facts cond store taken skipped

namespace Decides

variable {cond : Expr} {store : Store} {taken skipped : Prop} {ctx : Context}
  (sameOptions : ctx.options = options) (sameFacts : ctx.facts = facts)

include sameOptions sameFacts

theorem of_known_true (known : ctx.known cond = some 1)
    (h : Decides options facts cond store taken skipped) : taken := by
  cases h with
  | taken _ _ h => exact h
  | skipped evaluated faithful isFalse _ =>
      exact absurd
        (faithful ctx sameOptions sameFacts _ (Expr.mem_parts _) _ _ known evaluated).symm isFalse

theorem of_known_false {value : Word} (known : ctx.known cond = some value) (isFalse : value ≠ 1)
    (h : Decides options facts cond store taken skipped) : skipped := by
  cases h with
  | taken evaluated faithful _ =>
      exact absurd
        (faithful ctx sameOptions sameFacts _ (Expr.mem_parts _) _ _ known evaluated) isFalse
  | skipped _ _ _ h => exact h

end Decides

/-- A run of statements in which everything that is known agrees with what is evaluated. -/
structure SoundRun (options : Options) (facts : FactTable) (program : Program) (fuel : Nat)
    (stmts : List Stmt) (store last : Store) : Prop where
  ran : program.run fuel stmts store = some last
  sound : ∀ visit ∈ program.visits fuel stmts store, Faithful options facts visit

namespace SoundRun

variable {fuel : Nat} {target : String} {index value cond : Expr}
  {body thens elses rest : List Stmt}
  {line : Nat} {callee : String} {args : List Expr} {store last : Store}

theorem assign (h : SoundRun options facts program (fuel + 1) (.assign target value :: rest) store
      last) : ∃ v store', value.eval? store = some v ∧ Faithful options facts (value, store) ∧
        store.put target v = some store' ∧
          SoundRun options facts program fuel rest store' last := by
  obtain ⟨ran, sound⟩ := h
  obtain ⟨v, evaluated, ran⟩ := Option.bind_eq_some_iff.mp ran
  obtain ⟨store', put, ran⟩ := Option.bind_eq_some_iff.mp ran
  simp only [Program.visits, evaluated, Option.bind_some, put, Option.elim_some,
    List.forall_mem_cons] at sound
  exact ⟨v, store', evaluated, sound.1, put, ran, sound.2⟩

theorem assignIndex (h : SoundRun options facts program (fuel + 1)
      (.assignIndex target index value :: rest) store last) : ∃ i v store',
        index.eval? store = some i ∧ Faithful options facts (index, store) ∧
        value.eval? store = some v ∧ Faithful options facts (value, store) ∧
        store.putItem target i v = some store' ∧
          SoundRun options facts program fuel rest store' last := by
  obtain ⟨ran, sound⟩ := h
  obtain ⟨i, evalIndex, ran⟩ := Option.bind_eq_some_iff.mp ran
  obtain ⟨v, evaluated, ran⟩ := Option.bind_eq_some_iff.mp ran
  obtain ⟨store', put, ran⟩ := Option.bind_eq_some_iff.mp ran
  simp only [Program.visits, evalIndex, evaluated, Option.bind_some, put, Option.elim_some,
    List.forall_mem_cons] at sound
  exact ⟨i, v, store', evalIndex, sound.1, evaluated, sound.2.1, put, ran, sound.2.2⟩

/-- What a call evaluates before its value is stored. -/
structure OfCall (options : Options) (facts : FactTable) (program : Program) (fuel : Nat)
    (callee : String) (args : List Expr) (store : Store) (v : Word) : Prop where
  args_faithful : ∀ arg ∈ args, Faithful options facts (arg, store)
  returns : ∃ func inner last, program.entry? store callee args = some (func, inner) ∧
    SoundRun options facts program fuel func.body inner last ∧
      func.result.eval? last = some v ∧ Faithful options facts (func.result, last)

theorem call (h : SoundRun options facts program (fuel + 1) (.call line target callee args :: rest)
      store last) : ∃ v store', OfCall options facts program fuel callee args store v ∧
        store.put target v = some store' ∧
          SoundRun options facts program fuel rest store' last := by
  obtain ⟨ran, sound⟩ := h
  obtain ⟨⟨func, inner⟩, entered, ran⟩ := Option.bind_eq_some_iff.mp ran
  obtain ⟨behind, ranBody, ran⟩ := Option.bind_eq_some_iff.mp ran
  obtain ⟨v, evaluated, ran⟩ := Option.bind_eq_some_iff.mp ran
  obtain ⟨store', put, ran⟩ := Option.bind_eq_some_iff.mp ran
  simp only [Program.visits, entered, Option.elim_some, ranBody, evaluated, Option.bind_some,
    put, List.forall_mem_append, List.forall_mem_cons, List.forall_mem_map] at sound
  obtain ⟨soundArgs, soundBody, soundResult, soundRest⟩ := sound
  exact ⟨v, store', ⟨soundArgs, func, inner, behind, entered, ⟨ranBody, soundBody⟩, evaluated,
    soundResult⟩, put, ran, soundRest⟩

theorem callIndex (h : SoundRun options facts program (fuel + 1)
      (.callIndex line target index callee args :: rest) store last) : ∃ i v store',
        index.eval? store = some i ∧ Faithful options facts (index, store) ∧
        OfCall options facts program fuel callee args store v ∧
        store.putItem target i v = some store' ∧
          SoundRun options facts program fuel rest store' last := by
  obtain ⟨ran, sound⟩ := h
  obtain ⟨i, evalIndex, ran⟩ := Option.bind_eq_some_iff.mp ran
  obtain ⟨⟨func, inner⟩, entered, ran⟩ := Option.bind_eq_some_iff.mp ran
  obtain ⟨behind, ranBody, ran⟩ := Option.bind_eq_some_iff.mp ran
  obtain ⟨v, evaluated, ran⟩ := Option.bind_eq_some_iff.mp ran
  obtain ⟨store', put, ran⟩ := Option.bind_eq_some_iff.mp ran
  simp only [Program.visits, evalIndex, entered, Option.elim_some, ranBody, evaluated,
    Option.bind_some, put, List.forall_mem_append, List.forall_mem_cons,
    List.forall_mem_map] at sound
  obtain ⟨soundIndex, soundArgs, soundBody, soundResult, soundRest⟩ := sound
  exact ⟨i, v, store', evalIndex, soundIndex, ⟨soundArgs, func, inner, behind, entered,
    ⟨ranBody, soundBody⟩, evaluated, soundResult⟩, put, ran, soundRest⟩

theorem guarded {stmt : Stmt} {next : List Stmt}
    (h : SoundRun options facts program (fuel + 1) (stmt :: rest) store last)
    (runs : program.run (fuel + 1) (stmt :: rest) store = (cond.eval? store).bind fun test =>
      if test = 1 then (program.run fuel body store).bind (program.run fuel next)
      else program.run fuel rest store)
    (visits : program.visits (fuel + 1) (stmt :: rest) store = (cond, store) ::
      (cond.eval? store).elim [] fun test =>
        if test = 1 then program.visits fuel body store ++
          (program.run fuel body store).elim [] (program.visits fuel next)
        else program.visits fuel rest store) :
    Decides options facts cond store
      (∃ middle, SoundRun options facts program fuel body store middle ∧
        SoundRun options facts program fuel next middle last)
      (SoundRun options facts program fuel rest store last) := by
  obtain ⟨ran, sound⟩ := h
  rw [runs] at ran
  obtain ⟨test, evaluated, ran⟩ := Option.bind_eq_some_iff.mp ran
  simp only [visits, evaluated, Option.elim_some, List.forall_mem_cons] at sound
  by_cases isTrue : test = 1
  · rw [if_pos isTrue] at ran
    obtain ⟨middle, ranBody, ran⟩ := Option.bind_eq_some_iff.mp ran
    simp only [if_pos isTrue, ranBody, Option.elim_some, List.forall_mem_append] at sound
    exact .taken (isTrue ▸ evaluated) sound.1 ⟨middle, ⟨ranBody, sound.2.1⟩, ran, sound.2.2⟩
  · rw [if_neg isTrue] at ran
    simp only [if_neg isTrue] at sound
    exact .skipped evaluated sound.1 isTrue ⟨ran, sound.2⟩

theorem when (h : SoundRun options facts program (fuel + 1) (.when cond body :: rest) store last) :
    Decides options facts cond store
      (∃ middle, SoundRun options facts program fuel body store middle ∧
        SoundRun options facts program fuel rest middle last)
      (SoundRun options facts program fuel rest store last) :=
  h.guarded rfl rfl

theorem choose (h : SoundRun options facts program (fuel + 1) (.choose cond thens elses :: rest)
      store last) : Decides options facts cond store
        (∃ middle, SoundRun options facts program fuel thens store middle ∧
          SoundRun options facts program fuel rest middle last)
        (∃ middle, SoundRun options facts program fuel elses store middle ∧
          SoundRun options facts program fuel rest middle last) := by
  obtain ⟨ran, sound⟩ := h
  obtain ⟨test, evaluated, ran⟩ := Option.bind_eq_some_iff.mp ran
  simp only [Program.visits, evaluated, Option.elim_some, List.forall_mem_cons] at sound
  by_cases isTrue : test = 1
  · rw [if_pos isTrue] at ran
    obtain ⟨middle, ranBody, ran⟩ := Option.bind_eq_some_iff.mp ran
    simp only [if_pos isTrue, ranBody, Option.elim_some, List.forall_mem_append] at sound
    exact .taken (isTrue ▸ evaluated) sound.1 ⟨middle, ⟨ranBody, sound.2.1⟩, ran, sound.2.2⟩
  · rw [if_neg isTrue] at ran
    obtain ⟨middle, ranBody, ran⟩ := Option.bind_eq_some_iff.mp ran
    simp only [if_neg isTrue, ranBody, Option.elim_some, List.forall_mem_append] at sound
    exact .skipped evaluated sound.1 isTrue ⟨middle, ⟨ranBody, sound.2.1⟩, ran, sound.2.2⟩

theorem loop (h : SoundRun options facts program (fuel + 1) (.loop cond body :: rest) store last) :
    Decides options facts cond store
      (∃ middle, SoundRun options facts program fuel body store middle ∧
        SoundRun options facts program fuel (.loop cond body :: rest) middle last)
      (SoundRun options facts program fuel rest store last) :=
  h.guarded rfl rfl

theorem block (h : SoundRun options facts program (fuel + 1) (.block body :: rest) store last) :
    ∃ middle, SoundRun options facts program fuel body store middle ∧
      SoundRun options facts program fuel rest middle last := by
  obtain ⟨ran, sound⟩ := h
  obtain ⟨middle, ranBody, ran⟩ := Option.bind_eq_some_iff.mp ran
  simp only [Program.visits, ranBody, Option.elim_some, List.forall_mem_append] at sound
  exact ⟨middle, ⟨ranBody, sound.1⟩, ran, sound.2⟩

theorem not_loop_of_known {ctx : Context} (sameOptions : ctx.options = options)
    (sameFacts : ctx.facts = facts) (known : ctx.known cond = some 1) :
    ¬ SoundRun options facts program fuel (.loop cond body :: rest) store last := by
  intro h
  induction fuel generalizing store with
  | zero => exact absurd h.ran nofun
  | succ fuel ih =>
      obtain ⟨_, _, again⟩ := h.loop.of_known_true sameOptions sameFacts known
      exact ih again

end SoundRun

open Machine

/-- Code does what its statements do with some fuel, wherever they stand in the program. -/
def Performs (options : Options) (facts : FactTable) (program : Program) (image : Image)
    (fuel : Nat) : Prop :=
  ∀ {ctx : Context} {size : Nat} {stmts : List Stmt} {n : Nat} {piece : Code} {n' : Nat}
    {store last : Store} {m : Machine}, ctx.options = options → ctx.facts = facts →
    StmtsCode ctx stmts n piece n' → Runs ctx.lookup size store m →
    SoundRun options facts program fuel stmts store last →
    Leads image piece m fun m' => Runs ctx.lookup size last m' ∧ Stays m m'

theorem Linked.calls {image : Image} (linked : Linked options facts program image) {ctx : Context}
    (sameOptions : ctx.options = options) (sameFacts : ctx.facts = facts) {fuel : Nat}
    {store : Store} {callee : String} {args : List Expr} {v : Word}
    (called : SoundRun.OfCall options facts program fuel callee args store v)
    (body : Performs options facts program image fuel) : Calls image ctx store callee args v := by
  obtain ⟨faithful, func, _, last, entered, runs, evaluated, result⟩ := called
  obtain ⟨values, mem, rfl, evalArgs, arity, rfl⟩ := Program.entry?_eq_some entered
  obtain ⟨ctx', k, inner, k', line, options', facts', named, shape, stands⟩ :=
    linked.stands func mem
  apply stands.calls linked.unique evalArgs
    fun arg mem => faithful arg mem ctx sameOptions sameFacts
  intro m passed
  apply shape.leads linked.unique (linked.checks func mem) named arity passed evaluated
    (result ctx' options' facts')
  intro n piece n' m shape' runs'
  exact body options' facts' shape' runs' runs

theorem Machine.Runs.moved {lookup : Lookup} {size : Nat} {store : Store} {m m₁ : Machine}
    (kept : Runs lookup size store m₁ ∧ Stays m m₁) (line : Nat) :
    Runs lookup size store (m₁.goto line) ∧ Stays m (m₁.goto line) :=
  ⟨kept.1.goto line, kept.2.trans (.goto m₁ line)⟩

namespace Performs

variable {image : Image} {fuel : Nat} {ctx : Context} {size : Nat} {n n₁ n₂ n₃ n' : Nat}
  {cond : Expr} {body thens elses rest : List Stmt} {test inner first second later : Code}
  {store middle last : Store} {m : Machine} {text : String}
  (performs : Performs options facts program image fuel)
  (sameOptions : ctx.options = options) (sameFacts : ctx.facts = facts)

include performs sameOptions sameFacts

/-- Statements are passed from wherever the ones before them leave the machine. -/
theorem go {m₁ : Machine} (shape : StmtsCode ctx rest n later n')
    (h : SoundRun options facts program fuel rest store last)
    (kept : Runs ctx.lookup size store m₁ ∧ Stays m m₁) :
    Leads image later m₁ fun m' => Runs ctx.lookup size last m' ∧ Stays m m' := by
  apply (performs sameOptions sameFacts shape kept.1 h).weaken
  rintro m' ⟨runs', stays'⟩
  exact ⟨runs', kept.2.trans stays'⟩

theorem skip (shape : StmtsCode ctx rest n later n') (runs : Runs ctx.lookup size store m)
    (h : SoundRun options facts program fuel rest store last) :
    Leads image (ctx.note text ++ later) m fun m' =>
      Runs ctx.lookup size last m' ∧ Stays m m' := by
  apply Leads.append
  apply Leads.note
  intro line
  exact performs.go sameOptions sameFacts shape h (Runs.moved ⟨runs, .refl m⟩ line)

theorem enter (shapeBody : StmtsCode ctx body n inner n₁) (shape : StmtsCode ctx rest n₁ later n')
    (runs : Runs ctx.lookup size store m)
    (h : ∃ middle, SoundRun options facts program fuel body store middle ∧
      SoundRun options facts program fuel rest middle last) :
    Leads image (ctx.note text ++ inner ++ later) m fun m' =>
      Runs ctx.lookup size last m' ∧ Stays m m' := by
  obtain ⟨middle, ranBody, h⟩ := h
  apply Leads.append
  apply (performs.skip sameOptions sameFacts shapeBody runs ranBody).weaken
  exact fun m₁ => performs.go sameOptions sameFacts shape h

variable (unique : (Code.labels image.code).Nodup)

include unique

theorem when {done : Label} (made : (conditionCode ctx cond).Makes n test n₁)
    (shapeBody : StmtsCode ctx body n₁ inner n₂) (shape : StmtsCode ctx rest n₂ later n')
    (runs : Runs ctx.lookup size store m)
    (h : SoundRun options facts program (fuel + 1) (.when cond body :: rest) store last) :
    Leads image (test ++ Leads.jump .notEqual done ++ inner ++ Leads.mark done ++ later) m
      fun m' => Runs ctx.lookup size last m' ∧ Stays m m' := by
  cases h.when with
  | taken evaluated faithful h =>
      obtain ⟨middle, ranBody, h⟩ := h
      apply Leads.when_taken
      apply (conditionCode_leads unique made runs evaluated
        (faithful ctx sameOptions sameFacts)).weaken
      rintro m₁ ⟨kept, flags⟩
      refine ⟨flags, ?_⟩
      apply (performs.go sameOptions sameFacts shapeBody ranBody (Runs.moved kept _)).weaken
      exact fun m₂ kept => performs.go sameOptions sameFacts shape h (Runs.moved kept _)
  | skipped evaluated faithful isFalse h =>
      apply Leads.when_skipped unique
      apply (conditionCode_leads unique made runs evaluated
        (faithful ctx sameOptions sameFacts)).weaken
      rintro m₁ ⟨kept, flags⟩
      refine ⟨flags.trans (bne_iff_ne.mpr isFalse), fun line => ?_⟩
      exact performs.go sameOptions sameFacts shape h (Runs.moved kept line)

theorem choose {otherwise done : Label} (made : (conditionCode ctx cond).Makes n test n₁)
    (shapeThens : StmtsCode ctx thens n₁ first n₂) (shapeElses : StmtsCode ctx elses n₂ second n₃)
    (shape : StmtsCode ctx rest n₃ later n') (runs : Runs ctx.lookup size store m)
    (h : SoundRun options facts program (fuel + 1) (.choose cond thens elses :: rest) store last) :
    Leads image (test ++ Leads.jump .notEqual otherwise ++ first ++
      Leads.jumpPast .always done otherwise ++ second ++ Leads.mark done ++ later) m
      fun m' => Runs ctx.lookup size last m' ∧ Stays m m' := by
  cases h.choose with
  | taken evaluated faithful h =>
      obtain ⟨middle, ranThens, h⟩ := h
      apply Leads.choose_first unique
      apply (conditionCode_leads unique made runs evaluated
        (faithful ctx sameOptions sameFacts)).weaken
      rintro m₁ ⟨kept, flags⟩
      refine ⟨flags, ?_⟩
      apply (performs.go sameOptions sameFacts shapeThens ranThens (Runs.moved kept _)).weaken
      exact fun m₂ kept line => performs.go sameOptions sameFacts shape h (Runs.moved kept line)
  | skipped evaluated faithful isFalse h =>
      obtain ⟨middle, ranElses, h⟩ := h
      apply Leads.choose_second unique
      apply (conditionCode_leads unique made runs evaluated
        (faithful ctx sameOptions sameFacts)).weaken
      rintro m₁ ⟨kept, flags⟩
      refine ⟨flags.trans (bne_iff_ne.mpr isFalse), fun line => ?_⟩
      apply (performs.go sameOptions sameFacts shapeElses ranElses (Runs.moved kept line)).weaken
      exact fun m₂ kept => performs.go sameOptions sameFacts shape h (Runs.moved kept _)

/-- A pass through a loop leads back to the code of the loop, which stands there for the passes
    to come. -/
theorem loop (unknown : ctx.known cond = none)
    (made : (conditionCode ctx cond).Makes (n + 1) test n₁)
    (shapeBody : StmtsCode ctx body n₁ inner n₂) (shape : StmtsCode ctx rest n₂ later n')
    (runs : Runs ctx.lookup size store m)
    (h : SoundRun options facts program (fuel + 1) (.loop cond body :: rest) store last) :
    Leads image (Leads.mark (.loop n) ++ test ++ Leads.jump .notEqual (.loopDone n) ++ inner ++
      Leads.jumpPast .always (.loop n) (.loopDone n) ++ later) m
      fun m' => Runs ctx.lookup size last m' ∧ Stays m m' := by
  have inside := runs.goto (m.line + 1)
  cases h.loop with
  | taken evaluated faithful h =>
      obtain ⟨middle, ranBody, h⟩ := h
      apply Leads.loop_again unique
      apply (conditionCode_leads unique made inside evaluated
        (faithful ctx sameOptions sameFacts)).weaken
      rintro m₁ ⟨⟨runs₁, stays₁⟩, flags⟩
      refine ⟨flags, ?_⟩
      apply (performs.go sameOptions sameFacts shapeBody ranBody
        (Runs.moved ⟨runs₁, stays₁.of_goto⟩ _)).weaken
      exact fun m₂ kept => performs.go sameOptions sameFacts (.loop unknown made shapeBody shape) h
        (Runs.moved kept _)
  | skipped evaluated faithful isFalse h =>
      apply Leads.loop_done unique
      apply (conditionCode_leads unique made inside evaluated
        (faithful ctx sameOptions sameFacts)).weaken
      rintro m₁ ⟨⟨runs₁, stays₁⟩, flags⟩
      refine ⟨flags.trans (bne_iff_ne.mpr isFalse), fun line => ?_⟩
      exact performs.go sameOptions sameFacts shape h (Runs.moved ⟨runs₁, stays₁.of_goto⟩ line)

end Performs

/-- The code of statements does what the statements do. -/
theorem stmtsCode_leads {image : Image} (linked : Linked options facts program image) {fuel : Nat}
    {ctx : Context} {size : Nat} {stmts : List Stmt} {n : Nat} {piece : Code} {n' : Nat}
    {store last : Store} {m : Machine} (sameOptions : ctx.options = options)
    (sameFacts : ctx.facts = facts) (shape : StmtsCode ctx stmts n piece n')
    (runs : Runs ctx.lookup size store m)
    (h : SoundRun options facts program fuel stmts store last) :
    Leads image piece m fun m' => Runs ctx.lookup size last m' ∧ Stays m m' := by
  -- on the fuel of the run: bodies, callees and the statements behind run with less of it
  induction fuel generalizing ctx size stmts n piece n' store last m with
  | zero => exact absurd h.ran nofun
  | succ fuel ih =>
      have performs : Performs options facts program image fuel := ih
      have unique := linked.unique
      cases shape with
      | nil =>
          obtain rfl := Option.some.inj h.ran
          exact .nil ⟨runs, .refl m⟩
      | assign found made rest =>
          obtain ⟨v, store', evaluated, faithful, put, h⟩ := h.assign
          apply Leads.append
          apply Leads.append
          apply Leads.note
          intro line
          apply (assignCode_leads unique made (runs.goto line) found evaluated
            (faithful ctx sameOptions sameFacts) put).weaken
          rintro m₁ ⟨runs₁, stays₁⟩
          exact performs.go sameOptions sameFacts rest h ⟨runs₁, stays₁.of_goto⟩
      | assignIndex found made rest =>
          obtain ⟨i, v, store', evalIndex, faithfulIndex, evaluated, faithful, put, h⟩ :=
            h.assignIndex
          apply Leads.append
          apply Leads.append
          apply Leads.note
          intro line
          apply (assignIndexCode_leads unique made (runs.goto line) found evalIndex evaluated
            (faithfulIndex ctx sameOptions sameFacts) (faithful ctx sameOptions sameFacts)
            put).weaken
          rintro m₁ ⟨runs₁, stays₁⟩
          exact performs.go sameOptions sameFacts rest h ⟨runs₁, stays₁.of_goto⟩
      | @call _ _ _ callee args _ _ _ _ _ _ found made rest =>
          obtain ⟨v, store', called, put, h⟩ := h.call
          have calls : Calls image ctx store callee args v :=
            linked.calls sameOptions sameFacts called performs
          apply Leads.append
          rw [List.append_assoc]
          apply Leads.append
          apply (calls made runs.shows).weaken
          intro m₁ left
          apply (left.store_leads runs found put).weaken
          exact fun m₂ => performs.go sameOptions sameFacts rest h
      | @callIndex _ _ _ _ callee args _ _ _ _ _ _ found made rest =>
          obtain ⟨i, v, store', evalIndex, faithful, called, put, h⟩ := h.callIndex
          have calls : Calls image ctx store callee args v :=
            linked.calls sameOptions sameFacts called performs
          apply Leads.append
          apply (callIndexCode_leads unique made runs found evalIndex
            (faithful ctx sameOptions sameFacts) calls put).weaken
          exact fun m₁ => performs.go sameOptions sameFacts rest h
      | whenTrue known inner rest =>
          have h := h.when.of_known_true sameOptions sameFacts known
          exact performs.enter sameOptions sameFacts inner rest runs h
      | whenFalse known isFalse rest =>
          have h := h.when.of_known_false sameOptions sameFacts known isFalse
          exact performs.skip sameOptions sameFacts rest runs h
      | when _ made inner rest =>
          exact performs.when sameOptions sameFacts unique made inner rest runs h
      | chooseTrue known inner rest =>
          have h := h.choose.of_known_true sameOptions sameFacts known
          exact performs.enter sameOptions sameFacts inner rest runs h
      | chooseFalse known isFalse inner rest =>
          have h := h.choose.of_known_false sameOptions sameFacts known isFalse
          exact performs.enter sameOptions sameFacts inner rest runs h
      | choose _ made first second rest =>
          exact performs.choose sameOptions sameFacts unique made first second rest runs h
      | loopTrue known _ _ =>
          exact absurd h (SoundRun.not_loop_of_known sameOptions sameFacts known)
      | loopFalse known isFalse rest =>
          have h := h.loop.of_known_false sameOptions sameFacts known isFalse
          exact performs.skip sameOptions sameFacts rest runs h
      | loop unknown made inner rest =>
          exact performs.loop sameOptions sameFacts unique unknown made inner rest runs h
      | block inner rest =>
          obtain ⟨middle, body, h⟩ := h.block
          apply Leads.append
          apply (performs.go sameOptions sameFacts inner body ⟨runs, .refl m⟩).weaken
          exact fun m₁ => performs.go sameOptions sameFacts rest h

end Statements

end Wordlang.Asm
