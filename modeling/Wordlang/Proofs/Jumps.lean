import Wordlang.Blocks
import Wordlang.Proofs.Consistency
import Wordlang.Proofs.Labels
import Wordlang.Proofs.Lines
import Wordlang.Proofs.WellFormed

/-! # Jumps and calls

A piece of generated code jumps only to labels that it defines, and its labels use up all the
numbers between the one before and the one behind it. Pieces keep this when they are put
together, so the blocks of functions have it, and a program leaves out no number.
-/

namespace Wordlang

namespace Asm

/-- The line names no label and does not end a function. -/
@[simp] def Line.isPlain : Line → Bool
  | .globl _ => false
  | .label _ => false
  | .instr (.jump _ _) => false
  | .instr (.call _) => false
  | .instr .leave => false
  | .instr .ret => false
  | _ => true

/-- A line does not lead out of some labels, except that it may call a function that the
    context knows. -/
def Line.Stays (ctx : Context) (labels : List Label) : Line → Prop
  | .instr (.jump _ target) => target ∈ labels
  | .instr (.call target) => ∃ name symbol params, target = .function name ∧
      ctx.lookup name = some symbol ∧ symbol.params? = some params
  | _ => True

/-- No line of a piece of code names a label or ends a function. -/
def Plain (piece : Code) : Prop := piece.all Line.isPlain = true

section Plain

variable (ctx : Context) (place : Place) (value : Word) (address : Address) (first second : Code)

@[simp] theorem plain_nil : Plain [] := rfl

@[simp] theorem plain_instr (op : Instr) (rest : Code) :
    Plain (.instr op :: rest) ↔ (Line.instr op).isPlain = true ∧ Plain rest := by
  rw [Plain, List.all_cons, Bool.and_eq_true, Plain]

@[simp] theorem plain_append : Plain (first ++ second) ↔ Plain first ∧ Plain second := by
  rw [Plain, List.all_append, Bool.and_eq_true, Plain, Plain]

@[simp] theorem plain_note (text : String) : Plain (ctx.note text) := by
  unfold Context.note
  split <;> rfl

@[simp] theorem plain_immediate : Plain (place.immediate value) := by
  cases place <;> rfl

@[simp] theorem plain_load : Plain (place.load address) := by
  cases place <;> rfl

@[simp] theorem plain_store : Plain place.store := by
  cases place <;> rfl

@[simp] theorem plain_sum : Plain (place.sum address) := by
  cases place <;> rfl

@[simp] theorem plain_truthValues : Plain truthValues := rfl

@[simp] theorem plain_unaryCode (op : UnOp) : Plain (unaryCode ctx op) := by
  cases op <;> simp [unaryCode, Line.isPlain]

@[simp] theorem plain_knownOperand (op : BinOp) (reg : Reg) :
    Plain (knownOperand op value reg) := by
  unfold knownOperand
  split <;> rfl

@[simp] theorem plain_release (bytes : Nat) : Plain (release bytes) := by
  unfold release
  split <;> rfl

@[simp] theorem plain_storeEax : Plain (storeEax address) := rfl

@[simp] theorem plain_storeWord : Plain (storeWord value address) := rfl

@[simp] theorem plain_argumentsCode (params : Nat) : Plain (argumentsCode params) := by
  unfold argumentsCode Plain
  rw [List.all_map]
  exact List.all_eq_true.mpr fun _ _ => rfl

end Plain

theorem Line.Stays.mono {ctx : Context} {labels more : List Label} {line : Line}
    (stays : line.Stays ctx labels) (kept : labels ⊆ more) : line.Stays ctx more := by
  cases line with
  | instr op =>
      cases op with
      | jump => exact kept stays
      | _ => exact stays
  | _ => exact stays

theorem Line.stays_of_isPlain {ctx : Context} {labels : List Label} {line : Line}
    (plain : line.isPlain = true) : line.Stays ctx labels := by
  cases line with
  | instr op =>
      cases op with
      | jump | call => exact absurd plain nofun
      | _ => trivial
  | _ => trivial

/-- A piece of code with the label numbers before and behind it. Its jumps go to its own labels,
    and each of the numbers is that of one of its labels. -/
structure Enclosed (ctx : Context) (n : Nat) (piece : Code) (n' : Nat) : Prop where
  stays : ∀ line ∈ piece, line.Stays ctx (marks piece)
  covers : ∀ number, n ≤ number → number < n' → ∃ label ∈ marks piece, label.number = number

namespace Enclosed

variable {ctx : Context} {n n₁ n' : Nat} {first second inner : Code}

theorem still (stays : ∀ line ∈ inner, line.Stays ctx (marks inner)) (n : Nat) :
    Enclosed ctx n inner n where
  stays := stays
  covers _ low high := absurd high (Nat.not_lt.mpr low)

theorem plain (plain : Plain inner) (n : Nat) : Enclosed ctx n inner n :=
  still (fun line mem => Line.stays_of_isPlain (List.all_eq_true.mp plain line mem)) n

theorem append (h₁ : Enclosed ctx n first n₁) (h₂ : Enclosed ctx n₁ second n') :
    Enclosed ctx n (first ++ second) n' where
  stays line mem := by
    rw [marks_append]
    rcases List.mem_append.mp mem with mem | mem
    · exact (h₁.stays line mem).mono (List.subset_append_left _ _)
    · exact (h₂.stays line mem).mono (List.subset_append_right _ _)
  covers number low high := by
    rw [marks_append]
    by_cases before : number < n₁
    · obtain ⟨label, mem, same⟩ := h₁.covers number low before
      exact ⟨label, List.mem_append_left _ mem, same⟩
    · obtain ⟨label, mem, same⟩ := h₂.covers number (Nat.not_lt.mp before) high
      exact ⟨label, List.mem_append_right _ mem, same⟩

theorem perm (h : Enclosed ctx n first n') (p : second.Perm first) : Enclosed ctx n second n' where
  stays line mem := (h.stays line (p.mem_iff.mp mem)).mono fun label isMark =>
    mem_marks.mpr (p.mem_iff.mpr (mem_marks.mp isMark))
  covers number low high := by
    obtain ⟨label, isMark, same⟩ := h.covers number low high
    exact ⟨label, mem_marks.mpr (p.mem_iff.mpr (mem_marks.mp isMark)), same⟩

theorem same (stays : ∀ line ∈ inner, line.Stays ctx (marks inner))
    (number : ∃ label ∈ marks inner, label.number = n) : Enclosed ctx n inner (n + 1) where
  stays := stays
  covers k low high := by
    obtain rfl : k = n := by omega
    exact number

end Enclosed

section Enclosed

variable {ctx : Context} {n n' : Nat} {piece : Code}

private theorem binaryCode_enclosed {op : BinOp} (made : (binaryCode op).Makes n piece n') :
    Enclosed ctx n piece n' := by
  cases binaryCode_makes made with
  | plus | minus | times | div | and | or => exact .plain (by simp) n
  | compared => exact .same (by simp [Line.Stays]) (by simp [Label.number])

theorem resultCode_enclosed {op : BinOp} {total : Address} {place : Place}
    (made : (resultCode op total place).Makes n piece n') : Enclosed ctx n piece n' := by
  cases resultCode_makes made with
  | sum => exact .plain (plain_sum _ _) n
  | computed _ computes => exact (binaryCode_enclosed computes).append (.plain (plain_store _) _)

theorem ExprCode.enclosed {e place} (shape : ExprCode ctx e place n piece n') :
    Enclosed ctx n piece n' := by
  induction shape with
  | known | int | bool | var | element => exact .plain (by simp) _
  | index _ _ _ _ ih => exact ih.append (.plain (by simp) _)
  | unary _ _ ih => exact (ih.append (.plain (by simp) _)).append (.plain (by simp) _)
  | left _ _ _ made ih | right _ _ _ _ made ih =>
      exact (((Enclosed.plain (by simp) _).append ih).append (.plain (by simp) _)).append
        (resultCode_enclosed made)
  | both _ _ _ _ _ made second first =>
      exact ((((Enclosed.plain (by simp) _).append second).append first).append
        (.plain (by simp [Line.isPlain]) _)).append (resultCode_enclosed made)

theorem conditionCode_enclosed {cond : Expr} (made : (conditionCode ctx cond).Makes n piece n') :
    Enclosed ctx n piece n' := by
  obtain ⟨made⟩ := conditionCode_makes made
  exact made.enclosed.append (.plain (by simp) _)

theorem ArgsCode.enclosed {args} (shape : ArgsCode ctx args n piece n') :
    Enclosed ctx n piece n' := by
  induction shape with
  | nil => exact .plain plain_nil _
  | cons _ made ih => exact ih.append made.enclosed

theorem callCode_enclosed {callee : String} {args : List Expr}
    (made : (callCode ctx callee args).Makes n piece n') : Enclosed ctx n piece n' := by
  obtain ⟨found, isFunc, pushed⟩ := callCode_makes made
  have call : Enclosed ctx n' [.instr (.call (.function callee))] n' :=
    .still (by simp [Line.Stays, found, isFunc]) n'
  exact ((Enclosed.plain (plain_note _ _) _).append pushed.enclosed).append call

private theorem assignCode_enclosed {slot : Address} {value : Expr}
    (made : (assignCode ctx slot value).Makes n piece n') : Enclosed ctx n piece n' := by
  cases assignCode_makes made with
  | known => exact .plain (by simp) n
  | computed _ made => exact made.enclosed.append (.plain (by simp) _)

private theorem assignIndexCode_enclosed {symbol : Symbol} {index value : Expr}
    (made : (assignIndexCode ctx symbol index value).Makes n piece n') :
    Enclosed ctx n piece n' := by
  cases assignIndexCode_makes made with
  | known => exact .plain (by simp) n
  | content _ _ made | place _ _ made => exact made.enclosed.append (.plain (by simp) _)
  | both _ _ madeIndex made =>
      exact ((madeIndex.enclosed.append made.enclosed).append (.plain (by simp) _)).append
        (.plain (by simp) _)

private theorem callIndexCode_enclosed {symbol : Symbol} {index : Expr} {callee : String}
    {args : List Expr} (made : (callIndexCode ctx symbol index callee args).Makes n piece n') :
    Enclosed ctx n piece n' := by
  cases callIndexCode_makes made with
  | known _ called =>
      exact ((callCode_enclosed called).append (.plain (plain_release _) _)).append
        (.plain (by simp) _)
  | computed _ madeIndex called =>
      exact (((madeIndex.enclosed.append (callCode_enclosed called)).append
        (.plain (plain_release _) _)).append (.plain (by simp) _)).append (.plain (by simp) _)

theorem StmtsCode.enclosed {stmts} (shape : StmtsCode ctx stmts n piece n') :
    Enclosed ctx n piece n' := by
  induction shape with
  | nil => exact .plain plain_nil _
  | assign _ made _ ih =>
      exact ((Enclosed.plain (plain_note _ _) _).append (assignCode_enclosed made)).append ih
  | assignIndex _ made _ ih =>
      exact ((Enclosed.plain (plain_note _ _) _).append (assignIndexCode_enclosed made)).append ih
  | call _ made _ ih =>
      exact (((callCode_enclosed made).append (.plain (by simp) _)).append
        (.plain (plain_release _) _)).append ih
  | callIndex _ made _ ih => exact (callIndexCode_enclosed made).append ih
  | whenFalse _ _ _ ih | loopFalse _ _ _ ih => exact (Enclosed.plain (plain_note _ _) _).append ih
  | whenTrue _ _ _ inner later | chooseTrue _ _ _ inner later | chooseFalse _ _ _ _ inner later =>
      exact ((Enclosed.plain (plain_note _ _) _).append inner).append later
  | block _ _ inner later => exact inner.append later
  | @when _ _ _ n _ _ _ _ _ _ _ made _ _ inner later =>
      have own : Enclosed ctx n [.instr (.jump .notEqual (.whenDone n)), .label (.whenDone n)]
          (n + 1) := .same (by simp [Line.Stays]) (by simp [Label.number])
      refine (own.append (((conditionCode_enclosed made).append inner).append later)).perm ?_
      exact List.perm_iff_count.mpr fun line => by
        simp only [List.count_append, List.count_cons, List.count_nil]
        omega
  | @choose _ _ _ _ n _ _ _ _ _ _ _ _ _ made _ _ _ first second later =>
      have own : Enclosed ctx n [.instr (.jump .notEqual (.otherwise n)), .label (.otherwise n)]
          (n + 1) := .same (by simp [Line.Stays]) (by simp [Label.number])
      have done : Enclosed ctx (n + 1)
          [.instr (.jump .always (.chooseDone (n + 1))), .label (.chooseDone (n + 1))] (n + 2) :=
        .same (by simp [Line.Stays]) (by simp [Label.number])
      refine ((own.append done).append
        ((((conditionCode_enclosed made).append first).append second).append later)).perm ?_
      exact List.perm_iff_count.mpr fun line => by
        simp only [List.count_append, List.count_cons, List.count_nil]
        omega
  | @loopTrue _ _ _ n _ _ _ _ _ _ _ inner later =>
      have own : Enclosed ctx n (ctx.note "while folded to true" ++
          [.label (.loop n), .instr (.jump .always (.loop n))]) (n + 1) :=
        (Enclosed.plain (plain_note _ _) n).append
          (.same (by simp [Line.Stays]) (by simp [Label.number]))
      refine ((own.append inner).append later).perm ?_
      exact List.perm_iff_count.mpr fun line => by
        simp only [List.count_append, List.count_cons, List.count_nil]
        omega
  | @loop _ _ _ n _ _ _ _ _ _ _ made _ _ inner later =>
      have own : Enclosed ctx n [.label (.loop n), .instr (.jump .notEqual (.loopDone n)),
          .instr (.jump .always (.loop n)), .label (.loopDone n)] (n + 1) :=
        .same (by simp [Line.Stays]) (by simp [Label.number])
      refine (own.append (((conditionCode_enclosed made).append inner).append later)).perm ?_
      exact List.perm_iff_count.mpr fun line => by
        simp only [List.count_append, List.count_cons, List.count_nil]
        omega

theorem FuncCode.enclosed {func size} (shape : FuncCode ctx func size n piece n') :
    Enclosed ctx n piece n' := by
  obtain ⟨body, result⟩ := shape
  refine ((((((Enclosed.plain ?_ _).append body.enclosed).append (.plain (by simp) _)).append
    result.enclosed).append (.plain (by simp) _)).append (.plain (by simp) _)).append
      (.still (by simp [Line.Stays]) _)
  split
  · simp
  · simp

end Enclosed

/-- The code of a function by itself, with the label numbers before and behind it. -/
theorem funcCode_shape {options : Options} {facts : FactTable} {table : Table} {func : Func}
    {n n' : Nat} {block : Code} (made : (funcCode options facts table func).Makes n block n') :
    ∃ scope text inner, func.scope = some scope ∧
      FuncCode (.ofScope options facts table scope) func (table.scopeSize scope) n inner n' ∧
        block = Context.note (.ofScope options facts table scope) text ++ entryLabels func.name ++
          (inner ++ [.instr .ret]) := by
  have alone : (funcsCode options facts table [func]).Makes n (block ++ []) n' := by
    simp only [funcsCode, Gen.makes_bind, Gen.makes_pure]
    exact ⟨block, n', made, [], n', ⟨rfl, rfl⟩, rfl, rfl⟩
  generalize whole : block ++ [] = code at alone
  obtain _ | ⟨text, known, shape, later⟩ := funcsCode_makes alone
  cases later
  simp only [List.append_nil] at whole
  exact ⟨_, text, _, known, shape, by simp [whole]⟩

theorem note_isComment (ctx : Context) (text : String) :
    ∀ line ∈ ctx.note text, line.isComment = true := by
  unfold Context.note
  split
  · simp [Line.isComment]
  · simp

theorem instr_mem_block {ctx : Context} {text name : String} {inner : Code} {op : Instr}
    (mem : .instr op ∈ ctx.note text ++ entryLabels name ++ (inner ++ [.instr .ret])) :
    .instr op ∈ inner ∨ op = .ret := by
  rcases List.mem_append.mp mem with before | mem
  · rcases List.mem_append.mp before with note | entry
    · exact absurd (note_isComment ctx text _ note) nofun
    · unfold entryLabels at entry
      split at entry <;> simp at entry
  · simpa using mem

theorem FuncCode.isBlock {ctx : Context} {func : Func} {size n n' : Nat} {inner : Code}
    (shape : FuncCode ctx func size n inner n') (text : String) :
    IsBlock func.name (ctx.note text ++ entryLabels func.name ++ (inner ++ [.instr .ret])) where
  starts := by
    refine ⟨_, _, rfl, note_isComment ctx text, fun label mem => ?_⟩
    exact shape.numbered.generated label (mem_marks.mpr (by simpa using mem))
  jumps cond target mem := by
    obtain inside | isReturn := instr_mem_block mem
    · have own : target ∈ marks inner := shape.enclosed.stays _ inside
      exact ⟨shape.numbered.generated target own, by simp [mem_marks.mp own]⟩
    · cases isReturn

private theorem blocksCode_makes {options : Options} {facts : FactTable} {table : Table}
    {funcs : List Func} {n n' : Nat} {blocks : List Code}
    (made : (blocksCode options facts table funcs).Makes n blocks n') :
    List.Forall₂ IsBlock (funcs.map Func.name) blocks ∧
      (∀ target, .instr (.call target) ∈ blocks.flatten → ∃ func ∈ funcs,
        ∃ scope name symbol params, func.scope = some scope ∧ target = .function name ∧
          table.lookup scope name = some symbol ∧ symbol.params? = some params) ∧
      ∀ number, n ≤ number → number < n' →
        ∃ label ∈ marks blocks.flatten, label.isGenerated = true ∧ label.number = number := by
  unfold blocksCode at made
  induction funcs generalizing n blocks with
  | nil =>
      rw [List.mapM_nil] at made
      obtain ⟨rfl, rfl⟩ := (Gen.makes_pure _ _ _ _).mp made
      exact ⟨.nil, by simp, fun _ low high => absurd high (Nat.not_lt.mpr low)⟩
  | cons func rest ih =>
      simp only [List.mapM_cons, Gen.makes_bind, Gen.makes_pure] at made
      obtain ⟨block, n₁, first, others, _, later, rfl, rfl⟩ := made
      obtain ⟨scope, text, inner, known, shape, rfl⟩ := funcCode_shape first
      obtain ⟨areBlocks, calls, covers⟩ := ih later
      rw [List.flatten_cons]
      refine ⟨.cons (shape.isBlock text) areBlocks, fun target mem => ?_,
        fun number low high => ?_⟩
      · rcases List.mem_append.mp mem with own | mem
        · obtain inside | isReturn := instr_mem_block own
          · obtain ⟨name, symbol, params, called⟩ := shape.enclosed.stays _ inside
            exact ⟨func, List.mem_cons_self, scope, name, symbol, params, known, called⟩
          · cases isReturn
        · obtain ⟨caller, inRest, found⟩ := calls target mem
          exact ⟨caller, List.mem_cons_of_mem _ inRest, found⟩
      · rw [marks_append]
        by_cases own : number < n₁
        · obtain ⟨label, mem, same⟩ := shape.enclosed.covers number low own
          exact ⟨label, by simp [mem], shape.numbered.generated label mem, same⟩
        · obtain ⟨label, mem, found⟩ := covers number (Nat.not_lt.mp own) high
          exact ⟨label, List.mem_append_right _ mem, found⟩

/-- The code of functions is the code of each of them. -/
theorem funcsCode_eq (options : Options) (facts : FactTable) (table : Table) (funcs : List Func) :
    funcsCode options facts table funcs =
      List.flatten <$> blocksCode options facts table funcs := by
  unfold blocksCode
  induction funcs with
  | nil => simp [funcsCode]
  | cons func rest ih => simp [funcsCode, ih]

private theorem blocksCode_funcsCode {options : Options} {facts : FactTable} {table : Table}
    {funcs : List Func} {n n' : Nat} {blocks : List Code}
    (made : (blocksCode options facts table funcs).Makes n blocks n') :
    FuncsCode options facts table funcs n blocks.flatten n' := by
  refine funcsCode_makes ?_
  rw [funcsCode_eq, ← bind_pure_comp, Gen.makes_bind]
  exact ⟨blocks, n', made, (Gen.makes_pure _ _ _ _).mpr ⟨rfl, rfl⟩⟩

theorem generate_eq_blocks (options : Options) (facts : FactTable) (table : Table)
    (program : Program) : generate options facts table program =
      (fun made => (header ++ made.1.flatten, made.2)) <$>
        (blocksCode options facts table program).run 0 := by
  rw [generate, funcsCode_eq, StateT.run_map, bind_map_left]
  exact bind_pure_comp _ _

end Asm

variable {options : Options} {program : Program}

theorem Program.blocks_eq_ok {blocks : List Asm.Code} {labels : Nat} :
    program.blocks options = .ok (blocks, labels) ↔ ∃ checked checker,
      program.check = .ok checked checker ∧
        (Asm.blocksCode options
          (if options.folding then (Program.flow checked).table else .empty) checker.table
          checked).Makes 0 blocks labels := by
  simp only [Program.blocks, bind_eq_ok, Prod.exists, checkProgram_eq_ok, findFacts_result,
    Except.ok.injEq]
  constructor
  · rintro ⟨checked, _, ⟨checker, passed, rfl⟩, _, rfl, made⟩
    exact ⟨checked, checker, passed, made⟩
  · rintro ⟨checked, checker, passed, made⟩
    exact ⟨checked, _, ⟨checker, passed, rfl⟩, _, rfl, made⟩

private theorem compileRead_eq (options : Options) (program : Program) :
    compileRead options program =
      (fun made => Asm.header ++ made.1.flatten) <$> program.blocks options := by
  have generated : ∀ facts table checked, (generateCode options facts table checked).result =
      (fun made => Asm.header ++ made.1.flatten) <$>
        (Asm.blocksCode options facts table checked).run 0 := by
    intro facts table checked
    unfold generateCode
    rw [Asm.generate_eq_blocks]
    cases (Asm.blocksCode options facts table checked).run 0 <;> rfl
  simp only [compileRead, Program.blocks, Outcome.andThen_result, generated, map_bind]

theorem compileRead_eq_ok {code : Asm.Code} : compileRead options program = .ok code ↔
    ∃ blocks labels, program.blocks options = .ok (blocks, labels) ∧
      code = Asm.header ++ blocks.flatten := by
  rw [compileRead_eq]
  cases program.blocks options with
  | error => simp
  | ok made => simp [Prod.ext_iff, eq_comm]

theorem Outcome.getLast?_andThen {α β : Type} {outcome : Outcome α} {next : α → Outcome β} {a : α}
    {event : Event} (done : outcome.result = .ok a)
    (last : (next a).events.getLast? = some event) :
    (outcome.andThen next).events.getLast? = some event := by
  simp [andThen, done, List.getLast?_append, last]

private theorem getLast?_events {text : String} {checked : Program} {checker : Checker}
    {code : Asm.Code}
    {labels : Nat} (read : (readProgram text).result = .ok program)
    (passed : program.check = .ok checked checker)
    (made : Asm.generate options (if options.folding then (Program.flow checked).table else .empty)
      checker.table checked = .ok (code, labels)) :
    (compileReporting options text).events.getLast? = some (.generated labels) := by
  refine Outcome.getLast?_andThen read (Outcome.getLast?_andThen
    (checkProgram_eq_ok.mpr ⟨checker, passed, rfl⟩)
    (Outcome.getLast?_andThen (findFacts_result options checked) ?_))
  rw [generateCode, made]
  rfl

namespace Asm

theorem FuncsCode.generated_nodup {facts : FactTable} {table : Table} {funcs : List Func}
    {n n' : Nat} {code : Code} (shape : FuncsCode options facts table funcs n code n') :
    (((marks code).filter Label.isGenerated).map Label.print).Nodup ∧
      ∀ label ∈ marks code, label.isGenerated = true → label.number < n' := by
  obtain ⟨generated, numbered, perm⟩ := shape.marks_perm
  have entry : ((funcs.map Func.name).flatMap entries).filter Label.isGenerated = [] := by
    refine List.filter_eq_nil_iff.mpr fun label mem => ?_
    obtain ⟨name, _, mem⟩ := List.mem_flatMap.mp mem
    simp [mem_entries mem]
  have own := perm.filter Label.isGenerated
  rw [List.filter_append, entry, List.nil_append,
    List.filter_eq_self.mpr numbered.generated] at own
  constructor
  · refine (own.map Label.print).nodup_iff.mpr (numbered.nodup.map_on fun a memA b memB => ?_)
    exact Label.print_injective (numbered.generated a memA) (numbered.generated b memB)
  · intro label mem isGenerated
    exact numbered.upper label (own.mem_iff.mp (List.mem_filter.mpr ⟨mem, isGenerated⟩))

private theorem label_mem_flatten {names : List String} {blocks : List Code}
    (areBlocks : List.Forall₂ IsBlock names blocks) {name : String} (mem : name ∈ names) :
    .label (.function name) ∈ blocks.flatten := by
  induction areBlocks with
  | nil => exact absurd mem List.not_mem_nil
  | cons isBlock _ ih =>
      rw [List.flatten_cons, List.mem_append]
      rcases List.mem_cons.mp mem with rfl | mem
      · obtain ⟨comments, inner, rfl, -, -⟩ := isBlock.starts
        left
        simp [entryLabels]
      · exact .inr (ih mem)

end Asm

open Asm

/-- Control stays inside the functions. The code of a program consists of a header and a block
    for each function, whose jumps go to generated labels of the block. Calls go to functions of
    the program. The generated labels have different names, and their numbers are those below
    the count that is reported in the end. -/
theorem compile_closed {text : String} {code : Code} (compiled : compile options text = .ok code) :
    ∃ program blocks labels, (readProgram text).result = .ok program ∧
      program.blocks options = .ok (blocks, labels) ∧ code = header ++ blocks.flatten ∧
      List.Forall₂ IsBlock (program.map Func.name) blocks ∧
      (∀ target, .instr (.call target) ∈ code → .label target ∈ code ∧
        ∃ callee ∈ program, target = .function callee.name) ∧
      (((marks code).filter Label.isGenerated).map Label.print).Nodup ∧
      (∀ number, number < labels ↔
        ∃ label ∈ marks code, label.isGenerated = true ∧ label.number = number) ∧
      (compileReporting options text).events.getLast? = some (.generated labels) := by
  rw [compile_eq] at compiled
  obtain ⟨program, read, compiled⟩ := bind_eq_ok.mp compiled
  obtain ⟨blocks, labels, inBlocks, rfl⟩ := compileRead_eq_ok.mp compiled
  obtain ⟨checked, checker, passed, made⟩ := Program.blocks_eq_ok.mp inBlocks
  obtain ⟨areBlocks, calls, covers⟩ := blocksCode_makes made
  have shape := blocksCode_funcsCode made
  have noHeader : marks (header ++ blocks.flatten) = marks blocks.flatten := by simp [header, marks]
  have reported : (compileReporting options text).events.getLast? = some (.generated labels) :=
    getLast?_events read passed (by rw [generate_eq_blocks, made]; rfl)
  obtain ⟨nodup, rfl, table, -⟩ := Program.check_eq_ok passed
  rw [Program.map_name_withScopes] at areBlocks
  refine ⟨program, blocks, labels, read, inBlocks, rfl, areBlocks, fun target mem => ?_,
    ?_, fun number => ⟨fun low => ?_, ?_⟩, reported⟩
  · have inBody : .instr (.call target) ∈ blocks.flatten := by simpa [header] using mem
    obtain ⟨func, inProgram, scope, name, symbol, params, known, rfl, found, isFunc⟩ :=
      calls target inBody
    obtain ⟨original, inOriginal, scope', rfl, lookup, -⟩ := Program.mem_withScopes inProgram
    obtain rfl : scope' = scope := Option.some.inj known
    rw [table, lookup] at found
    have callable : (original.lookup program).callee name params 0 = .ok () :=
      Lookup.callee_eq_ok.mpr ⟨symbol, found, isFunc⟩
    obtain ⟨-, callee, inCallees, rfl, -⟩ := (Func.callee_iff nodup).mp callable
    exact ⟨List.mem_append_right _ (label_mem_flatten areBlocks (List.mem_map_of_mem inCallees)),
      callee, inCallees, rfl⟩
  · rw [noHeader]
    exact shape.generated_nodup.1
  · rw [noHeader]
    exact covers number (Nat.zero_le _) low
  · rw [noHeader]
    rintro ⟨label, mem, isGenerated, rfl⟩
    exact shape.generated_nodup.2 label mem isGenerated

/-- Two functions with conditions and loops inside each other, one of them with a known
    condition. -/
def nestedText : String :=
  "function g(n: int): int \x7b
     while (n < 9) \x7b if (true) \x7b n = n + 1; \x7d else \x7b while (true) \x7b \x7d \x7d \x7d
     return n; \x7d
   function Main(n: int): int \x7b if (n == 0) \x7b n = g(n); \x7d return n; \x7d"

/-- The code of these functions uses four label numbers. -/
theorem nested_closed : ∃ code blocks, compile {} nestedText = .ok code ∧
    code = header ++ blocks.flatten ∧ List.Forall₂ IsBlock ["g", "Main"] blocks ∧
    (∀ target, .instr (.call target) ∈ code → .label target ∈ code) ∧
    (((marks code).filter Label.isGenerated).map Label.print).Nodup ∧
    (∀ number, number < 4 ↔
      ∃ label ∈ marks code, label.isGenerated = true ∧ label.number = number) ∧
    (compileReporting {} nestedText).events.getLast? = some (.generated 4) := by
  obtain ⟨program, read, counted⟩ := exists_ok_of_any (x := (readProgram nestedText).result)
    (p := fun program => program.map Func.name == ["g", "Main"] &&
      (program.blocks {}).toOption.any fun made => made.2 == 4) (by decide +kernel)
  simp only [Bool.and_eq_true, beq_iff_eq] at counted
  obtain ⟨⟨blocks, labels⟩, inBlocks, four⟩ := exists_ok_of_any counted.2
  obtain rfl : labels = 4 := by simpa using four
  have compiled : compile {} nestedText = .ok (header ++ blocks.flatten) := by
    rw [compile_eq, read]
    exact compileRead_eq_ok.mpr ⟨blocks, 4, inBlocks, rfl⟩
  obtain ⟨program', blocks', labels', again, inBlocks', -, areBlocks, calls, nodup, numbers,
    reported⟩ := compile_closed compiled
  obtain rfl := Except.ok.inj (read.symm.trans again)
  obtain ⟨rfl, rfl⟩ := Prod.mk.inj (Except.ok.inj (inBlocks.symm.trans inBlocks'))
  rw [counted.1] at areBlocks
  exact ⟨_, blocks, compiled, rfl, areBlocks, fun target mem => (calls target mem).1, nodup,
    numbers, reported⟩

end Wordlang
