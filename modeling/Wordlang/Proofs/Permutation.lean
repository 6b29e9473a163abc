import Wordlang.Proofs.Live
import Wordlang.Proofs.Propagation
import Wordlang.Proofs.Renumbering

/-! # Order of functions

A program means the same in whatever order its functions stand. What a function declares, what
its names mean and what is found out about its nodes comes from its own tree and from the names
and parameters of the functions, so it is accepted in every order, and its code differs in
nothing but the numbers from which its labels are counted.
-/

namespace Wordlang

namespace Program

variable {program other : Program}

theorem lookup_perm (nodup : (List.map Func.name program).Nodup) (perm : other.Perm program)
    (func : Func) : func.lookup other = func.lookup program := by
  have nodup' : (List.map Func.name other).Nodup := (perm.map Func.name).nodup_iff.mpr nodup
  have same : ∀ name, (globalScope other).find? name = (globalScope program).find? name := by
    refine fun name => Option.ext fun symbol => ?_
    simp only [globalScope_find?_eq_some nodup, globalScope_find?_eq_some nodup', perm.mem_iff]
  funext name
  rw [Func.lookup, Func.lookup, same]

theorem exists_check_of_perm {checked : Program} {checker : Checker}
    (passed : program.check = .ok checked checker) (perm : other.Perm program) :
    ∃ checked' checker', other.check = .ok checked' checker' := by
  obtain ⟨nodup, -, -, checks⟩ := check_eq_ok passed
  refine check_of_checks ((perm.map Func.name).nodup_iff.mpr nodup) fun func mem => ?_
  obtain ⟨scalar, distinct, names⟩ := checks func (perm.mem_iff.mp mem)
  exact ⟨scalar, distinct, by rwa [lookup_perm nodup perm]⟩

end Program

def Func.trail (func : Func) : List (Nat × Fact) := (func.walk.run {}).2.records.toList

theorem Func.walk_finds (func : Func) : func.walk.Finds () func.trail ∧
    ∀ id ∈ func.trail.map (·.1), id ∈ func.exprs.flatMap Expr.ids := by
  obtain ⟨_, trail, finds, -, sub, -⟩ := func.walk_settles
  have own : func.trail = trail := (finds {}).2
  rw [own]
  exact ⟨finds, sub⟩

namespace Program

theorem walk_finds (program : Program) :
    (Program.walk program).Finds () (program.flatMap Func.trail) := by
  induction program with
  | nil => exact Walk.finds_pure ()
  | cons func rest ih => exact func.walk_finds.1.bind ih

theorem records_flow (program : Program) :
    (flow program).records.toList = program.flatMap Func.trail :=
  (walk_finds program {}).2

end Program

theorem FactTable.get_ofList_middle {before own after : List (Nat × Fact)} {id : Nat}
    (notBefore : id ∉ before.map (·.1)) (notAfter : id ∉ after.map (·.1)) :
    (ofList (before ++ own ++ after)).get id = (ofList own).get id := by
  rw [get_ofList_append, if_neg notAfter, get_ofList_append]
  split
  · rfl
  · next absent => rw [get_ofList_of_notMem notBefore, get_ofList_of_notMem absent]

namespace Program

variable {program other : Program}

theorem get_flow (nodup : program.ids.Nodup) {func : Func} (mem : func ∈ program) {id : Nat}
    (inside : id ∈ func.exprs.flatMap Expr.ids) :
    (flow program).table.get id = (FactTable.ofList func.trail).get id := by
  have outside : ∀ funcs : List Func, (∀ id' ∈ ids funcs, id' ≠ id) →
      id ∉ (funcs.flatMap Func.trail).map (·.1) := by
    intro funcs apart recorded
    obtain ⟨entry, inTrail, rfl⟩ := List.mem_map.mp recorded
    obtain ⟨other, inFuncs, inTrail⟩ := List.mem_flatMap.mp inTrail
    have owned := other.walk_finds.2 _ (List.mem_map_of_mem inTrail)
    refine apart entry.1 ?_ rfl
    rw [ids, List.flatMap_assoc]
    exact List.mem_flatMap.mpr ⟨other, inFuncs, owned⟩
  obtain ⟨before, after, rfl⟩ := List.append_of_mem mem
  simp only [ids, List.flatMap_append, List.flatMap_cons, List.nodup_append] at nodup
  rw [Flow.table, records_flow, List.flatMap_append, List.flatMap_cons, ← List.append_assoc]
  refine FactTable.get_ofList_middle (outside before fun id' mem' same => ?_)
    (outside after fun id' mem' same => ?_)
  · exact nodup.2.2 id' mem' id (List.mem_append_left _ inside) same
  · exact nodup.2.1.2.2 id inside id' mem' same.symm

private theorem ids_perm (perm : other.Perm program) : (ids other).Perm (ids program) :=
  (perm.flatMap_right _).flatMap_right _

theorem agreesOn_flow_of_perm (nodup : program.ids.Nodup) (perm : other.Perm program) {func : Func}
    (mem : func ∈ program) :
    (flow other).table.AgreesOn (flow program).table (func.exprs.flatMap Expr.ids) := by
  intro id inside
  have nodup' : other.ids.Nodup := (ids_perm perm).nodup_iff.mpr nodup
  rw [get_flow nodup mem inside, get_flow nodup' (perm.mem_iff.mpr mem) inside]

end Program

namespace Asm

variable {options : Options} {facts : FactTable} {table : Table}

theorem exists_block {funcs : List Func} {n n' : Nat} {blocks : List Code}
    (made : (blocksCode options facts table funcs).Makes n blocks n') {i : Nat} {func : Func}
    (at_ : funcs[i]? = some func) : ∃ m block m', blocks[i]? = some block ∧
      (funcCode options facts table func).Makes m block m' := by
  unfold blocksCode at made
  induction funcs generalizing n blocks i with
  | nil => simp at at_
  | cons first rest ih =>
      simp only [List.mapM_cons, Gen.makes_bind, Gen.makes_pure] at made
      obtain ⟨block, n₁, own, others, _, later, rfl, rfl⟩ := made
      cases i with
      | zero =>
          obtain rfl : first = func := by simpa using at_
          exact ⟨n, block, n₁, rfl, own⟩
      | succ i => exact ih later (by simpa using at_)

private theorem le_number_of_funcCode {func : Func} {n n' : Nat} {block : Code}
    (made : (funcCode options facts table func).Makes n block n') {label : Label}
    (mem : label ∈ marks block) (generated : label.isGenerated = true) : n ≤ label.number := by
  obtain ⟨scope, text, inner, -, shape, rfl⟩ := funcCode_shape made
  have inside : label ∈ marks inner := by
    simp only [marks_append, marks_note, marks_entryLabels, marks_instr, marks_nil,
      List.nil_append, List.append_nil, List.mem_append] at mem
    exact mem.resolve_left fun entry => absurd generated (by simp [mem_entries entry])
  exact shape.numbered.lower label inside

theorem blocksCode_succeeds {program checked : Program} {checker : Checker}
    (passed : program.check = .ok checked checker) (options : Options) (facts : FactTable) :
    ∃ blocks labels, (blocksCode options facts checker.table checked).Makes 0 blocks labels := by
  obtain ⟨code, labels, made⟩ := generate_succeeds passed options facts
  obtain ⟨body, -, made⟩ := generate_makes made
  rw [funcsCode_eq, ← bind_pure_comp, Gen.makes_bind] at made
  obtain ⟨blocks, n', made, -⟩ := made
  exact ⟨blocks, n', made⟩

end Asm

theorem Program.getElem?_withScopes {program : Program} {i : Nat} {func : Func}
    (at_ : program[i]? = some func) :
    program.withScopes[i]? = some { func with scope := some (i + 1) } := by
  simp [withScopes, Func.scopedFrom, List.getElem?_zipIdx, at_, Nat.add_comm]

open Asm

/-- The blocks of a function in two orders of a program are the same up to a constant in the
    numbers of their generated labels. -/
theorem block_of_perm {options : Options} {facts facts' : FactTable} {program other : Program}
    {blocks blocks' : List Code} {labels labels' i j : Nat} {func : Func}
    (nodup : (List.map Func.name program).Nodup) (perm : other.Perm program)
    (agrees : facts'.AgreesOn facts (func.exprs.flatMap Expr.ids))
    (made : (blocksCode options facts (.ofFuncs program program) program.withScopes).Makes
      0 blocks labels)
    (made' : (blocksCode options facts' (.ofFuncs other other) other.withScopes).Makes
      0 blocks' labels')
    (at_ : program[i]? = some func) (at_' : other[j]? = some func) :
    ∃ (block : Code) (shift : Int), blocks[i]? = some block ∧
      blocks'[j]? = some (block.map (Line.renumber shift)) ∧
      ∀ label ∈ marks block, label.isGenerated = true → 0 ≤ label.number + shift := by
  obtain ⟨n, block, n', stands, own⟩ := exists_block made (Program.getElem?_withScopes at_)
  obtain ⟨m, block', m', stands', own'⟩ := exists_block made' (Program.getElem?_withScopes at_')
  have lookup : (Table.ofFuncs other other).lookup (j + 1) =
      (Table.ofFuncs program program).lookup (i + 1) := by
    rw [Table.lookup_ofFuncs at_, Table.lookup_ofFuncs at_', Program.lookup_perm nodup perm]
  have size : (Table.ofFuncs other other).scopeSize (j + 1) =
      (Table.ofFuncs program program).scopeSize (i + 1) := by
    rw [Table.scopeSize_ofFuncs at_, Table.scopeSize_ofFuncs at_']
  obtain ⟨m₁, -, moved⟩ := funcCode_moves lookup size agrees n block n' own m
    (show (m : Int) = n + (m - n) by omega)
  obtain ⟨rfl, rfl⟩ := moved.unique own'
  refine ⟨block, m - n, stands, stands', fun label mem generated => ?_⟩
  have low := le_number_of_funcCode own mem generated
  omega

/-- Functions can be put in any order. A program is accepted in one order when it is in another,
    and then each function has the same block of lines, except that a constant is added to the
    numbers of its generated labels. -/
theorem blocks_of_perm {text : String} {program other : Program}
    (read : (readProgram text).result = .ok program) (perm : other.Perm program) :
    ((∃ made, (checkProgram program).result = .ok made) ↔
      ∃ made, (checkProgram other).result = .ok made) ∧
    ((∃ made, (checkProgram program).result = .ok made) → ∀ options,
      ∃ blocks blocks' labels labels', program.blocks options = .ok (blocks, labels) ∧
        other.blocks options = .ok (blocks', labels') ∧
        compileRead options program = .ok (header ++ blocks.flatten) ∧
        compileRead options other = .ok (header ++ blocks'.flatten) ∧
        ∀ (i j : Nat) (func : Func), program[i]? = some func → other[j]? = some func →
          ∃ (block : Code) (shift : Int), blocks[i]? = some block ∧
            blocks'[j]? = some (block.map (Line.renumber shift)) ∧
            ∀ label ∈ marks block, label.isGenerated = true → 0 ≤ label.number + shift) := by
  have accepts : ∀ {program other : Program}, other.Perm program →
      (∃ made, (checkProgram program).result = .ok made) →
        ∃ made, (checkProgram other).result = .ok made := by
    rintro program other perm ⟨⟨checked, table⟩, accepted⟩
    obtain ⟨checker, passed, rfl⟩ := checkProgram_eq_ok.mp accepted
    obtain ⟨checked', checker', passed'⟩ := Program.exists_check_of_perm passed perm
    exact ⟨_, checkProgram_eq_ok.mpr ⟨checker', passed', rfl⟩⟩
  refine ⟨⟨accepts perm, accepts perm.symm⟩, ?_⟩
  rintro ⟨⟨checked, table⟩, accepted⟩ options
  obtain ⟨checker, passed, rfl⟩ := checkProgram_eq_ok.mp accepted
  obtain ⟨checked', checker', passed'⟩ := Program.exists_check_of_perm passed perm
  obtain ⟨blocks, labels, made⟩ := blocksCode_succeeds passed options
    (if options.folding then (Program.flow checked).table else .empty)
  obtain ⟨blocks', labels', made'⟩ := blocksCode_succeeds passed' options
    (if options.folding then (Program.flow checked').table else .empty)
  have inBlocks : program.blocks options = .ok (blocks, labels) :=
    Program.blocks_eq_ok.mpr ⟨checked, checker, passed, made⟩
  have inBlocks' : other.blocks options = .ok (blocks', labels') :=
    Program.blocks_eq_ok.mpr ⟨checked', checker', passed', made'⟩
  refine ⟨blocks, blocks', labels, labels', inBlocks, inBlocks',
    compileRead_eq_ok.mpr ⟨blocks, labels, inBlocks, rfl⟩,
    compileRead_eq_ok.mpr ⟨blocks', labels', inBlocks', rfl⟩, fun i j func at_ at_' => ?_⟩
  obtain ⟨nodup, rfl, table, -⟩ := Program.check_eq_ok passed
  obtain ⟨-, rfl, table', -⟩ := Program.check_eq_ok passed'
  rw [table, Program.flow_withScopes] at made
  rw [table', Program.flow_withScopes] at made'
  refine block_of_perm nodup perm ?_ made made' at_ at_'
  split
  · exact Program.agreesOn_flow_of_perm (Program.ids_nodup read) perm (List.mem_of_getElem? at_)
  · exact fun _ _ => rfl

def mutualText : String :=
  "function f(n: int): int \x7b if (n > 0) \x7b n = g(n); \x7d return n; \x7d
   function g(n: int): int \x7b while (n == 1) \x7b n = f(n); \x7d return n; \x7d"

/-- Where the functions stand the other way round, the labels of the first one are counted from
    two on. -/
theorem mutual_blocks : ∃ program block blocks blocks' labels labels', ∃ shift : Int,
    (readProgram mutualText).result = .ok program ∧ program.reverse.Perm program ∧
    program.blocks {} = .ok (blocks, labels) ∧
    Program.blocks {} program.reverse = .ok (blocks', labels') ∧ blocks[0]? = some block ∧
    blocks'[1]? = some (block.map (Line.renumber shift)) ∧ .whenDone 0 ∈ marks block ∧
    .whenDone 2 ∈ marks (block.map (Line.renumber shift)) := by
  obtain ⟨program, read, checked⟩ := exists_ok_of_any (x := (readProgram mutualText).result)
    (p := fun program => program.length == 2 && (checkProgram program).result.toOption.isSome &&
      ((program.blocks {}).toOption.any fun made =>
        made.1[0]?.any fun block => decide (.whenDone 0 ∈ marks block)) &&
      (Program.blocks {} program.reverse).toOption.any fun made =>
        made.1[1]?.any fun block => decide (.whenDone 2 ∈ marks block)) (by decide +kernel)
  simp only [Bool.and_eq_true, beq_iff_eq] at checked
  obtain ⟨⟨⟨two, accepted⟩, first⟩, last⟩ := checked
  obtain ⟨made, accepted⟩ : ∃ made, (checkProgram program).result = .ok made := by
    cases outcome : (checkProgram program).result with
    | error => simp [outcome, Except.toOption] at accepted
    | ok made => exact ⟨made, rfl⟩
  obtain ⟨blocks, blocks', labels, labels', own, own', -, -, same⟩ :=
    (blocks_of_perm read (List.reverse_perm program)).2 ⟨made, accepted⟩ {}
  obtain ⟨f, g, rfl⟩ := List.length_eq_two.mp two
  obtain ⟨block, shift, stands, stands', -⟩ := same 0 1 f rfl rfl
  rw [own] at first
  rw [own'] at last
  refine ⟨_, block, blocks, blocks', labels, labels', shift, read, List.reverse_perm _, own, own',
    stands, stands', ?_, ?_⟩
  · simpa [Except.toOption, stands] using first
  · simpa [Except.toOption, stands'] using last

end Wordlang
