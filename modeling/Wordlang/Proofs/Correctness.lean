import Wordlang.Proofs.Acceptance
import Wordlang.Proofs.Labels
import Wordlang.Proofs.Statements

/-! # Correctness of compilation

Where a source program computes a value, its assembly computes the same value and
leaves the caller as it was. The only assumptions beside the stack are that the
assembly can be loaded, that no function bears the name of another label, and that
what is known about expressions is true wherever they are evaluated. Without folding
nothing is known, so nothing needs to be true.
-/

namespace Wordlang.Asm

open Machine

variable {options : Options} {facts : FactTable} {program : Program} {code : Code} {image : Image}

/-- Each function of a code has its place there. -/
theorem FuncsCode.placed {table : Table} {funcs : List Func} {n : Nat} {piece : Code} {n' : Nat}
    (shape : FuncsCode options facts table funcs n piece n') {line : Nat}
    (at_ : CodeAt code line piece) {func : Func} (mem : func ∈ funcs) :
    ∃ scope n inner n' entry, func.scope = some scope ∧
      FuncCode (.ofScope options facts table scope) func (table.scopeSize scope) n inner n' ∧
        CodeAt code entry (.label (.function func.name) :: (inner ++ [.instr .ret])) := by
  induction shape generalizing line with
  | nil => exact absurd mem List.not_mem_nil
  | @cons text first rest scope n inner n₁ later n' known own _ ih =>
      obtain ⟨placed, placedLater⟩ := CodeAt.append_iff.mp at_
      obtain rfl | inRest := List.mem_cons.mp mem
      · have labels : entryLabels func.name =
            (if func.name = "Main" then [.label .start] else []) ++
              [.label (.function func.name)] := rfl
        rw [labels, ← List.append_assoc, List.append_assoc, List.append_assoc] at placed
        exact ⟨scope, n, inner, n₁, _, known, own, (CodeAt.append_iff.mp placed).2⟩
      · exact ih placedLater inRest

/-- In the code of a checked program all functions have their place. -/
theorem linked_of_generate {checked : Program} {checker : Checker} {labels : Nat}
    (passed : program.check = .ok checked checker)
    (made : generate options facts checker.table checked = .ok (image.code, labels))
    (apart : NamesApart program) : Linked options facts program image := by
  obtain ⟨nodup, rfl, table, checks⟩ := Program.check_eq_ok passed
  obtain ⟨body, whole, shape⟩ := generate_eq_ok made
  have apartScoped : NamesApart program.withScopes := by
    intro func mem
    obtain ⟨original, inProgram, scope, rfl, -⟩ := Program.mem_withScopes mem
    exact apart original inProgram
  have unique : (Code.labels image.code).Nodup :=
    whole ▸ shape.labels_nodup (by simpa using nodup) apartScoped
  refine ⟨unique, checks, ?_⟩
  intro func mem
  have named : func.name ∈ program.withScopes.map Func.name := by
    rw [Program.map_name_withScopes]
    exact List.mem_map_of_mem mem
  obtain ⟨checkedFunc, inChecked, sameName⟩ := List.mem_map.mp named
  obtain ⟨original, inProgram, scope, rfl, lookup, size⟩ := Program.mem_withScopes inChecked
  obtain rfl : original = func := List.inj_on_of_nodup_map nodup inProgram mem sameName
  have stands : CodeAt image.code 0 (header ++ body) := whole ▸ CodeAt.all image.code
  obtain ⟨scope', n, inner, n', line, known, own, placed⟩ :=
    shape.placed (CodeAt.append_iff.mp stands).2 inChecked
  obtain rfl := Option.some.inj known
  rw [table, size] at own
  have label := (CodeAt.cons_iff.mp placed).1
  refine ⟨.ofScope options facts checker.table scope, n, inner, n', line, rfl, rfl, ?_, ?_,
    find?_eq unique label, placed⟩
  · rw [Context.ofScope, table, lookup]
  · rw [table]
    obtain ⟨body, result⟩ := own
    exact .mk body result

private theorem stacked_pushArgs {m : Machine} {args : List Word} (room : 4 * args.length ≤ m.top) :
    Stacked m args (m.pushArgs args) := by
  induction args with
  | nil => exact ⟨.refl m, Nat.zero_le _, by simp [pushArgs], by simp⟩
  | cons arg rest ih =>
      rw [List.length_cons] at room
      have stacked := ih (by omega)
      have height := stacked.top_eq
      have roomArg : 4 ≤ (m.pushArgs rest).top := by omega
      have pushed : Delivers (m.pushArgs rest) .stack arg
          ((m.pushArgs rest).push (.word arg)).next :=
        ⟨.push _ roomArg, roomArg, rfl, by simp⟩
      obtain ⟨kept, room, esp, holds⟩ := stacked.pushed pushed
      exact ⟨⟨kept.esi, kept.edi, kept.ebp, kept.memory⟩, room, esp, holds⟩

/-- Called from outside, a function returns the value that it has, if all that is known
    about the expressions of its activity is true. -/
theorem Linked.call_returns (linked : Linked options facts program image)
    (sound : ∀ func ∈ program, ∀ fuel args, ∀ visit ∈ program.activity fuel func args,
      Faithful options facts visit)
    {name : String} {args : List Word} {value : Word} (returns : program.Returns name args value)
    {m : Machine} (fits : m.StackFits image name args) : m.CallReturns image name args value := by
  obtain ⟨fuel, called⟩ := returns
  obtain ⟨func, isFound, computed⟩ := Option.bind_eq_some_iff.mp called
  have mem : func ∈ program := List.mem_of_find?_eq_some isFound
  obtain rfl : func.name = name := by simpa using List.find?_some isFound
  split at computed
  · next arity =>
    obtain ⟨last, ran, evaluated⟩ := Option.bind_eq_some_iff.mp computed
    have true_ := sound func mem fuel args
    simp only [Program.activity, ran, Option.elim_some, List.forall_mem_append,
      List.forall_mem_cons] at true_
    obtain ⟨trueBody, trueResult, -⟩ := true_
    obtain ⟨ctx, n, inner, n', line, sameOptions, sameFacts, named, shape, stands⟩ :=
      linked.stands func mem
    obtain ⟨room, fits⟩ := fits
    have stacked : Stacked m args (m.pushArgs args) := stacked_pushArgs (by omega)
    have height := stacked.top_eq
    let start := ((m.pushArgs args).push (.back none)).goto line
    have enters : (m.pushArgs args).enter image func.name = some start := by
      simp only [enter, stands.found]
      rfl
    have passed : Passed start args := stacked.passed (by omega) _ line
    obtain ⟨m', reached, ret, returned⟩ := stands.reaches rfl (fits start enters) passed
      fun m passed =>
        shape.leads linked.unique (linked.checks func mem) named arity passed evaluated
        (trueResult ctx sameOptions sameFacts) fun shape' runs' =>
          stmtsCode_leads linked sameOptions sameFacts shape' runs' ⟨ran, trueBody⟩
    have esp : m'.regs .esp = start.regs .esp := returned.regs _ (by simp)
    have back : m'.memory (m'.regs .esp) = .back none := by
      rw [esp, returned.memory _ (Nat.le_refl _)]
      simp [start]
    obtain ⟨steps, finished⟩ := run_of_reaches reached (step_ret_outside ret back)
    refine ⟨start, steps, m'.drop, enters, finished, returned.value, ?_⟩
    intro reg notEax
    rw [regs_drop]
    split
    · next isEsp =>
      rw [isEsp, esp]
      exact BitVec.sub_add_cancel _ _
    · next notEsp =>
      rw [returned.regs reg notEax]
      exact if_neg notEsp
  · exact absurd computed nofun

/-- Without folding nothing is known. -/
theorem faithful_of_plain (plain : options.folding = false) (visit : Expr × Store) :
    Faithful options facts visit := by
  intro ctx sameOptions _ part _ known value isKnown
  simp [Context.known, sameOptions, plain] at isKnown

private theorem namesApart_of_no_digit
    (h : (program.map Func.name).all (fun name => name != Label.start.print &&
      name.toList.all fun c => !c.isDigit) = true) : NamesApart program := by
  intro func mem
  have fine := List.all_eq_true.mp h func.name (List.mem_map_of_mem mem)
  rw [Bool.and_eq_true] at fine
  exact ⟨bne_iff_ne.mp fine.1, fun _ generated => Label.print_ne_of_no_digit generated fine.2⟩

private theorem Machine.fitsFor_of_run {steps : Nat} {m : Machine}
    (ends : (run image steps m).isSome = true) (fits : fitsFor image steps m = true) (more : Nat) :
    fitsFor image more m = true := by
  induction steps generalizing m more with
  | zero => exact absurd ends nofun
  | succ steps ih =>
      cases more with
      | zero => rfl
      | succ more =>
          simp only [run, fitsFor, Bool.and_eq_true] at ends fits ⊢
          apply And.intro fits.1
          cases stepped : m.step image with
          | goes machine =>
              simp only [stepped] at ends fits ⊢
              exact ih ends fits.2 more
          | ends machine => rfl
          | stuck => rfl

theorem Machine.stackFits_of_run {m : Machine} {name : String} {args : List Word} (steps : Nat)
    (room : 4 * (args.length + 1) ≤ m.top)
    (h : ((m.pushArgs args).enter image name).all (fun start =>
      fitsFor image steps start && (run image steps start).isSome) = true) :
    m.StackFits image name args := by
  apply And.intro room
  intro start enters
  rw [enters, Option.all_some, Bool.and_eq_true] at h
  exact fitsFor_of_run h.2 h.1

/-- Compiled without folding and loaded, a function that has a value for its arguments returns
    that value and restores the registers of its caller. -/
theorem compile_plain_correct {text : String} (read : (readProgram text).result = .ok program)
    (compiled : compile options text = .ok code) (plain : options.folding = false)
    (loaded : code.load? = some image) (apart : NamesApart program) {name : String}
    {args : List Word} {value : Word} (returns : program.Returns name args value) {m : Machine}
    (fits : m.StackFits image name args) : m.CallReturns image name args value := by
  obtain rfl := Code.load?_eq_some.mp loaded
  obtain ⟨_, checked, checker, labels, again, passed, made⟩ := compile_eq_ok.mp compiled
  obtain rfl := Except.ok.inj (read.symm.trans again)
  have linked := linked_of_generate passed made apart
  exact linked.call_returns (fun _ _ _ _ visit _ => faithful_of_plain plain visit) returns fits

/-- What a program returns is found out by running it. -/
theorem exists_returns_of_call {text name : String} {args : List Word} {value : Word} (fuel : Nat)
    (h : (readProgram text).result.toOption.any (fun program =>
      program.call? fuel name args == some value &&
        (program.map Func.name).all fun name => name != Label.start.print &&
          name.toList.all fun c => !c.isDigit) = true) :
    ∃ program, (readProgram text).result = .ok program ∧ NamesApart program ∧
      program.Returns name args value := by
  obtain ⟨program, read, known⟩ := exists_ok_of_any h
  rw [Bool.and_eq_true] at known
  exact ⟨program, read, namesApart_of_no_digit known.2, fuel, eq_of_beq known.1⟩

/-- Whether compiled code is loaded and needs little stack is found out by running it. -/
theorem exists_loaded_of_run {text name : String} {args : List Word} {m : Machine} (steps : Nat)
    (room : 4 * (args.length + 1) ≤ m.top)
    (h : (compile options text).toOption.any (fun code => code.load?.any fun image =>
      ((m.pushArgs args).enter image name).all fun start =>
        fitsFor image steps start && (run image steps start).isSome) = true) :
    ∃ code image, compile options text = .ok code ∧ code.load? = some image ∧
      m.StackFits image name args := by
  obtain ⟨code, compiled, loads⟩ := exists_ok_of_any h
  obtain ⟨image, loaded, runs⟩ := (Option.any_eq_true _ _).mp loads
  exact ⟨code, image, compiled, loaded, stackFits_of_run steps room runs⟩

/-- A program with a call, a loop and an expression that can be folded. -/
def doublingText : String :=
  "function twice(n: int): int \x7b return n + n; \x7d
   function Main(n: int): int \x7b
     var m, k: int;
     k = 0;
     m = twice(n);
     while (k < 2) \x7b m = m * (1 + 1); k = k + 1; \x7d
     return m; \x7d"

/-- The program that the text stands for, and what it returns. -/
theorem doublingText_read : ∃ program, (readProgram doublingText).result = .ok program ∧
    NamesApart program ∧ program.Returns "Main" [3] 24 :=
  exists_returns_of_call 10 (by decide +kernel)

/-- The code of the text, with or without folding, is loaded and needs little stack. -/
theorem doublingText_fits (folding : Bool) : ∃ code image,
    compile { folding } doublingText = .ok code ∧ code.load? = some image ∧
      Machine.fresh.StackFits image "Main" [3] :=
  exists_loaded_of_run 150 (by decide) (by revert folding; decide +kernel)

theorem compile_plain_doubling : ∃ program code image,
    (readProgram doublingText).result = .ok program ∧
      compile { folding := false } doublingText = .ok code ∧ code.load? = some image ∧
        NamesApart program ∧ program.Returns "Main" [3] 24 ∧
          Machine.fresh.StackFits image "Main" [3] ∧
            Machine.fresh.CallReturns image "Main" [3] 24 := by
  obtain ⟨program, read, apart, returns⟩ := doublingText_read
  obtain ⟨code, image, compiled, loaded, fits⟩ := doublingText_fits false
  exact ⟨program, code, image, read, compiled, loaded, apart, returns, fits,
    compile_plain_correct read compiled rfl loaded apart returns fits⟩

/-- A function beside one with a frame of four gigabytes. -/
def besideHugeText : String :=
  "function g(): int \x7b var v: intarray[1073741825]; return 0; \x7d
   function f(): int \x7b return 7; \x7d"

/-- Code that reserves a frame of four gigabytes cannot be loaded, although the function that is
    called needs little stack. -/
theorem besideHuge_not_loaded : ∃ program before own image,
    (readProgram besideHugeText).result = .ok program ∧ NamesApart program ∧
      program.Returns "f" [] 7 ∧
        compile { folding := false } besideHugeText = .ok (before ++ own) ∧
          own.load? = some image ∧ Machine.fresh.StackFits image "f" [] ∧
            Code.load? (before ++ own) = none := by
  obtain ⟨program, read, apart, returns⟩ :
      ∃ program, (readProgram besideHugeText).result = .ok program ∧ NamesApart program ∧
        program.Returns "f" [] 7 := exists_returns_of_call 10 (by decide +kernel)
  let isOther (line : Line) : Bool := line != .label (.function "f")
  obtain ⟨code, compiled, loads⟩ := exists_ok_of_any
    (x := compile { folding := false } besideHugeText) (p := fun code =>
      code.load?.isNone && (Code.load? (code.dropWhile isOther)).any fun image =>
        ((fresh.pushArgs []).enter image "f").all fun start =>
          fitsFor image 20 start && (run image 20 start).isSome) (by decide +kernel)
  rw [Bool.and_eq_true] at loads
  obtain ⟨image, loaded, runs⟩ := (Option.any_eq_true _ _).mp loads.2
  rw [← List.takeWhile_append_dropWhile (p := isOther) (l := code)] at compiled loads
  exact ⟨program, _, _, image, read, apart, returns, compiled, loaded,
    stackFits_of_run 20 (by decide) runs, Option.isNone_iff_eq_none.mp loads.1⟩

end Wordlang.Asm
