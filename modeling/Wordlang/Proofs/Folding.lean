import Wordlang.Proofs.Correctness
import Wordlang.Proofs.Propagation

/-! # Folding

Code that uses the facts about a program computes what code without them computes. The
facts are true of every execution, so the folded code is correct for the same reason as
the plain one. No other relation between the two pieces of code is needed.
-/

namespace Wordlang.Asm

open Machine

variable {options : Options} {program checked : Program} {code : Code} {image : Image}

private theorem faithful_flow {visit : Expr × Store}
    (right : (Program.flow program).table.Right visit) :
    Faithful options (Program.flow program).table visit := by
  intro ctx _ sameFacts part inside known value isKnown evaluated
  have allows := right part inside value evaluated
  unfold Context.known at isKnown
  split at isKnown
  · rw [sameFacts] at isKnown
    rw [Fact.eq_const_of_const? isKnown] at allows
    cases allows
    rfl
  · exact absurd isKnown nofun

private theorem linked_of_compile {text : String} (read : (readProgram text).result = .ok program)
    (compiled : compile options text = .ok image.code) (apart : NamesApart program) :
    Linked options (if options.folding then (Program.flow program).table else .empty)
      program image := by
  obtain ⟨_, checked, checker, labels, again, passed, made⟩ := compile_eq_ok.mp compiled
  obtain rfl := Except.ok.inj (read.symm.trans again)
  have linked := linked_of_generate passed made apart
  obtain ⟨_, rfl, _, _⟩ := Program.check_eq_ok passed
  rwa [Program.flow_withScopes] at linked

/-- With and without folding, a function that has a value for its arguments returns it and
    restores the registers of its caller. -/
theorem compile_correct {text : String} (read : (readProgram text).result = .ok program)
    (compiled : compile options text = .ok code) (loaded : code.load? = some image)
    (apart : NamesApart program) {name : String} {args : List Word} {value : Word}
    (returns : program.Returns name args value) {m : Machine} (fits : m.StackFits image name args) :
    m.CallReturns image name args value := by
  obtain rfl := Code.load?_eq_some.mp loaded
  apply (linked_of_compile read compiled apart).call_returns _ returns fits
  intro func mem fuel args visit visited
  split
  · apply faithful_flow
    exact Program.right_flow (Program.ids_nodup read) mem fuel args visit visited
  · next plain => exact faithful_of_plain (by simpa using plain) visit

theorem compile_succeeds {text : String} (compiled : compile options text = .ok code)
    (others : Options) : ∃ code', compile others text = .ok code' := by
  obtain ⟨program, checked, checker, _, read, passed, _⟩ := compile_eq_ok.mp compiled
  obtain ⟨code', labels, made⟩ := generate_succeeds passed others
    (if others.folding then (Program.flow checked).table else .empty)
  exact ⟨code', compile_eq_ok.mpr ⟨program, checked, checker, labels, read, passed, made⟩⟩

/-- Folding preserves what a program means: compiled both ways and loaded, a function that has a
    value for its arguments returns the same value and restores the same registers. -/
theorem folding_preserves_meaning {text : String}
    (read : (readProgram text).result = .ok program)
    (compiled : compile options text = .ok code) (apart : NamesApart program) :
    ∃ plain folded, compile { options with folding := false } text = .ok plain ∧
      compile { options with folding := true } text = .ok folded ∧
        ∀ {image image' : Image}, plain.load? = some image → folded.load? = some image' →
          ∀ {name : String} {args : List Word} {value : Word}, program.Returns name args value →
            ∀ m : Machine, m.StackFits image name args → m.StackFits image' name args →
              m.CallReturns image name args value ∧ m.CallReturns image' name args value := by
  obtain ⟨plain, compiledPlain⟩ := compile_succeeds compiled { options with folding := false }
  obtain ⟨folded, compiledFolded⟩ := compile_succeeds compiled { options with folding := true }
  refine ⟨plain, folded, compiledPlain, compiledFolded, ?_⟩
  intro image image' loaded loaded' name args value returns m fits fits'
  exact ⟨compile_correct read compiledPlain loaded apart returns fits,
    compile_correct read compiledFolded loaded' apart returns fits'⟩

theorem folding_preserves_doubling : ∃ program code plain folded image image',
    (readProgram doublingText).result = .ok program ∧
      compile { folding := true } doublingText = .ok code ∧ NamesApart program ∧
        compile { folding := false } doublingText = .ok plain ∧ plain.load? = some image ∧
          compile { folding := true } doublingText = .ok folded ∧ folded.load? = some image' ∧
            program.Returns "Main" [3] 24 ∧ Machine.fresh.StackFits image "Main" [3] ∧
              Machine.fresh.StackFits image' "Main" [3] ∧
                Machine.fresh.CallReturns image "Main" [3] 24 ∧
                  Machine.fresh.CallReturns image' "Main" [3] 24 := by
  obtain ⟨program, read, apart, returns⟩ := doublingText_read
  obtain ⟨code, image', compiled, loaded', fits'⟩ := doublingText_fits true
  obtain ⟨code', image, compiled', loaded, fits⟩ := doublingText_fits false
  obtain ⟨plain, folded, isPlain, isFolded, both⟩ := folding_preserves_meaning read compiled apart
  obtain rfl : code' = plain := Except.ok.inj (compiled'.symm.trans isPlain)
  obtain rfl : code = folded := Except.ok.inj (compiled.symm.trans isFolded)
  have outcomes := both loaded loaded' returns Machine.fresh fits fits'
  exact ⟨program, code, code', code, image, image', read, compiled, apart, compiled', loaded,
    compiled, loaded', returns, fits, fits', outcomes⟩

/-- A function with an element, far behind its array, that is not read for the argument 0. -/
def farElementText : String :=
  "function f(n: int): int \x7b
     var v: intarray[1];
     v[0] = 7;
     if (n == 1) \x7b v[0] = v[2147483647]; \x7d
     return v[0]; \x7d"

/-- Where an index becomes a part of an address, the code may no longer be loaded. -/
theorem farElement_not_loaded : ∃ program plain folded image,
    (readProgram farElementText).result = .ok program ∧ NamesApart program ∧
      program.Returns "f" [0] 7 ∧
        compile { folding := false } farElementText = .ok plain ∧ plain.load? = some image ∧
          Machine.fresh.StackFits image "f" [0] ∧ Machine.fresh.CallReturns image "f" [0] 7 ∧
            compile { folding := true } farElementText = .ok folded ∧ folded.load? = none := by
  obtain ⟨program, read, apart, returns⟩ :
      ∃ program, (readProgram farElementText).result = .ok program ∧ NamesApart program ∧
        program.Returns "f" [0] 7 := exists_returns_of_call 10 (by decide +kernel)
  obtain ⟨plain, image, compiled, loaded, fits⟩ : ∃ plain image,
      compile { folding := false } farElementText = .ok plain ∧ plain.load? = some image ∧
        Machine.fresh.StackFits image "f" [0] :=
    exists_loaded_of_run 60 (by decide) (by decide +kernel)
  obtain ⟨folded, compiled', unloadable⟩ := exists_ok_of_any
    (x := compile { folding := true } farElementText) (p := fun code => code.load?.isNone)
    (by decide +kernel)
  exact ⟨program, plain, folded, image, read, apart, returns, compiled, loaded, fits,
    compile_correct read compiled loaded apart returns fits, compiled',
    Option.isNone_iff_eq_none.mp unloadable⟩

end Wordlang.Asm
