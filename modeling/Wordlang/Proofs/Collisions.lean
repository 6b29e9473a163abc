import Wordlang.Proofs.Acceptance
import Wordlang.Proofs.Labels

/-! # Collisions of labels

Generated labels are numbered throughout a program, so they never collide with one another. But
functions are labels as well, under the names that they were given, and nothing keeps a function
from being named like a label that is generated, or like the second name of the first function.
These are the only collisions.
-/

namespace Wordlang

open Asm (Label)

/-- Compiled code defines no label twice exactly if there is no function named like the start
    beside the first function, and none that is named like a label that was generated. -/
theorem compile_labels_nodup_iff {options : Options} {text : String} {program : Program}
    {code : Asm.Code} (read : (readProgram text).result = .ok program)
    (compiled : compile options text = .ok code) :
    code.labels.Nodup ↔
      ("Main" ∈ program.map Func.name → "_Main" ∉ program.map Func.name) ∧
        ∀ name ∈ program.map Func.name, ∀ label : Label, .label label ∈ code →
          label.isGenerated = true → name ≠ label.print := by
  obtain ⟨_, checked, checker, labels, read', passed, made⟩ := compile_eq_ok.mp compiled
  obtain rfl := Except.ok.inj (read.symm.trans read')
  obtain ⟨nodup, rfl, -, -⟩ := Program.check_eq_ok passed
  obtain ⟨body, rfl, shape⟩ := Asm.generate_eq_ok made
  have unique := shape.labels_nodup_iff (by simpa using nodup)
  rwa [Program.map_name_withScopes] at unique

/-- Two functions with a comparison each, which share nothing but the counter. -/
def comparingText : String :=
  "function Main(): bool \x7b return 1 < 2; \x7d function f(n: int): bool \x7b return n < 1; \x7d"

theorem compile_labels_nodup_comparing : ∃ program code,
    (readProgram comparingText).result = .ok program ∧ compile {} comparingText = .ok code ∧
      (code.labels.Nodup ↔
        ("Main" ∈ program.map Func.name → "_Main" ∉ program.map Func.name) ∧
          ∀ name ∈ program.map Func.name, ∀ label : Label, .label label ∈ code →
            label.isGenerated = true → name ≠ label.print) ∧ code.labels.Nodup := by
  have unique : (compile {} comparingText).toOption.any (fun code => code.labels.Nodup) = true := by
    decide +kernel
  obtain ⟨code, compiled, nodup⟩ := exists_ok_of_any unique
  obtain ⟨program, _, _, _, read, _⟩ := compile_eq_ok.mp compiled
  exact ⟨program, code, read, compiled, compile_labels_nodup_iff read compiled,
    of_decide_eq_true nodup⟩

def namedLikeLoop : String :=
  "function While0(n: int): int \x7b while (n > 0) \x7b n = n - 1; \x7d return n; \x7d"

theorem compile_namedLikeLoop :
    ¬ ∃ options, ∀ code, compile options namedLikeLoop = .ok code → code.labels.Nodup := by
  rintro ⟨options, unique⟩
  have twice : (compile options namedLikeLoop).toOption.any
      (fun code => ¬ code.labels.Nodup) = true := by
    obtain ⟨folding, trace⟩ := options
    cases folding <;> cases trace <;> decide +kernel
  obtain ⟨code, compiled, notNodup⟩ := exists_ok_of_any twice
  exact of_decide_eq_true notNodup (unique code compiled)

end Wordlang
