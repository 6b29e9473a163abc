import Wordlang.Proofs.Acceptance
import Wordlang.Proofs.Language
import Wordlang.Scope.Blame

/-! # Consistency of the passes

A text is refused by the lexer, the parser or the check, and by nothing behind them. Each of
these refuses with an error of its own sort, and none of them looks at the options. So options
never decide whether a text is compiled, and no compilation ends with an internal error.
-/

namespace Wordlang

open Token (Kind)

/-- An outcome is a result or a misuse of a name for which there is blame. -/
inductive Misuse.Only {α : Type} (blames : Misuse → Nat → Prop) : Except CompileError α → Prop where
  | ok (a : α) : Only blames (.ok a)
  | error {cause : Misuse} {line : Nat} : blames cause line →
      Only blames (.error (.misuse cause line))

namespace Misuse.Only

variable {α β : Type} {blames blames' : Misuse → Nat → Prop}

theorem mono {outcome : Except CompileError α} (only : Only blames outcome)
    (imp : ∀ {cause line}, blames cause line → blames' cause line) : Only blames' outcome := by
  cases only with
  | ok a => exact .ok a
  | error blamed => exact .error (imp blamed)

theorem bind {outcome : Except CompileError α} {next : α → Except CompileError β}
    (first : Only blames outcome) (second : ∀ a, Only blames (next a)) :
    Only blames (outcome >>= next) := by
  cases first with
  | ok a => exact second a
  | error blamed => exact .error blamed

theorem foldlM {step : β → α → Except CompileError β} {items : List α}
    (each : ∀ a ∈ items, ∀ b, Only blames (step b a)) (start : β) :
    Only blames (items.foldlM step start) := by
  induction items generalizing start with
  | nil => exact .ok start
  | cons item rest ih =>
      obtain ⟨first, later⟩ := List.forall_mem_cons.mp each
      rw [List.foldlM_cons]
      exact (first start).bind (ih later)

end Misuse.Only

open Misuse (Only)

section Names

variable (lookup : Lookup)

theorem Lookup.scalar_misuse (name : String) (line : Nat) :
    Only (fun cause at_ => cause.OfScalar name ∧ at_ = line) (lookup.scalar name line) := by
  unfold scalar
  split
  · split
    · exact .ok ()
    · exact .error ⟨.inr rfl, rfl⟩
  · exact .error ⟨.inl rfl, rfl⟩

theorem Lookup.array_misuse (name : String) (line : Nat) :
    Only (fun cause at_ => cause.OfArray name ∧ at_ = line) (lookup.array name line) := by
  unfold array
  split
  · split
    · exact .ok ()
    · exact .error ⟨.inr rfl, rfl⟩
  · exact .error ⟨.inl rfl, rfl⟩

theorem Lookup.callee_misuse (name : String) (args line : Nat) :
    Only (fun cause at_ => cause.OfCallee name ∧ at_ = line) (lookup.callee name args line) := by
  unfold callee
  split
  · split
    · split
      · exact .ok ()
      · exact .error ⟨.inr (.inr ⟨_, _, rfl⟩), rfl⟩
    · exact .error ⟨.inr (.inl rfl), rfl⟩
  · exact .error ⟨.inl rfl, rfl⟩

theorem Expr.check_misuse (e : Expr) :
    Only (fun cause line => ∃ part ∈ e.parts, part.Blames cause line) (e.check lookup) := by
  induction e with
  | int | bool => exact .ok ()
  | var node name =>
      refine (lookup.scalar_misuse name node.line).mono ?_
      rintro cause _ ⟨misused, rfl⟩
      exact ⟨_, List.mem_singleton_self _, .var misused⟩
  | index node name element ih =>
      refine .bind ((lookup.array_misuse name node.line).mono ?_) fun _ => ih.mono ?_
      · rintro cause _ ⟨misused, rfl⟩
        exact ⟨_, mem_parts _, .index misused⟩
      · rintro cause line ⟨part, mem, blamed⟩
        exact ⟨part, List.mem_append_left _ mem, blamed⟩
  | unary _ _ _ ih =>
      refine ih.mono ?_
      rintro cause line ⟨part, mem, blamed⟩
      exact ⟨part, List.mem_append_left _ mem, blamed⟩
  | binary _ _ _ _ left right =>
      refine .bind (left.mono ?_) fun _ => right.mono ?_
      · rintro cause line ⟨part, mem, blamed⟩
        exact ⟨part, List.mem_append_left _ (List.mem_append_left _ mem), blamed⟩
      · rintro cause line ⟨part, mem, blamed⟩
        exact ⟨part, List.mem_append_left _ (List.mem_append_right _ mem), blamed⟩

theorem Expr.checkAll_misuse (es : List Expr) :
    Only (fun cause line => ∃ e ∈ es, ∃ part ∈ e.parts, part.Blames cause line)
      (checkAll lookup es) := by
  induction es with
  | nil => exact .ok ()
  | cons e rest ih =>
      refine .bind ((e.check_misuse lookup).mono ?_) fun _ => ih.mono ?_
      · exact fun blamed => ⟨e, List.mem_cons_self, blamed⟩
      · rintro cause line ⟨other, mem, blamed⟩
        exact ⟨other, List.mem_cons_of_mem _ mem, blamed⟩

theorem Stmt.checkExpr_misuse {stmt : Stmt} {e : Expr} (mem : e ∈ stmt.exprs) :
    Only stmt.Blames (e.check lookup) := by
  refine (e.check_misuse lookup).mono ?_
  rintro cause line ⟨part, isPart, blamed⟩
  exact .expr mem isPart blamed

theorem Stmt.checkArgs_misuse {stmt : Stmt} {args : List Expr} (sub : args ⊆ stmt.exprs) :
    Only stmt.Blames (Expr.checkAll lookup args) := by
  refine (Expr.checkAll_misuse lookup args).mono ?_
  rintro cause line ⟨e, mem, part, isPart, blamed⟩
  exact .expr (sub mem) isPart blamed

mutual

theorem Stmt.check_misuse (stmt : Stmt) : Only stmt.Blames (stmt.check lookup) := by
  cases stmt with
  | assign target value =>
      refine .bind ((lookup.scalar_misuse target value.line).mono ?_) fun _ => ?_
      · rintro cause _ ⟨misused, rfl⟩
        exact .assign misused
      · exact checkExpr_misuse lookup (by simp [exprs])
  | assignIndex target index value =>
      refine .bind ((lookup.array_misuse target index.line).mono ?_) fun _ =>
        .bind ?_ fun _ => ?_
      · rintro cause _ ⟨misused, rfl⟩
        exact .assignIndex misused
      · exact checkExpr_misuse lookup (by simp [exprs])
      · exact checkExpr_misuse lookup (by simp [exprs])
  | call line target callee args =>
      refine .bind ((lookup.scalar_misuse target line).mono ?_) fun _ =>
        .bind ((lookup.callee_misuse callee _ line).mono ?_) fun _ => ?_
      · rintro cause _ ⟨misused, rfl⟩
        exact .call (.inl misused)
      · rintro cause _ ⟨misused, rfl⟩
        exact .call (.inr misused)
      · exact checkArgs_misuse lookup (List.Subset.refl _)
  | callIndex line target index callee args =>
      refine .bind ((lookup.array_misuse target line).mono ?_) fun _ => .bind ?_ fun _ =>
        .bind ((lookup.callee_misuse callee _ line).mono ?_) fun _ => ?_
      · rintro cause _ ⟨misused, rfl⟩
        exact .callIndex (.inl misused)
      · exact checkExpr_misuse lookup (by simp [exprs])
      · rintro cause _ ⟨misused, rfl⟩
        exact .callIndex (.inr misused)
      · exact checkArgs_misuse lookup (List.subset_cons_self _ _)
  | when cond body =>
      refine .bind (checkExpr_misuse lookup (by simp [exprs])) fun _ =>
        (checkAll_misuse body).mono ?_
      rintro cause line ⟨inner, mem, blamed⟩
      exact .when mem blamed
  | choose cond thens elses =>
      refine .bind (checkExpr_misuse lookup (by simp [exprs])) fun _ =>
        .bind ((checkAll_misuse thens).mono ?_) fun _ => (checkAll_misuse elses).mono ?_
      · rintro cause line ⟨inner, mem, blamed⟩
        exact .choose (List.mem_append_left _ mem) blamed
      · rintro cause line ⟨inner, mem, blamed⟩
        exact .choose (List.mem_append_right _ mem) blamed
  | loop cond body =>
      refine .bind (checkExpr_misuse lookup (by simp [exprs])) fun _ =>
        (checkAll_misuse body).mono ?_
      rintro cause line ⟨inner, mem, blamed⟩
      exact .loop mem blamed
  | block body =>
      refine (checkAll_misuse body).mono ?_
      rintro cause line ⟨inner, mem, blamed⟩
      exact .block mem blamed

theorem Stmt.checkAll_misuse (stmts : List Stmt) :
    Only (fun cause line => ∃ stmt ∈ stmts, stmt.Blames cause line) (checkAll lookup stmts) := by
  cases stmts with
  | nil => exact .ok ()
  | cons stmt rest =>
      refine .bind ((check_misuse stmt).mono ?_) fun _ => (checkAll_misuse rest).mono ?_
      · exact fun blamed => ⟨stmt, List.mem_cons_self, blamed⟩
      · rintro cause line ⟨other, mem, blamed⟩
        exact ⟨other, List.mem_cons_of_mem _ mem, blamed⟩

end

theorem Func.check_misuse (func : Func) : Only func.Blames (func.check lookup) := by
  refine .bind ((Stmt.checkAll_misuse lookup func.body).mono ?_) fun _ =>
    (func.result.check_misuse lookup).mono ?_
  · rintro cause line ⟨stmt, mem, blamed⟩
    exact .stmt mem blamed
  · rintro cause line ⟨part, mem, blamed⟩
    exact .result mem blamed

end Names

namespace Table

theorem declareFuncs_misuse (table : Table) (funcs : Program) :
    Only (Program.Blames funcs) (table.declareFuncs funcs) := by
  induction funcs generalizing table with
  | nil => exact .ok table
  | cons func rest ih =>
      rw [declareFuncs]
      split
      · refine (ih _).mono ?_
        intro cause line blamed
        cases blamed with
        | redefined mem => exact .redefined (List.mem_cons_of_mem _ mem)
        | func mem blamed => exact .func (List.mem_cons_of_mem _ mem) blamed
      · exact .error (.redefined List.mem_cons_self)

theorem declareVar_misuse (table : Table) (scope : Nat) (name : String) (type : Ty) (line : Nat) :
    Only (fun cause at_ => cause.OfDecl name ∧ at_ = line)
      (table.declareVar scope name type line) := by
  unfold declareVar
  split
  · exact .error ⟨.inr rfl, rfl⟩
  · split
    · exact .ok _
    · exact .error ⟨.inl rfl, rfl⟩

private theorem declareParam_misuse {func : Func} {param : Param} (mem : param ∈ func.params)
    (table : Table) (scope : Nat) : Only func.Blames (table.declareParam scope param) := by
  unfold declareParam
  split
  · exact .error (.param mem (.inl rfl))
  · refine (table.declareVar_misuse scope _ _ _).mono ?_
    rintro cause _ ⟨misused, rfl⟩
    exact .param mem (.inr misused)

private theorem declareDecl_misuse {func : Func} {decl : Decl} (mem : decl ∈ func.decls)
    (table : Table)
    (scope : Nat) : Only func.Blames (table.declareDecl scope decl) := by
  refine .foldlM (fun name inDecl table => ?_) _
  refine (table.declareVar_misuse scope name _ _).mono ?_
  rintro cause _ ⟨misused, rfl⟩
  exact .decl mem inDecl misused

theorem declareLocals_misuse (table : Table) (func : Func) :
    Only func.Blames (table.declareLocals func) :=
  .bind (.foldlM (fun _ mem table => declareParam_misuse mem table _) _) fun _ =>
    .bind (.foldlM (fun _ mem table => declareDecl_misuse mem table _) _) fun _ => .ok _

end Table

namespace Checker

def Misuses {α : Type} (blames : Misuse → Nat → Prop) (work : Check α) : Prop :=
  ∀ checker error checker', work checker = .error error checker' →
    ∃ cause line, error = .misuse cause line ∧ blames cause line

variable {α β : Type} {blames blames' : Misuse → Nat → Prop}

theorem Misuses.bind {work : Check α} {next : α → Check β} (first : Misuses blames work)
    (second : ∀ a, Misuses blames (next a)) : Misuses blames (work >>= next) := by
  intro checker error checker' failed
  cases worked : work checker with
  | ok a checker₁ => exact second a _ _ _ ((run_bind_of_ok worked).symm.trans failed)
  | error _ _ =>
      cases (run_bind_of_error worked).symm.trans failed
      exact first _ _ _ worked

theorem Misuses.mono {work : Check α} (misuses : Misuses blames work)
    (imp : ∀ {cause line}, blames cause line → blames' cause line) : Misuses blames' work := by
  intro checker error checker' failed
  obtain ⟨cause, line, isMisuse, blamed⟩ := misuses checker error checker' failed
  exact ⟨cause, line, isMisuse, imp blamed⟩

theorem misuses_lift {outcome : Except CompileError α} (only : Only blames outcome) :
    Misuses blames (lift outcome) := by
  intro checker error checker' failed
  cases only with
  | ok => cases failed
  | error blamed =>
      cases failed
      exact ⟨_, _, rfl, blamed⟩

theorem misuses_of_ok {work : Check α}
    (succeeds : ∀ checker, ∃ a checker', work checker = .ok a checker') : Misuses blames work := by
  intro checker error checker' failed
  obtain ⟨a, checker₁, worked⟩ := succeeds checker
  cases worked.symm.trans failed

private theorem misuses_func (f : Func) : Misuses f.Blames (func f) := by
  refine .bind (misuses_of_ok fun checker => ⟨checker, checker, rfl⟩) fun checker => ?_
  refine .bind (misuses_lift (checker.table.declareLocals_misuse f)) fun (scope, table) => ?_
  refine .bind (misuses_of_ok fun _ => ⟨(), _, rfl⟩) fun _ => ?_
  refine .bind (misuses_lift (f.check_misuse (table.lookup scope))) fun _ => ?_
  exact .bind (misuses_of_ok fun _ => ⟨(), _, rfl⟩) fun _ => misuses_of_ok fun _ => ⟨_, _, rfl⟩

private theorem misuses_funcs {program : Program} (funcs : List Func) (sub : funcs ⊆ program) :
    Misuses program.Blames (Checker.funcs funcs) := by
  induction funcs with
  | nil => exact misuses_of_ok fun _ => ⟨[], _, rfl⟩
  | cons f rest ih =>
      obtain ⟨mem, sub⟩ := List.cons_subset.mp sub
      exact .bind ((misuses_func f).mono (.func mem)) fun _ =>
        .bind (ih sub) fun _ => misuses_of_ok fun _ => ⟨_, _, rfl⟩

theorem misuses_program (program : Program) :
    Misuses program.Blames (Checker.program program) := by
  refine .bind (misuses_of_ok fun checker => ⟨checker, checker, rfl⟩) fun checker => ?_
  refine .bind (misuses_lift (checker.table.declareFuncs_misuse program)) fun table => ?_
  exact .bind (misuses_of_ok fun _ => ⟨(), _, rfl⟩) fun _ =>
    misuses_funcs program (List.Subset.refl _)

end Checker

/-- The check refuses a program for a misuse of a name for which the program is to blame. -/
theorem Program.check_blames {program : Program} {error : CompileError} {checker : Checker}
    (failed : program.check = .error error checker) :
    ∃ cause line, error = .misuse cause line ∧ program.Blames cause line :=
  Checker.misuses_program program _ _ _ failed

theorem Program.check_eq_error {program : Program} {error : CompileError} {checker : Checker}
    (failed : program.check = .error error checker) : ∃ cause line, error = .misuse cause line := by
  obtain ⟨cause, line, isMisuse, -⟩ := check_blames failed
  exact ⟨cause, line, isMisuse⟩

theorem Cursor.Scans.error_mem {cursor : Cursor} {items : List Item} (scans : cursor.Scans items)
    {error : CompileError} (mem : .error error ∈ items) :
    ∃ character line, error = .badCharacter character line := by
  induction scans with
  | last => exact absurd (List.mem_singleton.mp mem) nofun
  | error scanned =>
      obtain rfl := Except.error.inj (List.mem_singleton.mp mem)
      obtain ⟨character, same⟩ := scan_eq_error scanned
      exact ⟨character, _, same⟩
  | more _ _ _ ih =>
      rcases List.mem_cons.mp mem with isFirst | later
      · exact absurd isFirst nofun
      · exact ih later

/-- The parser refuses a text for a token, or for a character among the tokens. -/
theorem Parser.program_eq_error {text : String} {error : CompileError} {parser : Parser}
    (failed : program.run (.ofText text) = .error error parser) :
    (∃ found expected line, error = .unexpected found expected line) ∨
      ∃ character line, error = .badCharacter character line := by
  obtain ⟨items, scans⟩ := (Cursor.start text).exists_scans
  have ends := ends_program scans 0
  rw [failed] at ends
  cases ends with
  | refused => exact .inl ⟨_, _, _, rfl⟩
  | broken _ isAhead => exact .inr (scans.error_mem (by simp [isAhead]))

section Compilations

variable {options : Options} {text : String} {program tree : Program} {error : CompileError}
  {checker : Checker}

theorem compile_of_unread (unread : (readProgram text).result = .error error) :
    compile options text = .error error := by
  simp only [compile, compileReporting, Outcome.andThen, unread]

theorem compile_of_refused (read : (readProgram text).result = .ok program)
    (refused : program.check = .error error checker) : compile options text = .error error := by
  have failed : (checkProgram program).result = .error error := by rw [checkProgram, refused]
  simp only [compile, compileReporting, Outcome.andThen, read, failed]

/-- Code is generated for every program that passes the check. -/
theorem compile_of_checked (options : Options) (read : (readProgram text).result = .ok program)
    (checked : program.check = .ok tree checker) : ∃ code, compile options text = .ok code := by
  obtain ⟨code, labels, made⟩ := Asm.generate_succeeds checked options
    (if options.folding then (Program.flow tree).table else .empty)
  exact ⟨code, compile_eq_ok.mpr ⟨program, tree, checker, labels, read, checked, made⟩⟩

end Compilations

/-- A text is compiled under all options, or it is refused with the same error under all of
    them. The error is never an internal one. -/
theorem compile_acceptance (text : String) :
    (∀ options, ∃ code, compile options text = .ok code) ∨
      ∃ error, (∀ cause, error ≠ .inconsistent cause) ∧
        ∀ options, compile options text = .error error := by
  cases parsed : Parser.program.run (.ofText text) with
  | error error parser =>
      have unread : (readProgram text).result = .error error := by rw [readProgram, parsed]
      refine .inr ⟨error, ?_, fun options => compile_of_unread unread⟩
      rintro cause rfl
      rcases Parser.program_eq_error parsed with ⟨_, _, _, same⟩ | ⟨_, _, same⟩ <;> cases same
  | ok program parser =>
      have read : (readProgram text).result = .ok program := by rw [readProgram, parsed]
      cases checked : program.check with
      | error error checker =>
          refine .inr ⟨error, ?_, fun options => compile_of_refused read checked⟩
          rintro cause rfl
          obtain ⟨_, _, same⟩ := Program.check_eq_error checked
          cases same
      | ok tree checker => exact .inl fun options => compile_of_checked options read checked

end Wordlang
