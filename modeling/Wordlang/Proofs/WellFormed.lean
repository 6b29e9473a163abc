import Wordlang.Proofs.Scopes
import Wordlang.Scope.WellFormed

/-! # Checking well-formed programs

The check walks over a program with a table that grows, and well-formedness is said
on the tree alone. The two agree: a name means to the check what the function
declares it as, and what no parameter or variable hides is a function of the
program, wherever in the program it stands.
-/

namespace Wordlang

namespace Typing

variable {typing : Typing} {name : String}

theorem map_kind_find? (typing : Typing) (name : String) :
    (typing.scope.find? name).map Symbol.kind = (typing.lookup name).map Ty.symbolKind := by
  suffices h : ∀ offset, ((layoutFrom offset typing).lookup name).map Symbol.kind =
      (typing.lookup name).map Ty.symbolKind from h 0
  intro offset
  induction typing generalizing offset with
  | nil => rfl
  | cons entry rest ih =>
      obtain ⟨other, type⟩ := entry
      rw [layoutFrom, List.lookup_cons, List.lookup_cons]
      cases name == other with
      | true => rfl
      | false => exact ih _

theorem exists_type {symbol : Symbol} (found : typing.scope.find? name = some symbol) :
    ∃ type, typing.lookup name = some type ∧ symbol.kind = type.symbolKind := by
  have kinds := map_kind_find? typing name
  rw [found, Option.map_some] at kinds
  obtain ⟨type, declared, same⟩ := Option.map_eq_some_iff.mp kinds.symm
  exact ⟨type, declared, same.symm⟩

theorem exists_symbol {type : Ty} (declared : typing.lookup name = some type) :
    ∃ symbol, typing.scope.find? name = some symbol ∧ symbol.kind = type.symbolKind := by
  have kinds := map_kind_find? typing name
  rw [declared, Option.map_some] at kinds
  exact Option.map_eq_some_iff.mp kinds

end Typing

/-- A symbol of the functions is one of them. -/
theorem Program.globalScope_find?_eq_some {program : Program} {name : String} {symbol : Symbol}
    (nodup : (List.map Func.name program).Nodup) :
    program.globalScope.find? name = some symbol ↔ ∃ func ∈ program, func.name = name ∧
      symbol = { kind := .function func.params.length func.returns, offset := 0, length := 0 } := by
  have names : (program.globalScope.symbols.map (·.1)).Nodup := by
    simpa [globalScope, Function.comp_def] using nodup
  rw [Scope.find?, lookup_eq_some_iff_mem names]
  simp only [globalScope, List.mem_map, Prod.mk.injEq, eq_comm (a := symbol)]

namespace Func

variable {program : Program} {func : Func} {name : String}

section Names

variable (funcs_nodup : (List.map Func.name program).Nodup)
  (nodup : (func.typing.map (·.1)).Nodup)

include funcs_nodup nodup

/-- A name has a meaning that no function has exactly when the function declares it
    with a type of that meaning. -/
theorem exists_lookup_kind_iff (name : String) {p : Symbol.Kind → Prop}
    (unfit : ∀ params returns, ¬ p (.function params returns)) :
    (∃ symbol, func.lookup program name = some symbol ∧ p symbol.kind) ↔
      ∃ type, (name, type) ∈ func.typing ∧ p type.symbolKind := by
  constructor
  · rintro ⟨symbol, found, fits⟩
    obtain own | ⟨_, global⟩ := Option.or_eq_some_iff.mp found
    · obtain ⟨type, declared, same⟩ := Typing.exists_type own
      exact ⟨type, (lookup_eq_some_iff_mem nodup).mp declared, same ▸ fits⟩
    · obtain ⟨_, _, _, rfl⟩ := (Program.globalScope_find?_eq_some funcs_nodup).mp global
      exact absurd fits (unfit _ _)
  · rintro ⟨type, mem, fits⟩
    obtain ⟨symbol, found, same⟩ :=
      Typing.exists_symbol ((lookup_eq_some_iff_mem nodup).mpr mem)
    exact ⟨symbol, by rw [lookup, found]; rfl, same ▸ fits⟩

theorem exists_scalar_iff : (∃ symbol, func.lookup program name = some symbol ∧
    symbol.isScalar = true) ↔ func.typing.Scalar name := by
  have kinds := exists_lookup_kind_iff funcs_nodup nodup name
    (p := fun kind => kind = .int ∨ kind = .bool) (by simp)
  simp only [Symbol.isScalar, Bool.or_eq_true, decide_eq_true_eq, kinds, Typing.Scalar]
  constructor
  · rintro ⟨type, mem, fits⟩
    cases type with
    | int => exact .inl mem
    | bool => exact .inr mem
    | intarray => simp [Ty.symbolKind] at fits
  · rintro (mem | mem)
    · exact ⟨_, mem, .inl rfl⟩
    · exact ⟨_, mem, .inr rfl⟩

theorem exists_array_iff : (∃ symbol, func.lookup program name = some symbol ∧
    symbol.isArray = true) ↔ func.typing.Array name := by
  have kinds := exists_lookup_kind_iff funcs_nodup nodup name
    (p := fun kind => kind = .intarray) (by simp)
  simp only [Symbol.isArray, decide_eq_true_eq, kinds, Typing.Array]
  constructor
  · rintro ⟨type, mem, fits⟩
    cases type with
    | int | bool => cases fits
    | intarray length => exact ⟨length, mem⟩
  · rintro ⟨length, mem⟩
    exact ⟨_, mem, rfl⟩

theorem scalar_iff {line : Nat} :
    (func.lookup program).scalar name line = .ok () ↔ func.typing.Scalar name :=
  Lookup.scalar_eq_ok.trans (exists_scalar_iff funcs_nodup nodup)

theorem array_iff {line : Nat} :
    (func.lookup program).array name line = .ok () ↔ func.typing.Array name :=
  Lookup.array_eq_ok.trans (exists_array_iff funcs_nodup nodup)

omit nodup in
/-- A name is called as a function only where no parameter or variable has it. -/
theorem callee_iff {args line : Nat} : (func.lookup program).callee name args line = .ok () ↔
    func.typing.Callable program name args := by
  rw [Lookup.callee_eq_ok, Typing.Callable]
  constructor
  · rintro ⟨symbol, found, isFunc⟩
    obtain own | ⟨hidden, global⟩ := Option.or_eq_some_iff.mp found
    · obtain ⟨type, _, same⟩ := Typing.exists_type own
      cases type <;> simp [Symbol.params?, same, Ty.symbolKind] at isFunc
    · obtain ⟨callee, mem, named, rfl⟩ :=
        (Program.globalScope_find?_eq_some funcs_nodup).mp global
      exact ⟨Table.find?_scope.mp hidden, callee, mem, named, Option.some.inj isFunc⟩
  · rintro ⟨hidden, callee, mem, named, arity⟩
    refine ⟨{ kind := .function callee.params.length callee.returns, offset := 0, length := 0 },
      ?_, congrArg some arity⟩
    rw [lookup, Table.find?_scope.mpr hidden, Option.none_or]
    exact (Program.globalScope_find?_eq_some funcs_nodup).mpr ⟨callee, mem, named, rfl⟩

theorem exprCheck_iff {e : Expr} :
    e.check (func.lookup program) = .ok () ↔ e.WellFormed func.typing := by
  induction e with
  | int | bool => exact ⟨fun _ => trivial, fun _ => rfl⟩
  | var => exact scalar_iff funcs_nodup nodup
  | index _ _ element ih =>
      simp [Expr.check, Expr.WellFormed, bind_eq_ok, array_iff funcs_nodup nodup, ih]
  | unary _ _ operand ih => exact ih
  | binary _ _ left right ihl ihr =>
      simp [Expr.check, Expr.WellFormed, bind_eq_ok, ihl, ihr]

theorem exprCheckAll_iff {es : List Expr} :
    Expr.checkAll (func.lookup program) es = .ok () ↔ ∀ e ∈ es, e.WellFormed func.typing := by
  induction es with
  | nil => simp [Expr.checkAll, pure, Except.pure]
  | cons e rest ih =>
      simp [Expr.checkAll, bind_eq_ok, exprCheck_iff funcs_nodup nodup, ih]

theorem stmtCheckAll_iff (stmts : List Stmt) :
    Stmt.checkAll (func.lookup program) stmts = .ok () ↔
      Stmt.AllWellFormed program func.typing stmts := by
  cases stmts with
  | nil => simp [Stmt.checkAll, Stmt.AllWellFormed, pure, Except.pure]
  | cons stmt rest =>
      have later := stmtCheckAll_iff rest
      have first : stmt.check (func.lookup program) = .ok () ↔
          stmt.WellFormed program func.typing := by
        cases stmt with
        | assign target value =>
            simp [Stmt.check, Stmt.WellFormed, bind_eq_ok, scalar_iff funcs_nodup nodup,
              exprCheck_iff funcs_nodup nodup]
        | assignIndex target index value =>
            simp [Stmt.check, Stmt.WellFormed, bind_eq_ok, array_iff funcs_nodup nodup,
              exprCheck_iff funcs_nodup nodup]
        | call line target callee args =>
            simp [Stmt.check, Stmt.WellFormed, bind_eq_ok, scalar_iff funcs_nodup nodup,
              callee_iff funcs_nodup, exprCheckAll_iff funcs_nodup nodup]
        | callIndex line target index callee args =>
            simp [Stmt.check, Stmt.WellFormed, bind_eq_ok, array_iff funcs_nodup nodup,
              exprCheck_iff funcs_nodup nodup, callee_iff funcs_nodup,
              exprCheckAll_iff funcs_nodup nodup]
        | when cond body | loop cond body =>
            have body := stmtCheckAll_iff body
            simp [Stmt.check, Stmt.WellFormed, bind_eq_ok, exprCheck_iff funcs_nodup nodup, body]
        | choose cond thens elses =>
            have thens := stmtCheckAll_iff thens
            have elses := stmtCheckAll_iff elses
            simp [Stmt.check, Stmt.WellFormed, bind_eq_ok, exprCheck_iff funcs_nodup nodup, thens,
              elses]
        | block body =>
            rw [Stmt.check, Stmt.WellFormed]
            exact stmtCheckAll_iff body
      simp [Stmt.checkAll, Stmt.AllWellFormed, bind_eq_ok, first, later]
termination_by sizeOf stmts

end Names

/-- What is checked about a function is that it is well formed. -/
theorem checks_iff (funcs_nodup : (List.map Func.name program).Nodup) :
    func.Checks program ↔ func.WellFormed program := by
  have names (nodup : (func.typing.map (·.1)).Nodup) :
      func.check (func.lookup program) = .ok () ↔
        Stmt.AllWellFormed program func.typing func.body ∧ func.result.WellFormed func.typing := by
    simp [check, bind_eq_ok, stmtCheckAll_iff funcs_nodup nodup, exprCheck_iff funcs_nodup nodup]
  constructor
  · rintro ⟨scalar, ⟨nodup, nonempty⟩, checked⟩
    obtain ⟨body, result⟩ := (names nodup).mp checked
    exact ⟨nodup, scalar, fun name mem => nonempty _ mem rfl, body, result⟩
  · rintro ⟨nodup, scalar, nonempty, body, result⟩
    refine ⟨scalar, ⟨nodup, ?_⟩, (names nodup).mpr ⟨body, result⟩⟩
    rintro ⟨name, type⟩ mem rfl
    exact nonempty name mem

end Func

namespace Checker

theorem lift_of_ok {α : Type} {outcome : Except CompileError α} {a : α} (h : outcome = .ok a)
    (s : Checker) : lift outcome s = .ok a s := by
  rw [h]
  rfl

private theorem func_of_ok {func : Func} {checker : Checker} {scope : Nat} {table : Table}
    (declared : checker.table.declareLocals func = .ok (scope, table))
    (names : func.check (table.lookup scope) = .ok ()) :
    ∃ checker', Checker.func func checker = .ok { func with scope := some scope } checker' ∧
      checker'.table = table := by
  have taken := lift_of_ok declared checker
  have known := lift_of_ok names { checker with table }
  exact ⟨_, run_bind_eq_ok.mpr ⟨_, _, rfl, run_bind_eq_ok.mpr ⟨_, _, taken, run_bind_eq_ok.mpr
    ⟨_, _, rfl, run_bind_eq_ok.mpr ⟨_, _, known, rfl⟩⟩⟩⟩, rfl⟩

theorem funcs_of_checks {program before after : List Func} {checker : Checker}
    (table : checker.table = .ofFuncs program before)
    (checks : ∀ func ∈ after, func.Checks program) :
    ∃ checked checker', Checker.funcs after checker = .ok checked checker' := by
  induction after generalizing before checker with
  | nil => exact ⟨[], checker, rfl⟩
  | cons func rest ih =>
      obtain ⟨⟨scalar, distinct, names⟩, checks⟩ := List.forall_mem_cons.mp checks
      have extended : Table.ofTyping checker.table.scopes func.typing =
          .ofFuncs program (before ++ [func]) := by
        simp [table, Table.ofTyping, Table.ofFuncs]
      have scope : checker.table.scopes.size = before.length + 1 := by
        simp [table, Table.ofFuncs]
      have declared : checker.table.declareLocals func =
          .ok (before.length + 1, .ofFuncs program (before ++ [func])) :=
        Table.declareLocals_eq_ok.mpr ⟨scalar, distinct, scope.symm, extended.symm⟩
      have at_ : (before ++ [func])[before.length]? = some func := by simp
      rw [← Table.lookup_ofFuncs at_] at names
      obtain ⟨checker₁, first, next⟩ := func_of_ok declared names
      obtain ⟨others, checker₂, later⟩ := ih next checks
      exact ⟨_, _, run_bind_eq_ok.mpr ⟨_, _, first, run_bind_eq_ok.mpr ⟨_, _, later, rfl⟩⟩⟩

end Checker

namespace Program

/-- A program with different functions, each of which passes its checks, is accepted. -/
theorem check_of_checks {program : Program} (nodup : (List.map Func.name program).Nodup)
    (checks : ∀ func ∈ program, func.Checks program) :
    ∃ checked checker, program.check = .ok checked checker := by
  have empty : (([] : Program).map Func.name).Nodup := List.nodup_nil
  have functions : Table.empty.declareFuncs program = .ok (.ofFuncs program []) :=
    (Table.declareFuncs_eq_ok empty).mpr ⟨nodup, rfl⟩
  obtain ⟨checked, checker, accepted⟩ :=
    Checker.funcs_of_checks
      (show Checker.table { table := .ofFuncs program [] } = .ofFuncs program [] from rfl) checks
  have declared := Checker.lift_of_ok functions { table := .empty }
  exact ⟨checked, checker, run_bind_eq_ok.mpr ⟨_, _, rfl, run_bind_eq_ok.mpr
    ⟨_, _, declared, run_bind_eq_ok.mpr ⟨_, _, rfl, accepted⟩⟩⟩⟩

/-- Checking accepts exactly the well-formed programs. -/
theorem check_accepts_iff (program : Program) :
    (∃ checked checker, program.check = .ok checked checker) ↔ program.WellFormed := by
  constructor
  · rintro ⟨checked, checker, accepted⟩
    obtain ⟨nodup, -, -, checks⟩ := check_eq_ok accepted
    exact ⟨nodup, fun func mem => (Func.checks_iff nodup).mp (checks func mem)⟩
  · rintro ⟨nodup, funcs⟩
    exact check_of_checks nodup fun func mem => (Func.checks_iff nodup).mpr (funcs func mem)

/-- The functions of a checked program are well formed in the program that was checked. -/
theorem forall_wellFormed_of_check {program checked : Program} {checker : Checker}
    (passed : program.check = .ok checked checker) :
    ∀ func ∈ checked, func.WellFormed program := by
  obtain ⟨names, rfl, _, checks⟩ := check_eq_ok passed
  intro func mem
  obtain ⟨original, inProgram, scope, rfl, _, _⟩ := mem_withScopes mem
  obtain ⟨nodup, params, arrays, body, result⟩ :=
    (Func.checks_iff names).mp (checks original inProgram)
  exact ⟨nodup, params, arrays, body, result⟩

end Program

end Wordlang
