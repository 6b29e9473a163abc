import Wordlang.Proofs.Renaming.Code

/-! # Other names for variables

Names tell variables apart and nothing else. Where the names of a function are replaced by other
ones, different for different variables, each name finds the same place and the same fact, unless
a new name hides a function that is called.
-/

namespace Wordlang

section WellFormed

variable {ρ : String → String} {program program' : Program} {typing : Typing}

theorem Typing.Scalar.rename {name : String} (scalar : typing.Scalar name) :
    Typing.Scalar (renameKeys ρ typing) (ρ name) :=
  scalar.imp mem_renameKeys mem_renameKeys

theorem Typing.Array.rename {name : String} (array : typing.Array name) :
    Typing.Array (renameKeys ρ typing) (ρ name) := by
  obtain ⟨length, mem⟩ := array
  exact ⟨length, mem_renameKeys mem⟩

theorem Expr.WellFormed.rename {e : Expr} (wellFormed : e.WellFormed typing) :
    (e.rename ρ).WellFormed (renameKeys ρ typing) := by
  induction e with
  | int | bool => trivial
  | var => exact Typing.Scalar.rename wellFormed
  | index _ _ _ ih => exact ⟨wellFormed.1.rename, ih wellFormed.2⟩
  | unary _ _ _ ih => exact ih wellFormed
  | binary _ _ _ _ ihLeft ihRight => exact ⟨ihLeft wellFormed.1, ihRight wellFormed.2⟩

theorem Expr.forall_wellFormed_rename {es : List Expr}
    (wellFormed : ∀ e ∈ es, e.WellFormed typing) :
    ∀ e ∈ es.map (Expr.rename ρ), e.WellFormed (renameKeys ρ typing) :=
  List.forall_mem_map.mpr fun e mem => (wellFormed e mem).rename

/-- What well-formed statements call are functions that no variable hides. -/
theorem Stmt.AllWellFormed.callable {stmts : List Stmt}
    (wellFormed : AllWellFormed program typing stmts) :
    ∀ callee ∈ calleesAll stmts, ∃ args, typing.Callable program callee args := by
  cases stmts with
  | nil => exact List.forall_mem_nil _
  | cons stmt rest =>
      obtain ⟨first, later⟩ := wellFormed
      refine List.forall_mem_append.mpr ⟨?_, later.callable⟩
      cases stmt with
      | assign | assignIndex => exact List.forall_mem_nil _
      | call => exact List.forall_mem_singleton.mpr ⟨_, first.2.1⟩
      | callIndex => exact List.forall_mem_singleton.mpr ⟨_, first.2.2.1⟩
      | when _ body | loop _ body => exact AllWellFormed.callable first.2
      | choose _ thens elses =>
          exact List.forall_mem_append.mpr
            ⟨AllWellFormed.callable first.2.1, AllWellFormed.callable first.2.2⟩
      | block body => exact AllWellFormed.callable first
termination_by sizeOf stmts

theorem Typing.Callable.rename (same : program'.map Func.signature = program.map Func.signature)
    {callee : String} {args : Nat} (callable : typing.Callable program callee args)
    (apart : ∀ name ∈ typing.map (·.1), ρ name ≠ callee) :
    Typing.Callable program' (renameKeys ρ typing) callee args := by
  obtain ⟨_, func, mem, rfl, rfl⟩ := callable
  have known : func.signature ∈ program'.map Func.signature := same ▸ List.mem_map_of_mem mem
  obtain ⟨func', mem', alike⟩ := List.mem_map.mp known
  simp only [Func.signature, Prod.mk.injEq] at alike
  refine ⟨fun hidden => ?_, func', mem', alike.1, alike.2.1⟩
  rw [map_fst_renameKeys] at hidden
  obtain ⟨name, own, taken⟩ := List.mem_map.mp hidden
  exact apart name own taken

/-- Statements stay well formed under new names that hide none of the functions they call. -/
theorem Stmt.AllWellFormed.rename
    (same : program'.map Func.signature = program.map Func.signature) {stmts : List Stmt}
    (wellFormed : AllWellFormed program typing stmts)
    (apart : ∀ name ∈ typing.map (·.1), ρ name ∉ calleesAll stmts) :
    AllWellFormed program' (renameKeys ρ typing) (renameAll ρ stmts) := by
  cases stmts with
  | nil => trivial
  | cons stmt rest =>
      obtain ⟨first, later⟩ := wellFormed
      have apartFirst : ∀ name ∈ typing.map (·.1), ρ name ∉ stmt.callees :=
        fun name mem inside => apart name mem (List.mem_append_left _ inside)
      have apartRest : ∀ name ∈ typing.map (·.1), ρ name ∉ calleesAll rest :=
        fun name mem inside => apart name mem (List.mem_append_right _ inside)
      refine ⟨?_, later.rename same apartRest⟩
      cases stmt with
      | assign target value => exact ⟨first.1.rename, first.2.rename⟩
      | assignIndex target index value =>
          exact ⟨first.1.rename, first.2.1.rename, first.2.2.rename⟩
      | call line target callee args =>
          obtain ⟨scalar, callable, args⟩ := first
          refine ⟨scalar.rename, ?_, Expr.forall_wellFormed_rename args⟩
          rw [List.length_map]
          exact callable.rename same fun name mem => List.ne_of_not_mem_cons (apartFirst name mem)
      | callIndex line target index callee args =>
          obtain ⟨array, index, callable, args⟩ := first
          refine ⟨array.rename, index.rename, ?_, Expr.forall_wellFormed_rename args⟩
          rw [List.length_map]
          exact callable.rename same fun name mem => List.ne_of_not_mem_cons (apartFirst name mem)
      | when cond body | loop cond body =>
          obtain ⟨cond, body⟩ := first
          exact ⟨cond.rename, body.rename same apartFirst⟩
      | choose cond thens elses =>
          obtain ⟨cond, thens, elses⟩ := first
          exact ⟨cond.rename,
            thens.rename same fun name mem inside =>
              apartFirst name mem (List.mem_append_left _ inside),
            elses.rename same fun name mem inside =>
              apartFirst name mem (List.mem_append_right _ inside)⟩
      | block body => exact AllWellFormed.rename same first apartFirst
termination_by sizeOf stmts

theorem Func.WellFormed.rename (same : program'.map Func.signature = program.map Func.signature)
    {func : Func} (wellFormed : func.WellFormed program) (legal : func.Renaming ρ) :
    (func.rename ρ).WellFormed program' where
  names_nodup := by
    rw [typing_rename, map_fst_renameKeys]
    exact wellFormed.names_nodup.map_on fun _ mem _ mem' => legal.injective mem mem'
  params_scalar := by
    intro param mem
    obtain ⟨old, own, rfl⟩ := List.mem_map.mp mem
    exact wellFormed.params_scalar old own
  arrays_nonempty := by
    rw [typing_rename]
    intro name mem
    obtain ⟨⟨old, type⟩, declared, same⟩ := List.mem_map.mp mem
    obtain rfl : type = .intarray 0 := (Prod.mk.inj same).2
    exact wellFormed.arrays_nonempty old declared
  body := by
    rw [typing_rename]
    exact wellFormed.body.rename same legal.apart
  result := by
    rw [typing_rename]
    exact wellFormed.result.rename

end WellFormed

/-- A function of a program, and the same function with other names for its variables. -/
structure Func.Renamed (program : Program) (func func' : Func) : Prop where
  wellFormed : func.WellFormed program
  alike : ∃ ρ, func.Renaming ρ ∧ func' = func.rename ρ

namespace Func.Renamed

variable {program : Program} {func func' : Func}

theorem refl (wellFormed : func.WellFormed program) : Func.Renamed program func func := by
  refine ⟨wellFormed, fun name => name, ⟨fun _ _ _ _ same => same, fun name own called => ?_⟩,
    func.rename_self.symm⟩
  obtain ⟨_, visible, _⟩ := wellFormed.body.callable name called
  exact visible own

theorem signature_eq (renamed : Func.Renamed program func func') :
    func'.signature = func.signature := by
  obtain ⟨_, ρ, _, rfl⟩ := renamed
  exact signature_rename ρ func

theorem names_subset (renamed : Func.Renamed program func func') :
    func.names ⊆ func.typing.map (·.1) :=
  List.append_subset.mpr ⟨renamed.wellFormed.body.names_subset,
    renamed.wellFormed.result.names_subset⟩

theorem trail_eq (renamed : Func.Renamed program func func') : func'.trail = func.trail := by
  have names := renamed.names_subset
  obtain ⟨_, ρ, legal, rfl⟩ := renamed
  exact trail_rename legal names

theorem funcCode_eq {program' : Program} {options : Options} {facts : FactTable} {i : Nat}
    (renamed : Func.Renamed program func func')
    (same : program'.map signature = program.map signature) (quiet : options.trace = false)
    (at_ : program[i]? = some func) (at' : program'[i]? = some func') :
    Asm.funcCode options facts (.ofFuncs program' program') { func' with scope := some (i + 1) } =
      Asm.funcCode options facts (.ofFuncs program program)
        { func with scope := some (i + 1) } := by
  have names := renamed.names_subset
  obtain ⟨wellFormed, ρ, legal, rfl⟩ := renamed
  simp only [Asm.funcCode, Table.lookup_ofFuncs at_, Table.lookup_ofFuncs at',
    Table.scopeSize_ofFuncs at_, Table.scopeSize_ofFuncs at', typing_rename,
    Typing.size_renameKeys]
  refine Asm.bodyCode_rename quiet ?_ ?_ (fun callee called => ?_) (fun name mem => ?_) _
  · rfl
  · rfl
  · obtain ⟨args, callable⟩ := wellFormed.body.callable callee called
    exact lookup_callee same legal called callable
  · exact lookup_rename legal (names mem)

end Func.Renamed

namespace Program

variable {program program' : Program}

theorem signatures_eq (renamed : List.Forall₂ (Func.Renamed program) program program') :
    program'.map Func.signature = program.map Func.signature := by
  have same := List.rel_map (fun _ _ one => one.signature_eq.symm) renamed
  rw [List.forall₂_eq_eq_eq] at same
  exact same.symm

private theorem flow_eq (renamed : List.Forall₂ (Func.Renamed program) program program') :
    (flow program').table = (flow program).table := by
  have trails : List.Forall₂ Eq (program.map Func.trail) (program'.map Func.trail) :=
    List.rel_map (fun _ _ one => one.trail_eq.symm) renamed
  rw [List.forall₂_eq_eq_eq] at trails
  rw [Flow.table, Flow.table, records_flow, records_flow, List.flatMap_def, List.flatMap_def,
    trails]

private theorem exists_check_of_renamed {checked : Program} {checker : Checker}
    (passed : program.check = .ok checked checker)
    (renamed : List.Forall₂ (Func.Renamed program) program program') :
    ∃ checked' checker', program'.check = .ok checked' checker' := by
  have same := signatures_eq renamed
  have names : ∀ program : Program,
      program.map Func.name = (program.map Func.signature).map (·.1) := by
    simp [Func.signature, Function.comp_def]
  have nodup' : (List.map Func.name program').Nodup := by
    rw [names, same, ← names]
    exact (check_eq_ok passed).1
  refine check_of_checks nodup' fun func' mem' => (Func.checks_iff nodup').mpr ?_
  obtain ⟨i, rfl⟩ := List.get_of_mem mem'
  obtain ⟨wellFormed, ρ, legal, alike⟩ := renamed.get (i.2.trans_eq renamed.length_eq.symm) i.2
  rw [alike]
  exact wellFormed.rename same legal

private theorem funcsCode_scopedFrom {options : Options} {facts : FactTable} {table table' : Table}
    {funcs funcs' : List Func} (first : Nat) (length : funcs.length = funcs'.length)
    (same : ∀ (i : Nat) (func func' : Func), funcs[i]? = some func → funcs'[i]? = some func' →
      Asm.funcCode options facts table' { func' with scope := some (first + i) } =
        Asm.funcCode options facts table { func with scope := some (first + i) }) :
    Asm.funcsCode options facts table' (Func.scopedFrom funcs' first) =
      Asm.funcsCode options facts table (Func.scopedFrom funcs first) := by
  induction funcs generalizing funcs' first with
  | nil =>
      obtain rfl := List.length_eq_zero_iff.mp length.symm
      rfl
  | cons func rest ih =>
      cases funcs' with
      | nil => cases length
      | cons func' rest' =>
          have one := same 0 func func' rfl rfl
          have later := ih (first + 1) (Nat.succ.inj length) fun i next next' at_ at' => by
            have := same (i + 1) next next' at_ at'
            rwa [← Nat.add_assoc, Nat.add_right_comm] at this
          simp only [Func.scopedFrom_cons, Asm.funcsCode, later]
          rw [Nat.add_zero] at one
          rw [one]

private theorem generate_renamed {options : Options} {facts : FactTable}
    (quiet : options.trace = false)
    (renamed : List.Forall₂ (Func.Renamed program) program program') :
    Asm.generate options facts (.ofFuncs program' program') program'.withScopes =
      Asm.generate options facts (.ofFuncs program program) program.withScopes := by
  have same := signatures_eq renamed
  obtain ⟨length, each⟩ := List.forall₂_iff_get.mp renamed
  have code :
      Asm.funcsCode options facts (.ofFuncs program' program') (Func.scopedFrom program' 1) =
        Asm.funcsCode options facts (.ofFuncs program program) (Func.scopedFrom program 1) := by
    refine funcsCode_scopedFrom 1 length fun i func func' at_ at' => ?_
    obtain ⟨bound, rfl⟩ := List.getElem?_eq_some_iff.mp at_
    obtain ⟨bound', rfl⟩ := List.getElem?_eq_some_iff.mp at'
    rw [Nat.add_comm]
    exact (each i bound bound').funcCode_eq same quiet at_ at'
  rw [Asm.generate, Asm.generate, withScopes, withScopes, code]

theorem compileRead_of_generate {options : Options} {checked : Program} {checker : Checker}
    {code : Asm.Code} {labels : Nat} (passed : program.check = .ok checked checker)
    (made : Asm.generate options (if options.folding then (flow checked).table else .empty)
      checker.table checked = .ok (code, labels)) : compileRead options program = .ok code := by
  simp only [compileRead, Outcome.andThen_eq_ok, Prod.exists, checkProgram_eq_ok, findFacts_result,
    generateCode_eq_ok, Except.ok.injEq]
  exact ⟨checked, _, ⟨checker, passed, rfl⟩, _, rfl, labels, made⟩

/-- The names of parameters and variables tell them apart and do nothing else. Where those of one
    function are replaced by different ones, none of which is the name of a function that it
    calls, the program is accepted as before, and without comments its code is the same. -/
theorem compileRead_rename {before after : List Func} {func : Func} {checked : Program}
    {checker : Checker} (passed : Program.check (before ++ func :: after) = .ok checked checker)
    {ρ : String → String} (injective : Set.InjOn ρ {name | name ∈ func.typing.map (·.1)})
    (apart : ∀ name ∈ func.typing.map (·.1), ρ name ∉ func.callees) :
    (∃ checked' checker',
      Program.check (before ++ func.rename ρ :: after) = .ok checked' checker') ∧
    ∀ options : Options, options.trace = false → ∃ code,
      compileRead options (before ++ func :: after) = .ok code ∧
        compileRead options (before ++ func.rename ρ :: after) = .ok code := by
  obtain ⟨nodup, rfl, table, checks⟩ := check_eq_ok passed
  have wellFormed : ∀ other ∈ before ++ func :: after,
      other.WellFormed (before ++ func :: after) :=
    fun other mem => (Func.checks_iff nodup).mp (checks other mem)
  obtain ⟨ofBefore, others⟩ := List.forall_mem_append.mp wellFormed
  obtain ⟨ofFunc, ofAfter⟩ := List.forall_mem_cons.mp others
  have renamed : List.Forall₂ (Func.Renamed (before ++ func :: after))
      (before ++ func :: after) (before ++ func.rename ρ :: after) :=
    List.rel_append (List.forall₂_same.mpr fun other mem => .refl (ofBefore other mem))
      (.cons ⟨ofFunc, ρ, ⟨injective, apart⟩, rfl⟩
        (List.forall₂_same.mpr fun other mem => .refl (ofAfter other mem)))
  obtain ⟨checked', checker', passed'⟩ := exists_check_of_renamed passed renamed
  refine ⟨⟨_, _, passed'⟩, fun options quiet => ?_⟩
  obtain ⟨code, labels, made⟩ := Asm.generate_succeeds passed options
    (if options.folding then (flow (withScopes (before ++ func :: after))).table else .empty)
  have made' : Asm.generate options
      (if options.folding then (flow checked').table else .empty) checker'.table checked' =
        .ok (code, labels) := by
    obtain ⟨-, rfl, table', -⟩ := check_eq_ok passed'
    rw [flow_withScopes, table] at made
    rw [flow_withScopes, flow_eq renamed, table', generate_renamed quiet renamed, made]
  exact ⟨code, compileRead_of_generate passed made, compileRead_of_generate passed' made'⟩

/-- A function that doubles its argument. -/
def doubler : Func where
  name := "twice"
  line := 1
  params := [⟨"n", .int, 1⟩]
  returns := .int
  decls := []
  body := []
  result := .binary ⟨2, 1⟩ .plus (.var ⟨0, 1⟩ "n") (.var ⟨1, 1⟩ "n")

/-- A function that doubles its argument three times, the first time by a call. -/
def octupler : Func where
  name := "Main"
  line := 2
  params := [⟨"n", .int, 2⟩]
  returns := .int
  decls := [⟨["m", "k"], .int, 3⟩]
  body := [
    .assign "k" (.int ⟨3, 4⟩ 0),
    .call 4 "m" "twice" [.var ⟨4, 4⟩ "n"],
    .loop (.binary ⟨7, 5⟩ .less (.var ⟨5, 5⟩ "k") (.int ⟨6, 5⟩ 2))
      [.assign "m" (.binary ⟨12, 5⟩ .times (.var ⟨8, 5⟩ "m")
          (.binary ⟨11, 5⟩ .plus (.int ⟨9, 5⟩ 1) (.int ⟨10, 5⟩ 1))),
        .assign "k" (.binary ⟨15, 5⟩ .plus (.var ⟨13, 5⟩ "k") (.int ⟨14, 5⟩ 1))]]
  result := .var ⟨16, 6⟩ "m"

/-- Two variables change their names for each other's, and the parameter hides the function. -/
def exchanged : String → String
  | "m" => "k"
  | "k" => "m"
  | "n" => "Main"
  | name => name

theorem compileRead_octupler_renamed :
    Set.InjOn exchanged {name | name ∈ octupler.typing.map (·.1)} ∧
    (∀ name ∈ octupler.typing.map (·.1), exchanged name ∉ octupler.callees) ∧
    (∃ checked checker, Program.check [doubler, octupler] = .ok checked checker) ∧
    (∃ checked checker,
      Program.check [doubler, octupler.rename exchanged] = .ok checked checker) ∧
    ∀ folding, ∃ code, compileRead { folding } [doubler, octupler] = .ok code ∧
      compileRead { folding } [doubler, octupler.rename exchanged] = .ok code := by
  have distinct : ∀ a ∈ octupler.typing.map (·.1), ∀ b ∈ octupler.typing.map (·.1),
      exchanged a = exchanged b → a = b := by decide
  have apart : ∀ name ∈ octupler.typing.map (·.1), exchanged name ∉ octupler.callees := by decide
  have injective : Set.InjOn exchanged {name | name ∈ octupler.typing.map (·.1)} :=
    fun a mem b mem' => distinct a mem b mem'
  obtain ⟨made, checks, -⟩ := exists_ok_of_any
    (x := (checkProgram ([doubler] ++ octupler :: [])).result) (p := fun _ => true)
    (by decide +kernel)
  obtain ⟨checker, passed, -⟩ := checkProgram_eq_ok.mp checks
  obtain ⟨accepted, same⟩ := compileRead_rename passed injective apart
  simp only [List.singleton_append] at passed accepted same
  exact ⟨injective, apart, ⟨_, _, passed⟩, accepted, fun folding => same { folding } rfl⟩

end Program

end Wordlang
