import Wordlang.Proofs.Acceptance
import Wordlang.Proofs.Tables

/-! # Resolution of names

When code generation fails. All it does that can fail is to look for names. Where nothing is
known about any expression, it looks for every name of a program, so that it succeeds exactly
when all of them have a meaning and what is called are functions. What is known only lets it
leave names out.
-/

namespace Wordlang

namespace Table

variable {table : Table}

private theorem search_eq_lookup (arises : Reachable Anywhere table) (straight : table.Straight)
    (id : Nat) (name : String) : table.search id name = some (table.lookup id name) := by
  obtain ⟨visited, result, walk⟩ := exists_walk (straight.not_circles name id)
  have ended := walk.search_eq_some
  rw [ended, arises.lookup_eq ended]

theorem resolved_iff (arises : Reachable Anywhere table) (straight : table.Straight)
    {func : Func} : func.Resolved table ↔
      ∃ scope, func.scope = some scope ∧ Lookup.Resolves (table.lookup scope) func := by
  unfold Func.Resolved
  simp only [search_eq_lookup arises straight, Option.some.injEq]
  exact exists_congr fun scope => and_congr_right fun _ =>
    ⟨fun ⟨names, callees⟩ => ⟨names, callees⟩, fun resolves => ⟨resolves.names, resolves.callees⟩⟩

end Table

namespace Asm

section Unknown

variable {ctx : Context} (unknown : ∀ e, ctx.known e = none)

include unknown

theorem ExprCode.finds {e place n code n'} (shape : ExprCode ctx e place n code n') :
    ctx.lookup.Finds e.names := by
  induction shape with
  | known known => exact absurd known (by simp [unknown])
  | int | bool => exact Lookup.finds_nil
  | var _ found => exact Lookup.finds_cons.mpr ⟨⟨_, found⟩, Lookup.finds_nil⟩
  | element _ _ known => exact absurd known (by simp [unknown])
  | index _ found _ _ ih => exact Lookup.finds_cons.mpr ⟨⟨_, found⟩, ih⟩
  | unary _ _ ih => exact ih
  | left _ known => exact absurd known (by simp [unknown])
  | right _ _ known => exact absurd known (by simp [unknown])
  | both _ _ _ _ _ _ ihr ihl => exact Lookup.finds_append.mpr ⟨ihl, ihr⟩

theorem ArgsCode.finds {args n code n'} (shape : ArgsCode ctx args n code n') :
    ctx.lookup.Finds (args.flatMap Expr.names) := by
  induction shape with
  | nil => exact Lookup.finds_nil
  | cons _ made ih => exact Lookup.finds_append.mpr ⟨made.finds unknown, ih⟩

theorem callCode_finds {callee args n code n'} (made : (callCode ctx callee args).Makes n code n') :
    ctx.lookup.FindsFuncs [callee] ∧ ctx.lookup.Finds (args.flatMap Expr.names) := by
  obtain ⟨found, isFunc, pushed⟩ := callCode_makes made
  exact ⟨Lookup.findsFuncs_cons.mpr ⟨⟨_, _, found, isFunc⟩, Lookup.findsFuncs_nil⟩,
    pushed.finds unknown⟩

theorem conditionCode_finds {cond n code n'} (made : (conditionCode ctx cond).Makes n code n') :
    ctx.lookup.Finds cond.names := by
  obtain ⟨made⟩ := conditionCode_makes made
  exact made.finds unknown

private theorem assignCode_finds {slot value n code n'}
    (made : (assignCode ctx slot value).Makes n code n') : ctx.lookup.Finds value.names := by
  cases assignCode_makes made with
  | known known => exact absurd known (by simp [unknown])
  | computed _ made => exact made.finds unknown

private theorem assignIndexCode_finds {symbol index value n code n'}
    (made : (assignIndexCode ctx symbol index value).Makes n code n') :
    ctx.lookup.Finds (index.names ++ value.names) := by
  cases assignIndexCode_makes made with
  | known known | content known => exact absurd known (by simp [unknown])
  | place _ known => exact absurd known (by simp [unknown])
  | both _ _ madeIndex made =>
      exact Lookup.finds_append.mpr ⟨madeIndex.finds unknown, made.finds unknown⟩

private theorem callIndexCode_finds {symbol index callee args n code n'}
    (made : (callIndexCode ctx symbol index callee args).Makes n code n') :
    ctx.lookup.FindsFuncs [callee] ∧
      ctx.lookup.Finds (index.names ++ args.flatMap Expr.names) := by
  cases callIndexCode_makes made with
  | known known => exact absurd known (by simp [unknown])
  | computed _ madeIndex called =>
      obtain ⟨func, finds⟩ := callCode_finds unknown called
      exact ⟨func, Lookup.finds_append.mpr ⟨madeIndex.finds unknown, finds⟩⟩

theorem StmtsCode.finds {stmts n code n'} (shape : StmtsCode ctx stmts n code n') :
    ctx.lookup.Finds (Stmt.namesAll stmts) ∧ ctx.lookup.FindsFuncs (Stmt.calleesAll stmts) := by
  induction shape with
  | nil => exact ⟨Lookup.finds_nil, Lookup.findsFuncs_nil⟩
  | assign found made _ ih =>
      have value := assignCode_finds unknown made
      exact ⟨Lookup.finds_append.mpr ⟨Lookup.finds_cons.mpr ⟨⟨_, found⟩, value⟩, ih.1⟩, ih.2⟩
  | assignIndex found made _ ih =>
      have values := assignIndexCode_finds unknown made
      exact ⟨Lookup.finds_append.mpr ⟨Lookup.finds_cons.mpr ⟨⟨_, found⟩, values⟩, ih.1⟩, ih.2⟩
  | call found made _ ih =>
      obtain ⟨func, args⟩ := callCode_finds unknown made
      exact ⟨Lookup.finds_append.mpr ⟨Lookup.finds_cons.mpr ⟨⟨_, found⟩, args⟩, ih.1⟩,
        Lookup.findsFuncs_append.mpr ⟨func, ih.2⟩⟩
  | callIndex found made _ ih =>
      obtain ⟨func, values⟩ := callIndexCode_finds unknown made
      exact ⟨Lookup.finds_append.mpr ⟨Lookup.finds_cons.mpr ⟨⟨_, found⟩, values⟩, ih.1⟩,
        Lookup.findsFuncs_append.mpr ⟨func, ih.2⟩⟩
  | whenTrue known | whenFalse known | chooseTrue known | chooseFalse known | loopTrue known
  | loopFalse known => exact absurd known (by simp [unknown])
  | when _ made _ _ inner later | loop _ made _ _ inner later =>
      have cond := conditionCode_finds unknown made
      exact ⟨Lookup.finds_append.mpr ⟨Lookup.finds_append.mpr ⟨cond, inner.1⟩, later.1⟩,
        Lookup.findsFuncs_append.mpr ⟨inner.2, later.2⟩⟩
  | choose _ made _ _ _ first second later =>
      have cond := conditionCode_finds unknown made
      have bodies := Lookup.finds_append.mpr ⟨first.1, second.1⟩
      exact ⟨Lookup.finds_append.mpr ⟨Lookup.finds_append.mpr ⟨cond, bodies⟩, later.1⟩,
        Lookup.findsFuncs_append.mpr ⟨Lookup.findsFuncs_append.mpr ⟨first.2, second.2⟩, later.2⟩⟩
  | block _ _ inner later =>
      exact ⟨Lookup.finds_append.mpr ⟨inner.1, later.1⟩,
        Lookup.findsFuncs_append.mpr ⟨inner.2, later.2⟩⟩

theorem FuncCode.resolves {func size n code n'} (shape : FuncCode ctx func size n code n') :
    ctx.lookup.Resolves func := by
  obtain ⟨body, result⟩ := shape
  obtain ⟨names, callees⟩ := body.finds unknown
  exact ⟨Lookup.finds_append.mpr ⟨names, result.finds unknown⟩, callees⟩

end Unknown

section Functions

variable {options : Options} {facts : FactTable} {table : Table}

theorem FuncsCode.resolves (unfolded : options.folding = false) {funcs n code n'}
    (shape : FuncsCode options facts table funcs n code n') :
    ∀ func ∈ funcs, ∃ scope, func.scope = some scope ∧
      Lookup.Resolves (table.lookup scope) func := by
  induction shape with
  | nil => simp
  | @cons text func rest scope n inner n₁ later n' known made _ ih =>
      have unknown : ∀ e, (Context.ofScope options facts table scope).known e = none := by
        simp [Context.known, Context.ofScope, unfolded]
      exact List.forall_mem_cons.mpr ⟨⟨scope, known, made.resolves unknown⟩, ih⟩

private theorem generate_ok_iff (unfolded : options.folding = false) {program : Program} :
    (∃ made, generate options facts table program = .ok made) ↔
      ∀ func ∈ program, ∃ scope, func.scope = some scope ∧
        Lookup.Resolves (table.lookup scope) func := by
  constructor
  · rintro ⟨⟨code, labels⟩, made⟩
    obtain ⟨body, -, shape⟩ := generate_eq_ok made
    exact shape.resolves unfolded
  · intro resolves
    obtain ⟨code, labels, made⟩ := generate_of_resolves resolves
    exact ⟨_, made⟩

end Functions

/-- Code generation fails with an inconsistency if at all. -/
def Gen.FailsInconsistent {α : Type} (gen : Gen α) : Prop :=
  ∀ n error, gen.run n = .error error → ∃ cause, error = .inconsistent cause

namespace Gen.FailsInconsistent

variable {α β : Type}

theorem of_succeeds {gen : Gen α} (succeeds : gen.Succeeds) : gen.FailsInconsistent := by
  intro n error failed
  obtain ⟨a, n', made⟩ := succeeds n
  cases made.symm.trans failed

theorem pure (a : α) : (Pure.pure a : Gen α).FailsInconsistent := of_succeeds (.pure a)

theorem newNumber : Asm.newNumber.FailsInconsistent := of_succeeds .newNumber

theorem throw (cause : Inconsistency) :
    (MonadExcept.throw (.inconsistent cause) : Gen α).FailsInconsistent := by
  intro n error failed
  cases failed
  exact ⟨cause, rfl⟩

theorem bind {gen : Gen α} {next : α → Gen β} (first : gen.FailsInconsistent)
    (later : ∀ a, (next a).FailsInconsistent) : (gen >>= next).FailsInconsistent := by
  intro n error failed
  rw [StateT.run_bind] at failed
  cases made : gen.run n with
  | error cause =>
      rw [made] at failed
      cases failed
      exact first n _ made
  | ok result =>
      obtain ⟨a, n'⟩ := result
      rw [made] at failed
      exact later a n' error failed

theorem find (ctx : Context) (name : String) : (ctx.find name).FailsInconsistent := by
  unfold Context.find
  cases ctx.lookup name with
  | some symbol => exact .pure symbol
  | none => exact .throw _

end Gen.FailsInconsistent

open Gen (FailsInconsistent)

section Failing

variable (ctx : Context)

theorem resultCode_fails (op : BinOp) (total : Address) (place : Place) :
    (resultCode op total place).FailsInconsistent :=
  .of_succeeds (resultCode_succeeds op total place)

theorem exprCode_fails (e : Expr) (place : Place) : (exprCode ctx e place).FailsInconsistent := by
  induction e generalizing place with
  | int | bool =>
      rw [exprCode.eq_def]
      split <;> exact .pure _
  | var _ name =>
      rw [exprCode.eq_def]
      split
      · exact .pure _
      · exact .bind (.find ctx name) fun _ => .pure _
  | index _ name element ih =>
      rw [exprCode.eq_def]
      split
      · exact .pure _
      · refine .bind (.find ctx name) fun symbol => ?_
        split
        · exact .pure _
        · exact .bind (ih _) fun _ => .pure _
  | unary _ op operand ih =>
      rw [exprCode.eq_def]
      split
      · exact .pure _
      · exact .bind (ih _) fun _ => .pure _
  | binary _ op left right ihl ihr =>
      rw [exprCode.eq_def]
      split
      · exact .pure _
      · simp only
        split
        · exact .bind (ihr _) fun _ => .bind (resultCode_fails _ _ _) fun _ => .pure _
        · exact .bind (ihl _) fun _ => .bind (resultCode_fails _ _ _) fun _ => .pure _
        · exact .bind (ihr _) fun _ => .bind (ihl _) fun _ =>
            .bind (resultCode_fails _ _ _) fun _ => .pure _

theorem conditionCode_fails (cond : Expr) : (conditionCode ctx cond).FailsInconsistent :=
  .bind (exprCode_fails ctx cond _) fun _ => .pure _

private theorem argsCode_fails (args : List Expr) : (argsCode ctx args).FailsInconsistent := by
  induction args with
  | nil => exact .pure _
  | cons arg rest ih => exact .bind ih fun _ => .bind (exprCode_fails ctx arg _) fun _ => .pure _

theorem callCode_fails (callee : String) (args : List Expr) :
    (callCode ctx callee args).FailsInconsistent := by
  refine .bind (.find ctx callee) fun symbol => ?_
  split
  · exact .throw _
  · exact .bind (argsCode_fails ctx args) fun _ => .pure _

private theorem assignCode_fails (slot : Address) (value : Expr) :
    (assignCode ctx slot value).FailsInconsistent := by
  unfold assignCode
  split
  · exact .pure _
  · exact .bind (exprCode_fails ctx value _) fun _ => .pure _

private theorem assignIndexCode_fails (symbol : Symbol) (index value : Expr) :
    (assignIndexCode ctx symbol index value).FailsInconsistent := by
  unfold assignIndexCode
  split
  · exact .pure _
  · exact .bind (exprCode_fails ctx value _) fun _ => .pure _
  · exact .bind (exprCode_fails ctx index _) fun _ => .pure _
  · exact .bind (exprCode_fails ctx index _) fun _ =>
      .bind (exprCode_fails ctx value _) fun _ => .pure _

private theorem callIndexCode_fails (symbol : Symbol) (index : Expr) (callee : String)
    (args : List Expr) : (callIndexCode ctx symbol index callee args).FailsInconsistent := by
  unfold callIndexCode
  split
  · exact .bind (callCode_fails ctx callee args) fun _ => .pure _
  · exact .bind (exprCode_fails ctx index _) fun _ =>
      .bind (callCode_fails ctx callee args) fun _ => .pure _

mutual

theorem stmtCode_fails (stmt : Stmt) : (stmtCode ctx stmt).FailsInconsistent := by
  cases stmt with
  | assign target value =>
      rw [stmtCode]
      exact .bind (.find ctx target) fun _ => .bind (assignCode_fails ctx _ value) fun _ => .pure _
  | assignIndex target index value =>
      rw [stmtCode]
      exact .bind (.find ctx target) fun symbol =>
        .bind (assignIndexCode_fails ctx symbol index value) fun _ => .pure _
  | call line target callee args =>
      rw [stmtCode]
      exact .bind (.find ctx target) fun _ =>
        .bind (callCode_fails ctx callee args) fun _ => .pure _
  | callIndex line target index callee args =>
      rw [stmtCode]
      exact .bind (.find ctx target) fun symbol => callIndexCode_fails ctx symbol index callee args
  | when cond body =>
      rw [stmtCode]
      split
      · split
        · exact .bind (stmtsCode_fails body) fun _ => .pure _
        · exact .pure _
      · exact .bind .newNumber fun _ => .bind (conditionCode_fails ctx cond) fun _ =>
          .bind (stmtsCode_fails body) fun _ => .pure _
  | choose cond thens elses =>
      rw [stmtCode]
      split
      · split
        · exact .bind (stmtsCode_fails thens) fun _ => .pure _
        · exact .bind (stmtsCode_fails elses) fun _ => .pure _
      · exact .bind .newNumber fun _ => .bind .newNumber fun _ =>
          .bind (conditionCode_fails ctx cond) fun _ => .bind (stmtsCode_fails thens) fun _ =>
            .bind (stmtsCode_fails elses) fun _ => .pure _
  | loop cond body =>
      rw [stmtCode]
      split
      · split
        · exact .bind .newNumber fun _ => .bind (stmtsCode_fails body) fun _ => .pure _
        · exact .pure _
      · exact .bind .newNumber fun _ => .bind (conditionCode_fails ctx cond) fun _ =>
          .bind (stmtsCode_fails body) fun _ => .pure _
  | block body =>
      rw [stmtCode]
      exact stmtsCode_fails body
termination_by sizeOf stmt

theorem stmtsCode_fails (stmts : List Stmt) : (stmtsCode ctx stmts).FailsInconsistent := by
  cases stmts with
  | nil =>
      rw [stmtsCode]
      exact .pure _
  | cons stmt rest =>
      rw [stmtsCode]
      exact .bind (stmtCode_fails stmt) fun _ => .bind (stmtsCode_fails rest) fun _ => .pure _
termination_by sizeOf stmts

end

private theorem bodyCode_fails (func : Func) (size : Nat) :
    (bodyCode ctx func size).FailsInconsistent :=
  .bind (stmtsCode_fails ctx func.body) fun _ =>
    .bind (exprCode_fails ctx func.result _) fun _ => .pure _

end Failing

section Programs

variable (options : Options) (facts : FactTable) (table : Table)

private theorem funcsCode_fails (funcs : List Func) :
    (funcsCode options facts table funcs).FailsInconsistent := by
  induction funcs with
  | nil => exact .pure _
  | cons func rest ih =>
      refine .bind ?_ fun _ => .bind ih fun _ => .pure _
      unfold funcCode
      split
      · exact .throw _
      · exact bodyCode_fails _ func _

private theorem generate_eq_error {program : Program} {error : CompileError}
    (failed : generate options facts table program = .error error) :
    ∃ cause, error = .inconsistent cause := by
  unfold generate at failed
  cases made : (funcsCode options facts table program).run 0 with
  | error cause =>
      rw [made] at failed
      cases failed
      exact funcsCode_fails options facts table program 0 _ made
  | ok result =>
      rw [made] at failed
      cases failed

end Programs

/-- Where nothing is known, code generation succeeds exactly when every function has a scope,
    from which all its names have a meaning and its callees are functions, and else it fails with
    an inconsistency. Where it succeeds so, it succeeds whatever is known. -/
theorem generate_resolves {table : Table} (arises : Table.Reachable Table.Anywhere table)
    (straight : table.Straight) {options : Options} (unfolded : options.folding = false)
    (facts : FactTable) (program : Program) :
    ((∃ made, generate options facts table program = .ok made) ↔ program.Resolved table) ∧
      (¬ program.Resolved table →
        ∃ cause, generate options facts table program = .error (.inconsistent cause)) ∧
      ((∃ made, generate options facts table program = .ok made) →
        ∀ (folding : Options) (known : FactTable), folding.folding = true →
          ∃ made, generate folding known table program = .ok made) := by
  have resolved : program.Resolved table ↔ ∀ func ∈ program, ∃ scope, func.scope = some scope ∧
      Lookup.Resolves (table.lookup scope) func :=
    forall_congr' fun func => imp_congr_right fun _ => Table.resolved_iff arises straight
  have succeeds : (∃ made, generate options facts table program = .ok made) ↔
      program.Resolved table := (generate_ok_iff unfolded).trans resolved.symm
  refine ⟨succeeds, fun unresolved => ?_, fun made folding known _ => ?_⟩
  · cases failed : generate options facts table program with
    | ok made => exact absurd (succeeds.mp ⟨made, failed⟩) unresolved
    | error error =>
        obtain ⟨cause, rfl⟩ := generate_eq_error options facts table failed
        exact ⟨cause, rfl⟩
  · obtain ⟨code, labels, made⟩ := generate_of_resolves (resolved.mp (succeeds.mp made))
    exact ⟨_, made⟩

/-- A function that passes its variable to another function. -/
def errand : Func where
  name := "Main"
  line := 1
  params := []
  returns := .int
  decls := [{ names := ["x"], type := .int, line := 1 }]
  body := [.call 1 "x" "g" [.var { id := 0, line := 1 } "x"]]
  result := .var { id := 2, line := 1 } "x"
  scope := some 1

theorem errand_resolves :
    let alone := Table.empty.after [.openScope 0, .declare 1 "x" .int]
    let joined := Table.empty.after [.openScope 0, .declare 1 "x" .int, .declareFunc "g" 1 .int]
    (Table.Reachable Table.Anywhere alone ∧ alone.Straight ∧
      ∃ cause, generate { folding := false } .empty alone [errand] = .error (.inconsistent cause)) ∧
    (Table.Reachable Table.Anywhere joined ∧ joined.Straight ∧ Program.Resolved joined [errand] ∧
      ∀ known, ∃ made, generate { folding := true } known joined [errand] = .ok made) := by
  intro alone joined
  have opened : Table.Reachable Table.Existing (Table.empty.openScope 0).2 :=
    .openScope .empty Nat.zero_lt_one
  have declaredX : (Table.empty.openScope 0).2.declare 1 "x" .int =
      some ({ kind := .int, offset := 0, length := 1 }, alone) := rfl
  have declaredG : alone.declareFunc "g" 1 .int =
      some ({ kind := .function 1 .int, offset := 0, length := 0 }, joined) := rfl
  have aloneArises : Table.Reachable Table.Existing alone := .declare opened declaredX
  have joinedArises : Table.Reachable Table.Existing joined := .declareFunc aloneArises declaredG
  have anyAlone : Table.Reachable Table.Anywhere alone := Table.Reachable.empty.after _
  have anyJoined : Table.Reachable Table.Anywhere joined := Table.Reachable.empty.after _
  have unfolded : Options.folding { folding := false } = false := rfl
  have aloneFails := generate_resolves anyAlone aloneArises.straight unfolded .empty [errand]
  have joinedMakes := generate_resolves anyJoined joinedArises.straight unfolded .empty [errand]
  have made : ∃ made, generate { folding := false } .empty joined [errand] = .ok made := ⟨_, rfl⟩
  refine ⟨⟨anyAlone, aloneArises.straight, aloneFails.2.1 fun resolved => ?_⟩,
    anyJoined, joinedArises.straight, joinedMakes.1.mp made,
    fun known => joinedMakes.2.2 made { folding := true } known rfl⟩
  obtain ⟨made, generated⟩ := aloneFails.1.mpr resolved
  cases generated

end Asm

end Wordlang
