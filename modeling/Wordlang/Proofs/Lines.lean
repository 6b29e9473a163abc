import Wordlang.Compile
import Wordlang.Proofs.Following.Program

/-! # Lines

Behind the parser a line is good for nothing but the message of an error. A program without
its lines is checked like the program itself, up to the lines of the errors; the same facts are
found about it, and it has the same code.
-/

namespace Wordlang

/-- Two outcomes that are alike: the second has the result of the first in some shape, or the
    same error on whatever line. -/
inductive Unlines {α β : Type} (shape : α → β) :
    Except CompileError α → Except CompileError β → Prop where
  | ok (a : α) : Unlines shape (.ok a) (.ok (shape a))
  | error {error error' : CompileError} :
      error.unlined = error'.unlined → Unlines shape (.error error) (.error error')

/-- Outcomes that are alike, and that have the same result if any. -/
abbrev Alike {α : Type} (outcome outcome' : Except CompileError α) : Prop :=
  Unlines id outcome outcome'

namespace Unlines

variable {α β γ δ : Type} {shape : α → β} {outcome : Except CompileError α}
  {outcome' : Except CompileError β}

theorem bind {shape' : γ → δ} {next : α → Except CompileError γ}
    {next' : β → Except CompileError δ} (first : Unlines shape outcome outcome')
    (second : ∀ a, Unlines shape' (next a) (next' (shape a))) :
    Unlines shape' (outcome >>= next) (outcome' >>= next') := by
  cases first with
  | ok a => exact second a
  | error same => exact .error same

theorem foldlM {step : γ → α → Except CompileError γ} {step' : γ → β → Except CompileError γ}
    (each : ∀ c a, Alike (step c a) (step' c (shape a))) (items : List α) (start : γ) :
    Alike (items.foldlM step start) ((items.map shape).foldlM step' start) := by
  induction items generalizing start with
  | nil => exact .ok start
  | cons item rest ih =>
      rw [List.map_cons, List.foldlM_cons, List.foldlM_cons]
      exact (each start item).bind ih

/-- Outcomes that are like a third one have the same result or the same error. -/
theorem join {common : Except CompileError α} {first second : Except CompileError α}
    (one : Alike first common) (other : Alike second common) :
    (∃ a, first = .ok a ∧ second = .ok a) ∨
      ∃ error error', first = .error error ∧ second = .error error' ∧
        error.unlined = error'.unlined := by
  cases one with
  | ok a =>
      cases other
      exact .inl ⟨a, rfl, rfl⟩
  | error same =>
      cases other with
      | error same' => exact .inr ⟨_, _, rfl, rfl, same.trans same'.symm⟩

theorem refl (outcome : Except CompileError α) : Alike outcome outcome := by
  cases outcome with
  | ok a => exact .ok a
  | error error => exact .error rfl

end Unlines

section Names

variable (lookup : Lookup)

theorem Lookup.scalar_unlines (name : String) (line : Nat) :
    Alike (lookup.scalar name line) (lookup.scalar name 0) := by
  unfold scalar
  split
  · split
    · exact .ok ()
    · exact .error rfl
  · exact .error rfl

theorem Lookup.array_unlines (name : String) (line : Nat) :
    Alike (lookup.array name line) (lookup.array name 0) := by
  unfold array
  split
  · split
    · exact .ok ()
    · exact .error rfl
  · exact .error rfl

theorem Lookup.callee_unlines (name : String) (args line : Nat) :
    Alike (lookup.callee name args line) (lookup.callee name args 0) := by
  unfold callee
  split
  · split
    · split
      · exact .ok ()
      · exact .error rfl
    · exact .error rfl
  · exact .error rfl

@[simp] theorem Expr.line_unlined (e : Expr) : e.unlined.line = 0 := by
  cases e <;> rfl

theorem Expr.check_unlines (e : Expr) :
    Alike (e.check lookup) (e.unlined.check lookup) := by
  induction e with
  | int | bool => exact .ok ()
  | var _ name => exact lookup.scalar_unlines name _
  | index _ name _ ih => exact (lookup.array_unlines name _).bind fun _ => ih
  | unary _ _ _ ih => exact ih
  | binary _ _ _ _ left right => exact left.bind fun _ => right

theorem Expr.checkAll_unlines (es : List Expr) :
    Alike (checkAll lookup es) (checkAll lookup (es.map Expr.unlined)) := by
  induction es with
  | nil => exact .ok ()
  | cons e rest ih => exact (e.check_unlines lookup).bind fun _ => ih

mutual

theorem Stmt.check_unlines (stmt : Stmt) :
    Alike (stmt.check lookup) (stmt.unlined.check lookup) := by
  cases stmt with
  | assign target value =>
      rw [unlined, Stmt.check, Stmt.check, Expr.line_unlined]
      exact (lookup.scalar_unlines target _).bind fun _ => value.check_unlines lookup
  | assignIndex target index value =>
      rw [unlined, Stmt.check, Stmt.check, Expr.line_unlined]
      exact (lookup.array_unlines target _).bind fun _ => (index.check_unlines lookup).bind
        fun _ => value.check_unlines lookup
  | call line target callee args =>
      rw [unlined, Stmt.check, Stmt.check, List.length_map]
      exact (lookup.scalar_unlines target line).bind fun _ =>
        (lookup.callee_unlines callee _ line).bind fun _ => Expr.checkAll_unlines lookup args
  | callIndex line target index callee args =>
      rw [unlined, Stmt.check, Stmt.check, List.length_map]
      exact (lookup.array_unlines target line).bind fun _ => (index.check_unlines lookup).bind
        fun _ => (lookup.callee_unlines callee _ line).bind fun _ =>
          Expr.checkAll_unlines lookup args
  | when cond body => exact (cond.check_unlines lookup).bind fun _ => checkAll_unlines body
  | choose cond thens elses =>
      exact (cond.check_unlines lookup).bind fun _ => (checkAll_unlines thens).bind fun _ =>
        checkAll_unlines elses
  | loop cond body => exact (cond.check_unlines lookup).bind fun _ => checkAll_unlines body
  | block body => exact checkAll_unlines body

theorem Stmt.checkAll_unlines (stmts : List Stmt) :
    Alike (checkAll lookup stmts) (checkAll lookup (unlinedAll stmts)) := by
  cases stmts with
  | nil => exact .ok ()
  | cons stmt rest => exact (check_unlines stmt).bind fun _ => checkAll_unlines rest

end

theorem Func.check_unlines (func : Func) :
    Alike (func.check lookup) (func.unlined.check lookup) := by
  have body := Stmt.checkAll_unlines lookup func.body
  rw [Stmt.unlinedAll_eq_map] at body
  exact body.bind fun _ => func.result.check_unlines lookup

end Names

namespace Table

theorem declareFuncs_unlines (table : Table) (program : Program) :
    Alike (table.declareFuncs program) (table.declareFuncs (program.map Func.unlined)) := by
  induction program generalizing table with
  | nil => exact .ok table
  | cons func rest ih =>
      rw [List.map_cons, declareFuncs, declareFuncs]
      simp only [Func.unlined, List.length_map]
      split
      · exact ih _
      · exact .error rfl

theorem declareVar_unlines (table : Table) (scope : Nat) (name : String) (type : Ty) (line : Nat) :
    Alike (table.declareVar scope name type line) (table.declareVar scope name type 0) := by
  unfold declareVar
  split
  · exact .error rfl
  · split
    · exact .ok _
    · exact .error rfl

theorem declareParam_unlines (table : Table) (scope : Nat) (param : Param) :
    Alike (table.declareParam scope param) (table.declareParam scope param.bare) := by
  obtain ⟨name, type, line⟩ := param
  cases type with
  | intarray => exact .error rfl
  | int | bool => exact table.declareVar_unlines scope _ _ _

theorem declareDecl_unlines (table : Table) (scope : Nat) (decl : Decl) :
    Alike (table.declareDecl scope decl) (table.declareDecl scope decl.bare) := by
  have each : Alike (table.declareDecl scope decl)
      ((decl.names.map id).foldlM
        (fun table name => table.declareVar scope name decl.type 0) table) :=
    .foldlM (fun table name => table.declareVar_unlines scope name _ _) _ _
  rwa [List.map_id] at each

theorem declareLocals_unlines (table : Table) (func : Func) :
    Alike (table.declareLocals func) (table.declareLocals func.unlined) :=
  .bind (.foldlM (fun table param => table.declareParam_unlines _ param) _ _) fun _ =>
    .bind (.foldlM (fun table decl => table.declareDecl_unlines _ decl) _ _) fun _ => .ok _

end Table

namespace Checker

variable {α β γ δ : Type}

/-- Work of the check that is alike in the same sense: it also leaves the same behind. -/
def Unlines (shape : α → β) (work : Check α) (work' : Check β) : Prop :=
  ∀ checker, (∃ a after, work checker = .ok a after ∧ work' checker = .ok (shape a) after) ∨
    ∃ error error' after, work checker = .error error after ∧
      work' checker = .error error' after ∧ error.unlined = error'.unlined

theorem Unlines.bind {shape : α → β} {shape' : γ → δ} {work : Check α} {work' : Check β}
    {next : α → Check γ} {next' : β → Check δ} (first : Unlines shape work work')
    (second : ∀ a, Unlines shape' (next a) (next' (shape a))) :
    Unlines shape' (work >>= next) (work' >>= next') := by
  intro checker
  rcases first checker with
    ⟨a, after, worked, worked'⟩ | ⟨error, error', after, failed, failed', same⟩
  · rw [run_bind_of_ok worked, run_bind_of_ok worked']
    exact second a after
  · rw [run_bind_of_error failed, run_bind_of_error failed']
    exact .inr ⟨error, error', after, rfl, rfl, same⟩

theorem unlines_lift {shape : α → β} {outcome : Except CompileError α}
    {outcome' : Except CompileError β} (alike : Wordlang.Unlines shape outcome outcome') :
    Unlines shape (lift outcome) (lift outcome') := by
  intro checker
  cases alike with
  | ok a => exact .inl ⟨a, checker, rfl, rfl⟩
  | error same => exact .inr ⟨_, _, checker, rfl, rfl, same⟩

theorem unlines_of_ok {work : Check α}
    (succeeds : ∀ checker, ∃ a after, work checker = .ok a after) : Unlines id work work := by
  intro checker
  obtain ⟨a, after, worked⟩ := succeeds checker
  exact .inl ⟨a, after, worked, worked⟩

private theorem unlines_func (f : Func) : Unlines Func.unlined (func f) (func f.unlined) := by
  refine .bind (unlines_of_ok fun checker => ⟨checker, checker, rfl⟩) fun checker => ?_
  refine .bind (unlines_lift (checker.table.declareLocals_unlines f)) fun (scope, table) => ?_
  refine .bind (unlines_of_ok fun _ => ⟨(), _, rfl⟩) fun _ => ?_
  refine .bind (unlines_lift (f.check_unlines (table.lookup scope))) fun _ => ?_
  exact .bind (unlines_of_ok fun _ => ⟨(), _, rfl⟩) fun _ checker => .inl ⟨_, checker, rfl, rfl⟩

private theorem unlines_funcs (funcs : List Func) :
    Unlines (List.map Func.unlined) (Checker.funcs funcs)
      (Checker.funcs (funcs.map Func.unlined)) := by
  induction funcs with
  | nil => exact fun checker => .inl ⟨[], checker, rfl, rfl⟩
  | cons f rest ih =>
      exact .bind (unlines_func f) fun _ => .bind ih fun _ checker => .inl ⟨_, checker, rfl, rfl⟩

theorem unlines_program (program : Program) :
    Unlines (List.map Func.unlined) (Checker.program program)
      (Checker.program (program.map Func.unlined)) := by
  refine .bind (unlines_of_ok fun checker => ⟨checker, checker, rfl⟩) fun checker => ?_
  refine .bind (unlines_lift (checker.table.declareFuncs_unlines program)) fun table => ?_
  exact .bind (unlines_of_ok fun _ => ⟨(), _, rfl⟩) fun _ => unlines_funcs program

end Checker

private theorem checkProgram_unlines (program : Program) :
    Unlines (fun (checked, table) => (checked.map Func.unlined, table))
      (checkProgram program).result (checkProgram (program.map Func.unlined)).result := by
  unfold checkProgram Program.check
  rcases Checker.unlines_program program { table := .empty } with
    ⟨checked, checker, passed, passed'⟩ | ⟨error, error', checker, failed, failed', same⟩
  · simp only [EStateM.run, passed, passed']
    exact .ok (checked, checker.table)
  · simp only [EStateM.run, failed, failed']
    exact .error same

@[simp] theorem Node.id_unlined (node : Node) : node.unlined.id = node.id := rfl

@[simp] theorem Expr.id_unlined (e : Expr) : e.unlined.id = e.id := by
  cases e <;> rfl

theorem Expr.walk_unlined (state : State) (e : Expr) : e.unlined.walk state = e.walk state := by
  induction e with
  | int | bool | var => rfl
  | index _ _ _ ih => rw [unlined, walk, walk, ih, Node.id_unlined]
  | unary _ _ _ ih => rw [unlined, walk, walk, ih, Node.id_unlined]
  | binary _ _ _ _ left right => rw [unlined, walk, walk, left, right, Node.id_unlined]

theorem Expr.walkAll_unlined (state : State) (es : List Expr) :
    walkAll state (es.map unlined) = walkAll state es := by
  induction es with
  | nil => rfl
  | cons e rest ih => rw [List.map_cons, walkAll, walkAll, e.walk_unlined, ih]

theorem Flow.untilStable_unlined (body : State → Walk State) (cond : Expr) (fuel pass : Nat)
    (state : State) : untilStable body cond.unlined fuel pass state =
      untilStable body cond fuel pass state := by
  induction fuel generalizing pass state with
  | zero => rfl
  | succ fuel ih => simp only [untilStable, cond.walk_unlined, ih]

mutual

theorem Stmt.targets_unlined (stmt : Stmt) : stmt.unlined.targets = stmt.targets := by
  cases stmt with
  | assign | assignIndex | call | callIndex => rfl
  | when _ body => exact targetsAll_unlined body
  | choose _ thens elses =>
      rw [unlined, targets, targets, targetsAll_unlined thens, targetsAll_unlined elses]
  | loop _ body => exact targetsAll_unlined body
  | block body => exact targetsAll_unlined body

theorem Stmt.targetsAll_unlined (stmts : List Stmt) :
    targetsAll (unlinedAll stmts) = targetsAll stmts := by
  cases stmts with
  | nil => rfl
  | cons stmt rest =>
      rw [unlinedAll, targetsAll, targetsAll, targets_unlined stmt, targetsAll_unlined rest]

end

mutual

theorem Stmt.walk_unlined (stmt : Stmt) (state : State) :
    stmt.unlined.walk state = stmt.walk state := by
  cases stmt with
  | assign target value => rw [unlined, walk, walk, value.walk_unlined]
  | assignIndex target index value =>
      rw [unlined, walk, walk, index.walk_unlined, value.walk_unlined]
  | call line target callee args => rw [unlined, walk, walk, Expr.walkAll_unlined]
  | callIndex line target index callee args =>
      rw [unlined, walk, walk, index.walk_unlined, Expr.walkAll_unlined]
  | when cond body =>
      simp only [unlined, walk, cond.walk_unlined, walkAll_unlined body state]
  | choose cond thens elses =>
      simp only [unlined, walk, cond.walk_unlined, walkAll_unlined thens state,
        walkAll_unlined elses state]
  | loop cond body =>
      have same : walkAll (unlinedAll body) = walkAll body := funext (walkAll_unlined body)
      simp only [unlined, walk, cond.walk_unlined, same, targetsAll_unlined body,
        Flow.untilStable_unlined]
  | block body => exact walkAll_unlined body state

theorem Stmt.walkAll_unlined (stmts : List Stmt) (state : State) :
    walkAll (unlinedAll stmts) state = walkAll stmts state := by
  cases stmts with
  | nil => rfl
  | cons stmt rest =>
      rw [unlinedAll, walkAll, walkAll, walk_unlined stmt]
      exact congrArg _ (funext (walkAll_unlined rest))

end

theorem Func.walk_unlined (func : Func) : func.unlined.walk = func.walk := by
  have entry : func.unlined.entryState = func.entryState := by
    simp only [entryState, typing, unlined, List.map_map, List.flatMap_map]
    rfl
  rw [walk, entry, unlined, ← Stmt.unlinedAll_eq_map, Stmt.walkAll_unlined]
  simp only [walk, Expr.walk_unlined]

theorem Program.flow_unlined (program : Program) :
    flow (program.map Func.unlined) = flow program := by
  have walks : walk (program.map Func.unlined) = walk program := by
    induction program with
    | nil => rfl
    | cons func rest ih => rw [List.map_cons, walk, walk, func.walk_unlined, ih]
  rw [flow, flow, walks]

namespace Asm

variable (ctx : Context)

@[simp] theorem Context.known_unlined (e : Expr) : ctx.known e.unlined = ctx.known e := by
  rw [known, known, Expr.id_unlined]

theorem exprCode_unlined (e : Expr) (place : Place) :
    exprCode ctx e.unlined place = exprCode ctx e place := by
  have known := ctx.known_unlined e
  induction e generalizing place with
  | int node value =>
      rw [exprCode.eq_def, known, exprCode.eq_def ctx (.int _ _)]
      rfl
  | bool node value =>
      rw [exprCode.eq_def, known, exprCode.eq_def ctx (.bool _ _)]
      rfl
  | var node name =>
      rw [exprCode.eq_def, known, exprCode.eq_def ctx (.var _ _)]
      rfl
  | index node name index ih =>
      rw [exprCode.eq_def, known, exprCode.eq_def ctx (.index _ _ _)]
      simp only [Expr.unlined, ctx.known_unlined, ih _ (ctx.known_unlined index)]
  | unary node op operand ih =>
      rw [exprCode.eq_def, known, exprCode.eq_def ctx (.unary _ _ _)]
      simp only [Expr.unlined, ih _ (ctx.known_unlined operand)]
  | binary node op left right ihLeft ihRight =>
      rw [exprCode.eq_def, known, exprCode.eq_def ctx (.binary _ _ _ _)]
      simp only [Expr.unlined, ctx.known_unlined, ihLeft _ (ctx.known_unlined left),
        ihRight _ (ctx.known_unlined right)]

theorem conditionCode_unlined (cond : Expr) :
    conditionCode ctx cond.unlined = conditionCode ctx cond := by
  rw [conditionCode, exprCode_unlined, conditionCode]

private theorem argsCode_unlined (args : List Expr) :
    argsCode ctx (args.map Expr.unlined) = argsCode ctx args := by
  induction args with
  | nil => rfl
  | cons arg rest ih => rw [List.map_cons, argsCode, argsCode, ih, exprCode_unlined]

theorem callCode_unlined (callee : String) (args : List Expr) :
    callCode ctx callee (args.map Expr.unlined) = callCode ctx callee args := by
  rw [callCode, callCode, argsCode_unlined]

private theorem assignCode_unlined (slot : Address) (value : Expr) :
    assignCode ctx slot value.unlined = assignCode ctx slot value := by
  rw [assignCode, assignCode, Context.known_unlined, exprCode_unlined]

private theorem assignIndexCode_unlined (symbol : Symbol) (index value : Expr) :
    assignIndexCode ctx symbol index.unlined value.unlined =
      assignIndexCode ctx symbol index value := by
  simp only [assignIndexCode, Context.known_unlined, exprCode_unlined]

private theorem callIndexCode_unlined (symbol : Symbol) (index : Expr) (callee : String)
    (args : List Expr) : callIndexCode ctx symbol index.unlined callee (args.map Expr.unlined) =
      callIndexCode ctx symbol index callee args := by
  simp only [callIndexCode, Context.known_unlined, exprCode_unlined, callCode_unlined,
    List.length_map]

mutual

theorem stmtCode_unlined (stmt : Stmt) : stmtCode ctx stmt.unlined = stmtCode ctx stmt := by
  cases stmt with
  | assign target value => simp only [Stmt.unlined, stmtCode, assignCode_unlined]
  | assignIndex target index value =>
      simp only [Stmt.unlined, stmtCode, assignIndexCode_unlined]
  | call line target callee args =>
      simp only [Stmt.unlined, stmtCode, callCode_unlined, List.length_map]
  | callIndex line target index callee args =>
      simp only [Stmt.unlined, stmtCode, callIndexCode_unlined]
  | when cond body =>
      simp only [Stmt.unlined, stmtCode, Context.known_unlined, conditionCode_unlined,
        stmtsCode_unlined body]
  | choose cond thens elses =>
      simp only [Stmt.unlined, stmtCode, Context.known_unlined, conditionCode_unlined,
        stmtsCode_unlined thens, stmtsCode_unlined elses]
  | loop cond body =>
      simp only [Stmt.unlined, stmtCode, Context.known_unlined, conditionCode_unlined,
        stmtsCode_unlined body]
  | block body => exact stmtsCode_unlined body

theorem stmtsCode_unlined (stmts : List Stmt) :
    stmtsCode ctx (Stmt.unlinedAll stmts) = stmtsCode ctx stmts := by
  cases stmts with
  | nil => rfl
  | cons stmt rest =>
      rw [Stmt.unlinedAll, stmtsCode, stmtsCode, stmtCode_unlined stmt, stmtsCode_unlined rest]

end

private theorem bodyCode_unlined (func : Func) (scopeSize : Nat) :
    bodyCode ctx func.unlined scopeSize = bodyCode ctx func scopeSize := by
  rw [bodyCode, Func.unlined, ← Stmt.unlinedAll_eq_map, stmtsCode_unlined, exprCode_unlined]
  simp only [bodyCode, List.length_map]

private theorem funcsCode_unlined (options : Options) (facts : FactTable) (table : Table)
    (funcs : List Func) : funcsCode options facts table (funcs.map Func.unlined) =
      funcsCode options facts table funcs := by
  have own : ∀ func : Func, funcCode options facts table func.unlined =
      funcCode options facts table func := by
    intro func
    simp only [funcCode, bodyCode_unlined]
    rfl
  induction funcs with
  | nil => rfl
  | cons func rest ih => rw [List.map_cons, funcsCode, funcsCode, own, ih]

theorem generate_unlined (options : Options) (facts : FactTable) (table : Table)
    (program : Program) : generate options facts table (program.map Func.unlined) =
      generate options facts table program := by
  rw [generate, funcsCode_unlined, generate]

end Asm

theorem Outcome.andThen_result {α β : Type} (outcome : Outcome α) (next : α → Outcome β) :
    (outcome.andThen next).result = outcome.result >>= fun a => (next a).result := by
  unfold andThen
  cases outcome.result <;> rfl

theorem compile_eq (options : Options) (text : String) :
    compile options text = (readProgram text).result >>= compileRead options := by
  rw [compile, compileReporting, Outcome.andThen_result]
  rfl

/-- What is made of a program without its lines is like what is made of the program. -/
theorem compileRead_unlines (options : Options) (program : Program) :
    Alike (compileRead options program) (compileRead options (program.map Func.unlined)) := by
  rw [compileRead, compileRead, Outcome.andThen_result, Outcome.andThen_result]
  refine (checkProgram_unlines program).bind fun (checked, table) => ?_
  simp only [findFacts, Program.flow_unlined, generateCode, Asm.generate_unlined]
  exact .refl _

end Wordlang
