import Wordlang.Compile
import Wordlang.Proofs.Generation
import Wordlang.Proofs.Scopes
import Wordlang.Tree.Names

/-! # Acceptance by code generation

Code generation looks names up and does nothing else that can fail. What the
check accepts has a meaning for every name and a function for every callee, so
code is generated for every checked program, whatever is known about it and
whatever the options.
-/

namespace Wordlang

namespace Lookup

def Finds (lookup : Lookup) (names : List String) : Prop :=
  ∀ name ∈ names, ∃ symbol, lookup name = some symbol

def FindsFuncs (lookup : Lookup) (names : List String) : Prop :=
  ∀ name ∈ names, ∃ symbol params, lookup name = some symbol ∧ symbol.params? = some params

/-- All names of a function have a meaning, and what it calls are functions. -/
structure Resolves (lookup : Lookup) (func : Func) : Prop where
  names : lookup.Finds func.names
  callees : lookup.FindsFuncs func.callees

variable {lookup : Lookup} {name : String} {first second : List String}

@[simp] theorem finds_nil : lookup.Finds [] := by
  simp [Finds]

@[simp] theorem finds_cons : lookup.Finds (name :: first) ↔
    (∃ symbol, lookup name = some symbol) ∧ lookup.Finds first := by
  simp [Finds]

@[simp] theorem finds_append : lookup.Finds (first ++ second) ↔
    lookup.Finds first ∧ lookup.Finds second := by
  simp only [Finds, List.mem_append, or_imp, forall_and]

@[simp] theorem findsFuncs_nil : lookup.FindsFuncs [] := by
  simp [FindsFuncs]

@[simp] theorem findsFuncs_cons : lookup.FindsFuncs (name :: first) ↔
    (∃ symbol params, lookup name = some symbol ∧ symbol.params? = some params) ∧
      lookup.FindsFuncs first := by
  simp [FindsFuncs]

@[simp] theorem findsFuncs_append : lookup.FindsFuncs (first ++ second) ↔
    lookup.FindsFuncs first ∧ lookup.FindsFuncs second := by
  simp only [FindsFuncs, List.mem_append, or_imp, forall_and]

end Lookup

section Checked

variable {lookup : Lookup}

theorem Expr.finds_of_check {e : Expr} (h : e.check lookup = .ok ()) : lookup.Finds e.names := by
  induction e with
  | int | bool => exact Lookup.finds_nil
  | var =>
      obtain ⟨symbol, found, _⟩ := Lookup.scalar_eq_ok.mp h
      simp [names, found]
  | index _ _ element ih =>
      obtain ⟨_, array, h⟩ := bind_eq_ok.mp h
      obtain ⟨symbol, found, _⟩ := Lookup.array_eq_ok.mp array
      simp [names, found, ih h]
  | unary _ _ operand ih => exact ih h
  | binary _ _ left right ihl ihr =>
      obtain ⟨_, left, right⟩ := bind_eq_ok.mp h
      simp [names, ihl left, ihr right]

theorem Expr.finds_of_checkAll {es : List Expr} (h : checkAll lookup es = .ok ()) :
    lookup.Finds (es.flatMap names) := by
  induction es with
  | nil => exact Lookup.finds_nil
  | cons e rest ih =>
      obtain ⟨_, first, later⟩ := bind_eq_ok.mp h
      simp [finds_of_check first, ih later]

theorem Stmt.finds_of_checkAll {stmts : List Stmt} (h : checkAll lookup stmts = .ok ()) :
    lookup.Finds (namesAll stmts) ∧ lookup.FindsFuncs (calleesAll stmts) := by
  cases stmts with
  | nil => exact ⟨Lookup.finds_nil, Lookup.findsFuncs_nil⟩
  | cons stmt rest =>
      rw [checkAll] at h
      obtain ⟨_, first, later⟩ := bind_eq_ok.mp h
      obtain ⟨names, callees⟩ := finds_of_checkAll later
      cases stmt with
      | assign target value =>
          rw [check] at first
          obtain ⟨_, scalar, value⟩ := bind_eq_ok.mp first
          obtain ⟨symbol, found, _⟩ := Lookup.scalar_eq_ok.mp scalar
          simp [namesAll, Stmt.names, calleesAll, Stmt.callees, found, names, callees,
            Expr.finds_of_check value]
      | assignIndex target index value =>
          rw [check] at first
          obtain ⟨_, array, first⟩ := bind_eq_ok.mp first
          obtain ⟨_, index, value⟩ := bind_eq_ok.mp first
          obtain ⟨symbol, found, _⟩ := Lookup.array_eq_ok.mp array
          simp [namesAll, Stmt.names, calleesAll, Stmt.callees, found, names, callees,
            Expr.finds_of_check index, Expr.finds_of_check value]
      | call line target callee args =>
          rw [check] at first
          obtain ⟨_, scalar, first⟩ := bind_eq_ok.mp first
          obtain ⟨_, func, args⟩ := bind_eq_ok.mp first
          obtain ⟨symbol, found, _⟩ := Lookup.scalar_eq_ok.mp scalar
          obtain ⟨symbol', found', params⟩ := Lookup.callee_eq_ok.mp func
          simp [namesAll, Stmt.names, calleesAll, Stmt.callees, found, names, callees, found',
            params, Expr.finds_of_checkAll args]
      | callIndex line target index callee args =>
          rw [check] at first
          obtain ⟨_, array, first⟩ := bind_eq_ok.mp first
          obtain ⟨_, index, first⟩ := bind_eq_ok.mp first
          obtain ⟨_, func, args⟩ := bind_eq_ok.mp first
          obtain ⟨symbol, found, _⟩ := Lookup.array_eq_ok.mp array
          obtain ⟨symbol', found', params⟩ := Lookup.callee_eq_ok.mp func
          simp [namesAll, Stmt.names, calleesAll, Stmt.callees, found, names, callees, found',
            params, Expr.finds_of_check index, Expr.finds_of_checkAll args]
      | when cond body | loop cond body =>
          rw [check] at first
          obtain ⟨_, cond, body⟩ := bind_eq_ok.mp first
          obtain ⟨inNames, inCallees⟩ := finds_of_checkAll body
          simp [namesAll, Stmt.names, calleesAll, Stmt.callees, names, callees, inNames, inCallees,
            Expr.finds_of_check cond]
      | choose cond thens elses =>
          rw [check] at first
          obtain ⟨_, cond, first⟩ := bind_eq_ok.mp first
          obtain ⟨_, thens, elses⟩ := bind_eq_ok.mp first
          obtain ⟨thenNames, thenCallees⟩ := finds_of_checkAll thens
          obtain ⟨elseNames, elseCallees⟩ := finds_of_checkAll elses
          simp [namesAll, Stmt.names, calleesAll, Stmt.callees, names, callees, thenNames,
            thenCallees, elseNames, elseCallees, Expr.finds_of_check cond]
      | block body =>
          rw [check] at first
          obtain ⟨inNames, inCallees⟩ := finds_of_checkAll first
          simp [namesAll, Stmt.names, calleesAll, Stmt.callees, names, callees, inNames, inCallees]
termination_by sizeOf stmts

theorem Func.resolves_of_check {func : Func} (checked : func.check lookup = .ok ()) :
    lookup.Resolves func := by
  obtain ⟨_, body, result⟩ := bind_eq_ok.mp checked
  obtain ⟨finds, funcs⟩ := Stmt.finds_of_checkAll body
  exact ⟨Lookup.finds_append.mpr ⟨finds, Expr.finds_of_check result⟩, funcs⟩

end Checked

namespace Asm

/-- Code generation succeeds, whatever the number of the next label. -/
def Gen.Succeeds {α : Type} (gen : Gen α) : Prop := ∀ n, ∃ a n', gen.Makes n a n'

namespace Gen.Succeeds

variable {α β : Type}

theorem pure (a : α) : (Pure.pure a : Gen α).Succeeds :=
  fun n => ⟨a, n, (makes_pure a a n n).mpr ⟨rfl, rfl⟩⟩

theorem bind {gen : Gen α} {next : α → Gen β} (first : gen.Succeeds)
    (later : ∀ a, (next a).Succeeds) : (gen >>= next).Succeeds := by
  intro n
  obtain ⟨a, n₁, made⟩ := first n
  obtain ⟨b, n', rest⟩ := later a n₁
  exact ⟨b, n', (makes_bind gen next n b n').mpr ⟨a, n₁, made, rest⟩⟩

theorem newNumber : Asm.newNumber.Succeeds :=
  fun n => ⟨n, n + 1, (makes_newNumber n n (n + 1)).mpr ⟨rfl, rfl⟩⟩

theorem find {ctx : Context} {name : String} {symbol : Symbol} {next : Symbol → Gen β}
    (found : ctx.lookup name = some symbol) (later : (next symbol).Succeeds) :
    (ctx.find name >>= next).Succeeds := by
  intro n
  obtain ⟨b, n', made⟩ := later n
  exact ⟨b, n', (makes_bind _ next n b n').mpr
    ⟨symbol, n, (makes_find ctx name n symbol n).mpr ⟨found, rfl⟩, made⟩⟩

end Gen.Succeeds

section Generated

variable {ctx : Context}

private theorem binaryCode_succeeds (op : BinOp) : (binaryCode op).Succeeds := by
  cases op with
  | plus | minus | times | div | and | or => exact .pure _
  | _ => exact .bind .newNumber fun _ => .pure _

theorem resultCode_succeeds (op : BinOp) (total : Address) (place : Place) :
    (resultCode op total place).Succeeds := by
  unfold resultCode
  split
  · exact .pure _
  · exact .bind (binaryCode_succeeds op) fun _ => .pure _

theorem exprCode_succeeds {e : Expr} (finds : ctx.lookup.Finds e.names) (place : Place) :
    (exprCode ctx e place).Succeeds := by
  induction e generalizing place with
  | int | bool =>
      rw [exprCode.eq_def]
      split
      · exact .pure _
      · exact .pure _
  | var _ name =>
      obtain ⟨⟨symbol, found⟩, _⟩ := Lookup.finds_cons.mp finds
      rw [exprCode.eq_def]
      split
      · exact .pure _
      · exact .find found (.pure _)
  | index _ name element ih =>
      obtain ⟨⟨symbol, found⟩, inner⟩ := Lookup.finds_cons.mp finds
      rw [exprCode.eq_def]
      split
      · exact .pure _
      · refine .find found ?_
        split
        · exact .pure _
        · exact .bind (ih inner _) fun _ => .pure _
  | unary _ op operand ih =>
      rw [exprCode.eq_def]
      split
      · exact .pure _
      · exact .bind (ih finds _) fun _ => .pure _
  | binary _ op left right ihl ihr =>
      obtain ⟨findsLeft, findsRight⟩ := Lookup.finds_append.mp finds
      rw [exprCode.eq_def]
      split
      · exact .pure _
      · simp only
        split
        · exact .bind (ihr findsRight _) fun _ => .bind (resultCode_succeeds _ _ _) fun _ => .pure _
        · exact .bind (ihl findsLeft _) fun _ => .bind (resultCode_succeeds _ _ _) fun _ => .pure _
        · exact .bind (ihr findsRight _) fun _ => .bind (ihl findsLeft _) fun _ =>
            .bind (resultCode_succeeds _ _ _) fun _ => .pure _

theorem conditionCode_succeeds {cond : Expr} (finds : ctx.lookup.Finds cond.names) :
    (conditionCode ctx cond).Succeeds :=
  .bind (exprCode_succeeds finds _) fun _ => .pure _

private theorem argsCode_succeeds {args : List Expr}
    (finds : ctx.lookup.Finds (args.flatMap Expr.names)) :
    (argsCode ctx args).Succeeds := by
  induction args with
  | nil => exact .pure _
  | cons arg rest ih =>
      obtain ⟨first, later⟩ := Lookup.finds_append.mp finds
      exact .bind (ih later) fun _ => .bind (exprCode_succeeds first _) fun _ => .pure _

theorem callCode_succeeds {callee : String} {args : List Expr}
    (func : ctx.lookup.FindsFuncs [callee])
    (finds : ctx.lookup.Finds (args.flatMap Expr.names)) : (callCode ctx callee args).Succeeds := by
  obtain ⟨⟨symbol, params, found, isFunc⟩, _⟩ := Lookup.findsFuncs_cons.mp func
  refine .find found ?_
  simp only [isFunc]
  exact .bind (argsCode_succeeds finds) fun _ => .pure _

private theorem assignCode_succeeds {slot : Address} {value : Expr}
    (finds : ctx.lookup.Finds value.names) :
    (assignCode ctx slot value).Succeeds := by
  unfold assignCode
  split
  · exact .pure _
  · exact .bind (exprCode_succeeds finds _) fun _ => .pure _

private theorem assignIndexCode_succeeds {symbol : Symbol} {index value : Expr}
    (findsIndex : ctx.lookup.Finds index.names) (findsValue : ctx.lookup.Finds value.names) :
    (assignIndexCode ctx symbol index value).Succeeds := by
  unfold assignIndexCode
  split
  · exact .pure _
  · exact .bind (exprCode_succeeds findsValue _) fun _ => .pure _
  · exact .bind (exprCode_succeeds findsIndex _) fun _ => .pure _
  · exact .bind (exprCode_succeeds findsIndex _) fun _ =>
      .bind (exprCode_succeeds findsValue _) fun _ => .pure _

private theorem callIndexCode_succeeds {symbol : Symbol} {index : Expr} {callee : String}
    {args : List Expr} (findsIndex : ctx.lookup.Finds index.names)
    (func : ctx.lookup.FindsFuncs [callee]) (finds : ctx.lookup.Finds (args.flatMap Expr.names)) :
    (callIndexCode ctx symbol index callee args).Succeeds := by
  unfold callIndexCode
  split
  · exact .bind (callCode_succeeds func finds) fun _ => .pure _
  · exact .bind (exprCode_succeeds findsIndex _) fun _ =>
      .bind (callCode_succeeds func finds) fun _ => .pure _

theorem stmtsCode_succeeds {stmts : List Stmt} (finds : ctx.lookup.Finds (Stmt.namesAll stmts))
    (funcs : ctx.lookup.FindsFuncs (Stmt.calleesAll stmts)) : (stmtsCode ctx stmts).Succeeds := by
  cases stmts with
  | nil =>
      rw [stmtsCode]
      exact .pure _
  | cons stmt rest =>
      obtain ⟨finds, findsRest⟩ := Lookup.finds_append.mp finds
      obtain ⟨funcs, funcsRest⟩ := Lookup.findsFuncs_append.mp funcs
      rw [stmtsCode]
      refine .bind ?_ fun _ => .bind (stmtsCode_succeeds findsRest funcsRest) fun _ => .pure _
      cases stmt with
      | assign target value =>
          obtain ⟨⟨symbol, found⟩, finds⟩ := Lookup.finds_cons.mp finds
          rw [stmtCode]
          exact .find found (.bind (assignCode_succeeds finds) fun _ => .pure _)
      | assignIndex target index value =>
          obtain ⟨⟨symbol, found⟩, finds⟩ := Lookup.finds_cons.mp finds
          obtain ⟨findsIndex, findsValue⟩ := Lookup.finds_append.mp finds
          rw [stmtCode]
          exact .find found
            (.bind (assignIndexCode_succeeds findsIndex findsValue) fun _ => .pure _)
      | call line target callee args =>
          obtain ⟨⟨symbol, found⟩, finds⟩ := Lookup.finds_cons.mp finds
          rw [stmtCode]
          exact .find found (.bind (callCode_succeeds funcs finds) fun _ => .pure _)
      | callIndex line target index callee args =>
          obtain ⟨⟨symbol, found⟩, finds⟩ := Lookup.finds_cons.mp finds
          obtain ⟨findsIndex, findsArgs⟩ := Lookup.finds_append.mp finds
          rw [stmtCode]
          exact .find found (callIndexCode_succeeds findsIndex funcs findsArgs)
      | when cond body =>
          obtain ⟨findsCond, findsBody⟩ := Lookup.finds_append.mp finds
          have inner := stmtsCode_succeeds findsBody funcs
          rw [stmtCode]
          split
          · split
            · exact .bind inner fun _ => .pure _
            · exact .pure _
          · exact .bind .newNumber fun _ => .bind (conditionCode_succeeds findsCond) fun _ =>
              .bind inner fun _ => .pure _
      | choose cond thens elses =>
          obtain ⟨findsCond, finds⟩ := Lookup.finds_append.mp finds
          obtain ⟨findsThens, findsElses⟩ := Lookup.finds_append.mp finds
          obtain ⟨funcsThens, funcsElses⟩ := Lookup.findsFuncs_append.mp funcs
          have first := stmtsCode_succeeds findsThens funcsThens
          have second := stmtsCode_succeeds findsElses funcsElses
          rw [stmtCode]
          split
          · split
            · exact .bind first fun _ => .pure _
            · exact .bind second fun _ => .pure _
          · exact .bind .newNumber fun _ => .bind .newNumber fun _ =>
              .bind (conditionCode_succeeds findsCond) fun _ => .bind first fun _ =>
                .bind second fun _ => .pure _
      | loop cond body =>
          obtain ⟨findsCond, findsBody⟩ := Lookup.finds_append.mp finds
          have inner := stmtsCode_succeeds findsBody funcs
          rw [stmtCode]
          split
          · split
            · exact .bind .newNumber fun _ => .bind inner fun _ => .pure _
            · exact .pure _
          · exact .bind .newNumber fun _ => .bind (conditionCode_succeeds findsCond) fun _ =>
              .bind inner fun _ => .pure _
      | block body =>
          rw [stmtCode]
          exact stmtsCode_succeeds finds funcs
termination_by sizeOf stmts

theorem bodyCode_succeeds {func : Func} (size : Nat) (resolves : ctx.lookup.Resolves func) :
    (bodyCode ctx func size).Succeeds := by
  obtain ⟨body, result⟩ := Lookup.finds_append.mp resolves.names
  exact .bind (stmtsCode_succeeds body resolves.callees) fun _ =>
    .bind (exprCode_succeeds result _) fun _ => .pure _

end Generated

section Functions

variable {options : Options} {facts : FactTable} {table : Table}

private theorem funcsCode_succeeds {funcs : List Func}
    (resolves : ∀ func ∈ funcs, ∃ scope, func.scope = some scope ∧
      Lookup.Resolves (table.lookup scope) func) :
    (funcsCode options facts table funcs).Succeeds := by
  induction funcs with
  | nil => exact .pure _
  | cons func rest ih =>
      obtain ⟨⟨scope, known, first⟩, later⟩ := List.forall_mem_cons.mp resolves
      refine .bind ?_ fun _ => .bind (ih later) fun _ => .pure _
      rw [funcCode, known]
      exact bodyCode_succeeds _ first

/-- Code is generated for functions whose names all have a meaning. -/
theorem generate_of_resolves {program : Program}
    (resolves : ∀ func ∈ program, ∃ scope, func.scope = some scope ∧
      Lookup.Resolves (table.lookup scope) func) :
    ∃ code labels, generate options facts table program = .ok (code, labels) := by
  have succeeds : (funcsCode options facts table program).Succeeds := funcsCode_succeeds resolves
  obtain ⟨body, labels, made⟩ := succeeds 0
  refine ⟨header ++ body, labels, ?_⟩
  rw [generate, made]
  rfl

end Functions

/-- Code is generated for a checked program, whatever the options and the facts. -/
theorem generate_succeeds {program checked : Program} {checker : Checker}
    (h : program.check = .ok checked checker) (options : Options) (facts : FactTable) :
    ∃ code labels, generate options facts checker.table checked = .ok (code, labels) := by
  obtain ⟨-, rfl, table, checks⟩ := Program.check_eq_ok h
  refine generate_of_resolves fun func mem => ?_
  obtain ⟨original, inProgram, scope, rfl, lookup, -⟩ := Program.mem_withScopes mem
  refine ⟨scope, rfl, Func.resolves_of_check ?_⟩
  rw [table, lookup]
  exact (checks original inProgram).names

end Asm

theorem Outcome.andThen_eq_ok {α β : Type} {outcome : Outcome α} {next : α → Outcome β} {b : β} :
    (outcome.andThen next).result = .ok b ↔
      ∃ a, outcome.result = .ok a ∧ (next a).result = .ok b := by
  unfold andThen
  cases outcome.result <;> simp

theorem checkProgram_eq_ok {program checked : Program} {table : Table} :
    (checkProgram program).result = .ok (checked, table) ↔
      ∃ checker, program.check = .ok checked checker ∧ checker.table = table := by
  unfold checkProgram
  cases program.check with
  | error => simp
  | ok checked' checker => simp [Prod.ext_iff, and_assoc]

theorem findFacts_result (options : Options) (program : Program) :
    (findFacts options program).result =
      .ok (if options.folding then (Program.flow program).table else .empty) := by
  unfold findFacts
  split <;> rfl

theorem generateCode_eq_ok {options : Options} {facts : FactTable} {table : Table}
    {program : Program} {code : Asm.Code} :
    (generateCode options facts table program).result = .ok code ↔
      ∃ labels, Asm.generate options facts table program = .ok (code, labels) := by
  unfold generateCode
  cases Asm.generate options facts table program with
  | error => simp
  | ok made => simp [Prod.ext_iff]

/-- A text is compiled when it is a program that passes the check and code is generated
    from what is found out about it. -/
theorem compile_eq_ok {options : Options} {text : String} {code : Asm.Code} :
    compile options text = .ok code ↔ ∃ program checked checker labels,
      (readProgram text).result = .ok program ∧ program.check = .ok checked checker ∧
        Asm.generate options (if options.folding then (Program.flow checked).table else .empty)
          checker.table checked = .ok (code, labels) := by
  simp only [compile, compileReporting, Outcome.andThen_eq_ok, Prod.exists, checkProgram_eq_ok,
    findFacts_result, generateCode_eq_ok, Except.ok.injEq]
  constructor
  · rintro ⟨program, read, checked, _, ⟨checker, passed, rfl⟩, _, rfl, labels, made⟩
    exact ⟨program, checked, checker, labels, read, passed, made⟩
  · rintro ⟨program, checked, checker, labels, read, passed, made⟩
    exact ⟨program, read, checked, _, ⟨checker, passed, rfl⟩, _, rfl, labels, made⟩

end Wordlang
