import Wordlang.Proofs.Renaming.Walks

/-! # Code under other names

Where each new name stands for the place of the old one, and functions that are called stay
visible, the code is the same, comments apart.
-/

namespace Wordlang

theorem Typing.layoutFrom_renameKeys (ρ : String → String) (offset : Nat) (typing : Typing) :
    layoutFrom offset (renameKeys ρ typing) = renameKeys ρ (layoutFrom offset typing) := by
  induction typing generalizing offset with
  | nil => rfl
  | cons entry rest ih => simp only [renameKeys_cons, layoutFrom, ih]

theorem Typing.size_renameKeys (ρ : String → String) (typing : Typing) :
    size (renameKeys ρ typing) = typing.size := by
  induction typing with
  | nil => rfl
  | cons entry rest ih => simp only [renameKeys_cons, size, ih]

theorem Program.globalScope_congr {program program' : Program}
    (same : program'.map Func.signature = program.map Func.signature) :
    globalScope program' = globalScope program := by
  have symbols : ∀ program : Program, (globalScope program).symbols =
      (program.map Func.signature).map fun (name, params, returns) =>
        (name, { kind := .function params returns, offset := 0, length := 0 }) := by
    simp [globalScope, Func.signature, Function.comp_def]
  have parts : ∀ program : Program,
      globalScope program = { parent := none, symbols := (globalScope program).symbols } :=
    fun _ => rfl
  rw [parts, parts program, symbols, symbols, same]

namespace Func

variable {ρ : String → String} {program program' : Program} {func : Func} {name : String}

/-- A new name of a variable stands for what the old one stood for. -/
theorem lookup_rename (legal : func.Renaming ρ) (mem : name ∈ func.typing.map (·.1)) :
    ∃ symbol, func.lookup program name = some symbol ∧
      (func.rename ρ).lookup program' (ρ name) = some symbol := by
  have own : func.typing.scope.find? name ≠ none := fun none => Table.find?_scope.mp none mem
  obtain ⟨symbol, found⟩ := Option.ne_none_iff_exists'.mp own
  have found' : ((func.rename ρ).typing.scope.find? (ρ name)) = some symbol := by
    rw [← found, typing_rename, Scope.find?, Scope.find?, Typing.scope, Typing.scope,
      Typing.layoutFrom_renameKeys]
    refine lookup_renameKeys legal.injective ?_ mem
    rw [Typing.map_fst_layoutFrom]
    exact List.Subset.refl _
  exact ⟨symbol, by rw [lookup, found]; rfl, by rw [lookup, found']; rfl⟩

/-- A function that is called stays visible. -/
theorem lookup_callee (same : program'.map signature = program.map signature)
    (legal : func.Renaming ρ) {args : Nat} (called : name ∈ func.callees)
    (callable : func.typing.Callable program name args) :
    ∃ symbol, func.lookup program name = some symbol ∧
      (func.rename ρ).lookup program' name = some symbol := by
  obtain ⟨visible, callee, mem, rfl, -⟩ := callable
  have visible' : callee.name ∉ (func.rename ρ).typing.map (·.1) := by
    rw [typing_rename, map_fst_renameKeys]
    intro hidden
    obtain ⟨name, own, taken⟩ := List.mem_map.mp hidden
    exact legal.apart name own (taken ▸ called)
  have known : (Program.globalScope program).find? callee.name ≠ none := fun none =>
    Table.find?_globalScope.mp none (List.mem_map_of_mem mem)
  obtain ⟨symbol, found⟩ := Option.ne_none_iff_exists'.mp known
  refine ⟨symbol, ?_, ?_⟩
  · rw [lookup, Table.find?_scope.mpr visible, found]
    rfl
  · rw [lookup, Table.find?_scope.mpr visible', Program.globalScope_congr same, found]
    rfl

end Func

def Lookup.Renames (ρ : String → String) (lookup lookup' : Lookup) (names : List String) : Prop :=
  ∀ name ∈ names, ∃ symbol, lookup name = some symbol ∧ lookup' (ρ name) = some symbol

namespace Lookup.Renames

variable {ρ : String → String} {lookup lookup' : Lookup} {name : String}
  {names first second : List String}

@[simp] theorem cons_iff : Renames ρ lookup lookup' (name :: names) ↔
    (∃ symbol, lookup name = some symbol ∧ lookup' (ρ name) = some symbol) ∧
      Renames ρ lookup lookup' names :=
  List.forall_mem_cons

@[simp] theorem append_iff : Renames ρ lookup lookup' (first ++ second) ↔
    Renames ρ lookup lookup' first ∧ Renames ρ lookup lookup' second :=
  List.forall_mem_append

end Lookup.Renames

namespace Asm

section Code

variable {ρ : String → String} {ctx ctx' : Context} (options : ctx'.options = ctx.options)
  (facts : ctx'.facts = ctx.facts)

theorem Context.find_eq {name name' : String}
    (same : ∃ symbol, ctx.lookup name = some symbol ∧ ctx'.lookup name' = some symbol) :
    ctx'.find name' = ctx.find name := by
  obtain ⟨symbol, found, found'⟩ := same
  rw [find, find, found, found']

include options

theorem Context.note_eq (text : String) : ctx'.note text = ctx.note text := by
  rw [note, note, options]

private theorem unaryCode_eq (op : UnOp) : unaryCode ctx' op = unaryCode ctx op := by
  cases op <;> simp only [unaryCode, Context.note_eq options]

include facts

theorem Context.known_rename (e : Expr) : ctx'.known (e.rename ρ) = ctx.known e := by
  rw [known, known, options, facts, Expr.id_rename]

theorem exprCode_rename {e : Expr} (renames : Lookup.Renames ρ ctx.lookup ctx'.lookup e.names)
    (place : Place) : exprCode ctx' (e.rename ρ) place = exprCode ctx e place := by
  induction e generalizing place with
  | int | bool =>
      rw [exprCode.eq_def, exprCode.eq_def ctx, Context.known_rename options facts]
      rfl
  | var node name =>
      rw [exprCode.eq_def, exprCode.eq_def ctx, Context.known_rename options facts]
      simp only [Expr.rename, Context.find_eq (renames name List.mem_cons_self)]
  | index node name element ih =>
      obtain ⟨found, renames⟩ := Lookup.Renames.cons_iff.mp renames
      rw [exprCode.eq_def, exprCode.eq_def ctx, Context.known_rename options facts]
      simp only [Expr.rename, Context.find_eq found, Context.known_rename options facts, ih renames]
  | unary node op operand ih =>
      rw [exprCode.eq_def, exprCode.eq_def ctx, Context.known_rename options facts]
      simp only [Expr.rename, ih renames, unaryCode_eq options]
  | binary node op left right ihLeft ihRight =>
      obtain ⟨first, second⟩ := Lookup.Renames.append_iff.mp renames
      rw [exprCode.eq_def, exprCode.eq_def ctx, Context.known_rename options facts]
      simp only [Expr.rename, Context.known_rename options facts, ihLeft first, ihRight second,
        Context.note_eq options]

private theorem argsCode_rename {args : List Expr}
    (renames : Lookup.Renames ρ ctx.lookup ctx'.lookup (args.flatMap Expr.names)) :
    argsCode ctx' (args.map (Expr.rename ρ)) = argsCode ctx args := by
  induction args with
  | nil => rfl
  | cons arg rest ih =>
      obtain ⟨first, later⟩ := Lookup.Renames.append_iff.mp renames
      simp only [List.map_cons, argsCode, ih later, exprCode_rename options facts first]

theorem callCode_rename {callee : String} {args : List Expr}
    (same : Lookup.Renames id ctx.lookup ctx'.lookup [callee])
    (renames : Lookup.Renames ρ ctx.lookup ctx'.lookup (args.flatMap Expr.names)) :
    callCode ctx' callee (args.map (Expr.rename ρ)) = callCode ctx callee args := by
  have found : ctx'.find callee = ctx.find callee :=
    Context.find_eq (same callee (List.mem_singleton_self _))
  simp only [callCode, found, Context.note_eq options,
    argsCode_rename options facts renames]

theorem conditionCode_rename {cond : Expr}
    (renames : Lookup.Renames ρ ctx.lookup ctx'.lookup cond.names) :
    conditionCode ctx' (cond.rename ρ) = conditionCode ctx cond := by
  simp only [conditionCode, exprCode_rename options facts renames]

private theorem assignCode_rename {slot : Address} {value : Expr}
    (renames : Lookup.Renames ρ ctx.lookup ctx'.lookup value.names) :
    assignCode ctx' slot (value.rename ρ) = assignCode ctx slot value := by
  simp only [assignCode, Context.known_rename options facts,
    exprCode_rename options facts renames]

private theorem assignIndexCode_rename {symbol : Symbol} {index value : Expr}
    (first : Lookup.Renames ρ ctx.lookup ctx'.lookup index.names)
    (second : Lookup.Renames ρ ctx.lookup ctx'.lookup value.names) :
    assignIndexCode ctx' symbol (index.rename ρ) (value.rename ρ) =
      assignIndexCode ctx symbol index value := by
  simp only [assignIndexCode, Context.known_rename options facts,
    exprCode_rename options facts first, exprCode_rename options facts second]

private theorem callIndexCode_rename {symbol : Symbol} {index : Expr} {callee : String}
    {args : List Expr}
    (same : Lookup.Renames id ctx.lookup ctx'.lookup [callee])
    (first : Lookup.Renames ρ ctx.lookup ctx'.lookup index.names)
    (second : Lookup.Renames ρ ctx.lookup ctx'.lookup (args.flatMap Expr.names)) :
    callIndexCode ctx' symbol (index.rename ρ) callee (args.map (Expr.rename ρ)) =
      callIndexCode ctx symbol index callee args := by
  simp only [callIndexCode, Context.known_rename options facts, List.length_map,
    exprCode_rename options facts first, callCode_rename options facts same second]

end Code

section Statements

variable {ρ : String → String} {ctx ctx' : Context}

theorem Context.note_eq_nil (quiet : ctx.options.trace = false) (text : String) :
    ctx.note text = [] := by
  simp [note, quiet]

mutual

theorem stmtCode_rename (stmt : Stmt) (quiet : ctx.options.trace = false)
    (options : ctx'.options = ctx.options) (facts : ctx'.facts = ctx.facts)
    (callees : Lookup.Renames id ctx.lookup ctx'.lookup stmt.callees)
    (renames : Lookup.Renames ρ ctx.lookup ctx'.lookup stmt.names) :
    stmtCode ctx' (stmt.rename ρ) = stmtCode ctx stmt := by
  have note : ∀ text, ctx.note text = [] := Context.note_eq_nil quiet
  have note' : ∀ text, ctx'.note text = [] := Context.note_eq_nil (options ▸ quiet)
  cases stmt with
  | assign target value =>
      obtain ⟨found, renames⟩ := Lookup.Renames.cons_iff.mp renames
      simp only [Stmt.rename, stmtCode, Context.find_eq found, note, note',
        assignCode_rename options facts renames]
  | assignIndex target index value =>
      obtain ⟨found, renames⟩ := Lookup.Renames.cons_iff.mp renames
      obtain ⟨first, second⟩ := Lookup.Renames.append_iff.mp renames
      simp only [Stmt.rename, stmtCode, Context.find_eq found, note, note',
        assignIndexCode_rename options facts first second]
  | call line target callee args =>
      obtain ⟨found, renames⟩ := Lookup.Renames.cons_iff.mp renames
      simp only [Stmt.rename, stmtCode, Context.find_eq found, List.length_map,
        callCode_rename options facts callees renames]
  | callIndex line target index callee args =>
      obtain ⟨found, renames⟩ := Lookup.Renames.cons_iff.mp renames
      obtain ⟨first, second⟩ := Lookup.Renames.append_iff.mp renames
      simp only [Stmt.rename, stmtCode, Context.find_eq found,
        callIndexCode_rename options facts callees first second]
  | when cond body | loop cond body =>
      obtain ⟨first, second⟩ := Lookup.Renames.append_iff.mp renames
      simp only [Stmt.rename, stmtCode, Context.known_rename options facts, note, note',
        conditionCode_rename options facts first,
        stmtsCode_rename body quiet options facts callees second]
  | choose cond thens elses =>
      obtain ⟨first, second⟩ := Lookup.Renames.append_iff.mp renames
      obtain ⟨inThens, inElses⟩ := Lookup.Renames.append_iff.mp second
      obtain ⟨calleesThens, calleesElses⟩ := Lookup.Renames.append_iff.mp callees
      simp only [Stmt.rename, stmtCode, Context.known_rename options facts, note, note',
        conditionCode_rename options facts first,
        stmtsCode_rename thens quiet options facts calleesThens inThens,
        stmtsCode_rename elses quiet options facts calleesElses inElses]
  | block body =>
      simp only [Stmt.rename, stmtCode, stmtsCode_rename body quiet options facts callees renames]
termination_by sizeOf stmt

theorem stmtsCode_rename (stmts : List Stmt) (quiet : ctx.options.trace = false)
    (options : ctx'.options = ctx.options) (facts : ctx'.facts = ctx.facts)
    (callees : Lookup.Renames id ctx.lookup ctx'.lookup (Stmt.calleesAll stmts))
    (renames : Lookup.Renames ρ ctx.lookup ctx'.lookup (Stmt.namesAll stmts)) :
    stmtsCode ctx' (Stmt.renameAll ρ stmts) = stmtsCode ctx stmts := by
  cases stmts with
  | nil => rfl
  | cons stmt rest =>
      obtain ⟨first, later⟩ := Lookup.Renames.append_iff.mp renames
      obtain ⟨calleesFirst, calleesLater⟩ := Lookup.Renames.append_iff.mp callees
      simp only [Stmt.renameAll, stmtsCode,
        stmtCode_rename stmt quiet options facts calleesFirst first,
        stmtsCode_rename rest quiet options facts calleesLater later]
termination_by sizeOf stmts

end

theorem bodyCode_rename {func : Func} (quiet : ctx.options.trace = false)
    (options : ctx'.options = ctx.options) (facts : ctx'.facts = ctx.facts)
    (callees : Lookup.Renames id ctx.lookup ctx'.lookup func.callees)
    (renames : Lookup.Renames ρ ctx.lookup ctx'.lookup func.names) (size : Nat) :
    bodyCode ctx' (func.rename ρ) size = bodyCode ctx func size := by
  obtain ⟨body, result⟩ := Lookup.Renames.append_iff.mp renames
  have note : ∀ text, ctx.note text = [] := Context.note_eq_nil quiet
  have note' : ∀ text, ctx'.note text = [] := Context.note_eq_nil (options ▸ quiet)
  simp only [bodyCode, Func.rename, List.length_map, prologue, epilogue, note, note',
    stmtsCode_rename func.body quiet options facts callees body,
    exprCode_rename options facts result]

end Statements

end Asm

end Wordlang
