import Wordlang.Asm.Printer
import Wordlang.Asm.Stmt

/-! # Code of programs

A function saves registers, copies its arguments into its frame and makes room for
its variables; in the end it gives all of that back.
-/

namespace Wordlang.Asm

/-- Copy arguments from above the frame pointer into the frame. -/
def argumentsCode (params : Nat) : Code :=
  (List.range params).map fun k =>
    .instr (.push .long (.mem (.based (frameBefore + k * wordSize : Nat) .ebp)))

def entryLabels (name : String) : Code :=
  (if name = "Main" then [.label .start] else []) ++ [.label (.function name)]

def prologue (ctx : Context) (name : String) (locals params : Nat) : Code :=
  ctx.note s!"function {name}, {locals} bytes of locals, {params} params" ++
    entryLabels name ++
    [.instr (.push .plain (.reg .ebp)), .instr (.mov .plain (.reg .esp) (.reg .ebp)),
      .instr (.push .plain (.reg .ebx)), .instr (.push .plain (.reg .esi)),
      .instr (.push .plain (.reg .edi))] ++
    argumentsCode params ++
    if locals = 0 then [] else [.instr (.arith .sub (.imm locals) .esp)]

/-- The end of a function with so many bytes in its frame. -/
def epilogue (ctx : Context) (bytes : Nat) : Code :=
  ctx.note "epilogue" ++ release bytes ++
    [.instr (.pop .edi), .instr (.pop .esi), .instr (.pop .ebx), .instr .leave, .instr .ret]

/-- No function bears a name that belongs to one of the other labels. -/
def NamesApart (program : Program) : Prop :=
  ∀ func ∈ program, func.name ≠ Label.start.print ∧
    ∀ label : Label, label.isGenerated = true → func.name ≠ label.print

def bodyCode (ctx : Context) (func : Func) (scopeSize : Nat) : Gen Code := do
  let params := func.params.length
  let locals := scopeSize - params * wordSize
  let body ← stmtsCode ctx func.body
  let result ← exprCode ctx func.result .eax
  return prologue ctx func.name locals params ++ body ++ ctx.note "return" ++ result ++
    epilogue ctx (params * wordSize + locals)

def funcCode (options : Options) (facts : FactTable) (table : Table) (func : Func) : Gen Code :=
  match func.scope with
  | none => throw (.inconsistent (.noScope func.name))
  | some scope =>
      bodyCode { options, facts, lookup := table.lookup scope, scope } func
        (table.scopeSize scope)

def funcsCode (options : Options) (facts : FactTable) (table : Table) : List Func → Gen Code
  | [] => return []
  | func :: rest => do
      let first ← funcCode options facts table func
      return first ++ (← funcsCode options facts table rest)

/-- What stands before the first function. -/
def header : Code := [.text, .globl .start, .globl (.function "Main")]

/-- The code of a program, and how many label numbers it uses. -/
def generate (options : Options) (facts : FactTable) (table : Table) (program : Program) :
    Except CompileError (Code × Nat) := do
  let (code, labels) ← (funcsCode options facts table program).run 0
  return (header ++ code, labels)

end Wordlang.Asm
