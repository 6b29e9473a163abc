import Wordlang.Asm.Expr

/-! # Code of statements

A statement leaves the stack as it found it. A body that is known not to run has
no code, and a condition that is known has none either.
-/

namespace Wordlang.Asm

/-- The flags are left so that `jne` is taken when the condition is not true. -/
def conditionCode (ctx : Context) (cond : Expr) : Gen Code := do
  return (← exprCode ctx cond .eax) ++ [.instr (.cmp (.imm 1) .eax)]

/-- Push arguments, the last one first. -/
def argsCode (ctx : Context) : List Expr → Gen Code
  | [] => return []
  | arg :: rest => do
      let later ← argsCode ctx rest
      return later ++ (← exprCode ctx arg .stack)

/-- Call a function; the arguments stay on the stack. -/
def callCode (ctx : Context) (callee : String) (args : List Expr) : Gen Code := do
  match (← ctx.find callee).params? with
  | none => throw (.inconsistent (.notFunction callee))
  | some _ =>
      return ctx.note s!"call {callee}" ++ (← argsCode ctx args) ++
        [.instr (.call (.function callee))]

/-- Give back so many bytes of the stack. -/
def release (bytes : Nat) : Code :=
  if bytes = 0 then [] else [.instr (.arith .add (.imm bytes) .esp)]

def storeEax (address : Address) : Code := [.instr (.mov .plain (.reg .eax) (.mem address))]

def storeWord (value : Word) (address : Address) : Code :=
  [.instr (.mov .long (.imm value.toInt) (.mem address))]

def assignCode (ctx : Context) (slot : Address) (value : Expr) : Gen Code :=
  match ctx.known value with
  | some v => return storeWord v slot
  | none => return (← exprCode ctx value .eax) ++ storeEax slot

def assignIndexCode (ctx : Context) (symbol : Symbol) (index value : Expr) : Gen Code :=
  match ctx.known index, ctx.known value with
  | some i, some v => return storeWord v (symbol.elementSlot i)
  | some i, none => return (← exprCode ctx value .eax) ++ storeEax (symbol.elementSlot i)
  | none, some v => return (← exprCode ctx index .ebx) ++ storeWord v symbol.indexedSlot
  | none, none => do
      let place ← exprCode ctx index .stack
      let content ← exprCode ctx value .eax
      return place ++ content ++ [.instr (.pop .ebx)] ++ storeEax symbol.indexedSlot

/-- Store the result of a call in an element. The arguments are given back first,
    so that the index is on top of the stack again. -/
def callIndexCode (ctx : Context) (symbol : Symbol) (index : Expr) (callee : String)
    (args : List Expr) : Gen Code :=
  let cleanup := release (args.length * wordSize)
  match ctx.known index with
  | some i => return (← callCode ctx callee args) ++ cleanup ++ storeEax (symbol.elementSlot i)
  | none => do
      let place ← exprCode ctx index .stack
      let call ← callCode ctx callee args
      return place ++ call ++ cleanup ++ [.instr (.pop .ebx)] ++ storeEax symbol.indexedSlot

mutual

def stmtCode (ctx : Context) : Stmt → Gen Code
  | .assign target value => do
      let slot := (← ctx.find target).slot
      return ctx.note s!"assign {target}" ++ (← assignCode ctx slot value)
  | .assignIndex target index value => do
      let symbol ← ctx.find target
      return ctx.note s!"assign {target}[]" ++ (← assignIndexCode ctx symbol index value)
  | .call _ target callee args => do
      let slot := (← ctx.find target).slot
      return (← callCode ctx callee args) ++ storeEax slot ++ release (args.length * wordSize)
  | .callIndex _ target index callee args => do
      callIndexCode ctx (← ctx.find target) index callee args
  | .when cond body =>
      match ctx.known cond with
      | some value =>
          if value = 1 then return ctx.note "if folded to true" ++ (← stmtsCode ctx body)
          else return ctx.note "if folded to false, body eliminated"
      | none => do
          let number ← newNumber
          let test ← conditionCode ctx cond
          let inner ← stmtsCode ctx body
          return test ++ [.instr (.jump .notEqual (.whenDone number))] ++ inner ++
            [.label (.whenDone number)]
  | .choose cond thens elses =>
      match ctx.known cond with
      | some value =>
          if value = 1 then return ctx.note "if/else folded to true" ++ (← stmtsCode ctx thens)
          else return ctx.note "if/else folded to false" ++ (← stmtsCode ctx elses)
      | none => do
          let elseNumber ← newNumber
          let doneNumber ← newNumber
          let test ← conditionCode ctx cond
          let first ← stmtsCode ctx thens
          let second ← stmtsCode ctx elses
          return test ++ [.instr (.jump .notEqual (.otherwise elseNumber))] ++ first ++
            [.instr (.jump .always (.chooseDone doneNumber)), .label (.otherwise elseNumber)] ++
            second ++ [.label (.chooseDone doneNumber)]
  | .loop cond body =>
      match ctx.known cond with
      | some value =>
          if value = 1 then do
            let number ← newNumber
            let inner ← stmtsCode ctx body
            return ctx.note "while folded to true" ++ [.label (.loop number)] ++ inner ++
              [.instr (.jump .always (.loop number))]
          else return ctx.note "while folded to false, loop eliminated"
      | none => do
          let number ← newNumber
          let test ← conditionCode ctx cond
          let inner ← stmtsCode ctx body
          return [.label (.loop number)] ++ test ++
            [.instr (.jump .notEqual (.loopDone number))] ++ inner ++
            [.instr (.jump .always (.loop number)), .label (.loopDone number)]
  | .block body => stmtsCode ctx body

/-- The code of statements, one after the other. -/
def stmtsCode (ctx : Context) : List Stmt → Gen Code
  | [] => return []
  | stmt :: rest => do
      let first ← stmtCode ctx stmt
      return first ++ (← stmtsCode ctx rest)

end

end Wordlang.Asm
