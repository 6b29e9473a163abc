import Wordlang.Error
import Wordlang.Event
import Wordlang.Scope.Table

/-! # Checking of names

Every function, parameter and variable is declared, and every use of a name is
compared with its declaration. Functions are known in all bodies, also in those
before them. The first misuse ends the check.
-/

namespace Wordlang

/-- The meaning of names at one place. -/
abbrev Lookup := String → Option Symbol

namespace Lookup

def scalar (lookup : Lookup) (name : String) (line : Nat) : Except CompileError Unit :=
  match lookup name with
  | some symbol =>
      if symbol.isScalar then return () else throw (.misuse (.notScalar name) line)
  | none => throw (.misuse (.undeclaredVariable name) line)

def array (lookup : Lookup) (name : String) (line : Nat) : Except CompileError Unit :=
  match lookup name with
  | some symbol =>
      if symbol.isArray then return () else throw (.misuse (.notArray name) line)
  | none => throw (.misuse (.undeclaredVariable name) line)

/-- Refuse a name that is not a function of so many parameters. -/
def callee (lookup : Lookup) (name : String) (args line : Nat) : Except CompileError Unit :=
  match lookup name with
  | some symbol =>
      match symbol.params? with
      | some params =>
          if params = args then return () else throw (.misuse (.arity name params args) line)
      | none => throw (.misuse (.notFunction name) line)
  | none => throw (.misuse (.undeclaredFunction name) line)

end Lookup

def Expr.check (lookup : Lookup) : Expr → Except CompileError Unit
  | int _ _ => return ()
  | bool _ _ => return ()
  | var node name => lookup.scalar name node.line
  | index node name element => do
      lookup.array name node.line
      element.check lookup
  | unary _ _ operand => operand.check lookup
  | binary _ _ left right => do
      left.check lookup
      right.check lookup

def Expr.checkAll (lookup : Lookup) : List Expr → Except CompileError Unit
  | [] => return ()
  | e :: rest => do
      e.check lookup
      checkAll lookup rest

mutual

def Stmt.check (lookup : Lookup) : Stmt → Except CompileError Unit
  | .assign target value => do
      lookup.scalar target value.line
      value.check lookup
  | .assignIndex target index value => do
      lookup.array target index.line
      index.check lookup
      value.check lookup
  | .call line target callee args => do
      lookup.scalar target line
      lookup.callee callee args.length line
      Expr.checkAll lookup args
  | .callIndex line target index callee args => do
      lookup.array target line
      index.check lookup
      lookup.callee callee args.length line
      Expr.checkAll lookup args
  | .when cond body => do
      cond.check lookup
      checkAll lookup body
  | .choose cond thens elses => do
      cond.check lookup
      checkAll lookup thens
      checkAll lookup elses
  | .loop cond body => do
      cond.check lookup
      checkAll lookup body
  | .block body => checkAll lookup body

def Stmt.checkAll (lookup : Lookup) : List Stmt → Except CompileError Unit
  | [] => return ()
  | stmt :: rest => do
      stmt.check lookup
      checkAll lookup rest

end

namespace Table

def declareFuncs (table : Table) : Program → Except CompileError Table
  | [] => return table
  | func :: rest =>
      match table.declareFunc func.name func.params.length func.returns with
      | some (_, table) => table.declareFuncs rest
      | none => throw (.misuse (.functionRedefined func.name) func.line)

/-- Declare a variable, which needs at least one word. -/
def declareVar (table : Table) (scope : Nat) (name : String) (type : Ty) (line : Nat) :
    Except CompileError Table :=
  if type = .intarray 0 then throw (.misuse (.emptyArray name) line)
  else
    match table.declare scope name type with
    | some (_, table) => return table
    | none => throw (.misuse (.redeclared name) line)

/-- Declare a parameter. Arguments are passed one word each. -/
def declareParam (table : Table) (scope : Nat) (param : Param) : Except CompileError Table :=
  match param.type with
  | .intarray _ => throw (.misuse (.arrayParameter param.name) param.line)
  | type => table.declareVar scope param.name type param.line

def declareDecl (table : Table) (scope : Nat) (decl : Decl) : Except CompileError Table :=
  decl.names.foldlM (fun table name => table.declareVar scope name decl.type decl.line) table

/-- Open the scope of a function and declare its parameters and variables. -/
def declareLocals (table : Table) (func : Func) : Except CompileError (Nat × Table) := do
  let (scope, table) := table.openScope globalScope
  let table ← func.params.foldlM (fun table param => table.declareParam scope param) table
  let table ← func.decls.foldlM (fun table decl => table.declareDecl scope decl) table
  return (scope, table)

end Table

/-- Check a function whose scope is declared. -/
def Func.check (lookup : Lookup) (func : Func) : Except CompileError Unit := do
  Stmt.checkAll lookup func.body
  func.result.check lookup

/-- What checking leaves behind. -/
structure Checker where
  table : Table
  events : Array Event := #[]
  deriving Repr

/-- Work that may find a misuse; the events before it stay. -/
abbrev Check := EStateM CompileError Checker

namespace Checker

/-- Take over the outcome of work on the table. -/
def lift {α : Type} (outcome : Except CompileError α) : Check α :=
  match outcome with
  | .ok value => pure value
  | .error error => throw error

def setTable (table : Table) : Check Unit := modify fun checker => { checker with table }

def report (event : Event) : Check Unit :=
  modify fun checker => { checker with events := checker.events.push event }

def func (func : Func) : Check Func := do
  let (scope, table) ← lift ((← get).table.declareLocals func)
  setTable table
  lift (func.check (table.lookup scope))
  report (.scopeDeclared func.name scope (table.scopeSize scope))
  return { func with scope := some scope }

def funcs : List Func → Check (List Func)
  | [] => return []
  | f :: rest => do
      let checked ← func f
      return checked :: (← funcs rest)

/-- Declare and check a program; the result knows the scopes of its functions. -/
def program (program : Program) : Check Program := do
  setTable (← lift ((← get).table.declareFuncs program))
  funcs program

end Checker

def Program.check (program : Program) : EStateM.Result CompileError Checker Program :=
  (Checker.program program).run { table := .empty }

end Wordlang
