import Wordlang.Token.Lexeme
import Wordlang.Tree.Basic

/-! # Plain trees

A tree can be written when its names are names, its numbers have 31 bits and each declaration
declares something. Ids, lines and scopes do not matter to that.
-/

namespace Wordlang

/-- The node of an expression that was not read from a text. -/
def Node.bare : Node := { id := 0, line := 0 }

/-- An expression without ids and lines. -/
def Expr.bare : Expr → Expr
  | int _ value => int .bare value
  | bool _ value => bool .bare value
  | var _ name => var .bare name
  | index _ name element => index .bare name element.bare
  | unary _ op operand => unary .bare op operand.bare
  | binary _ op left right => binary .bare op left.bare right.bare

mutual

/-- A statement without ids and lines. -/
def Stmt.bare : Stmt → Stmt
  | .assign target value => .assign target value.bare
  | .assignIndex target index value => .assignIndex target index.bare value.bare
  | .call _ target callee args => .call 0 target callee (args.map Expr.bare)
  | .callIndex _ target index callee args =>
      .callIndex 0 target index.bare callee (args.map Expr.bare)
  | .when cond body => .when cond.bare (bareAll body)
  | .choose cond thens elses => .choose cond.bare (bareAll thens) (bareAll elses)
  | .loop cond body => .loop cond.bare (bareAll body)
  | .block body => .block (bareAll body)

/-- Statements without ids and lines. -/
def Stmt.bareAll : List Stmt → List Stmt
  | [] => []
  | stmt :: rest => stmt.bare :: bareAll rest

end

def Param.bare (param : Param) : Param := { param with line := 0 }

def Decl.bare (decl : Decl) : Decl := { decl with line := 0 }

/-- A function without ids, lines and scope. -/
def Func.bare (func : Func) : Func :=
  { name := func.name, line := 0, params := func.params.map Param.bare, returns := func.returns,
    decls := func.decls.map Decl.bare, body := Stmt.bareAll func.body, result := func.result.bare }

/-- A program without ids, lines and scopes. -/
def Program.bare (program : Program) : Program := List.map Func.bare program

theorem Stmt.bareAll_eq_map (stmts : List Stmt) : bareAll stmts = stmts.map bare := by
  induction stmts with
  | nil => rfl
  | cons stmt rest ih => rw [bareAll, List.map_cons, ih]

def Func.unscoped (func : Func) : Func := { func with scope := none }

/-- An expression of names and numbers of 31 bits. -/
def Expr.Plain : Expr → Prop
  | int _ value => value ≤ Lexeme.maxNumber
  | bool _ _ => True
  | var _ name => Lexeme.IsName name
  | index _ name element => Lexeme.IsName name ∧ element.Plain
  | unary _ _ operand => operand.Plain
  | binary _ _ left right => left.Plain ∧ right.Plain

mutual

/-- A statement of names and plain expressions. -/
def Stmt.Plain : Stmt → Prop
  | .assign target value => Lexeme.IsName target ∧ value.Plain
  | .assignIndex target index value => Lexeme.IsName target ∧ index.Plain ∧ value.Plain
  | .call _ target callee args =>
      Lexeme.IsName target ∧ Lexeme.IsName callee ∧ ∀ arg ∈ args, arg.Plain
  | .callIndex _ target index callee args =>
      Lexeme.IsName target ∧ index.Plain ∧ Lexeme.IsName callee ∧ ∀ arg ∈ args, arg.Plain
  | .when cond body => cond.Plain ∧ PlainAll body
  | .choose cond thens elses => cond.Plain ∧ PlainAll thens ∧ PlainAll elses
  | .loop cond body => cond.Plain ∧ PlainAll body
  | .block body => PlainAll body

/-- Statements of names and plain expressions. -/
def Stmt.PlainAll : List Stmt → Prop
  | [] => True
  | stmt :: rest => stmt.Plain ∧ PlainAll rest

end

/-- A type whose length is a number of 31 bits. -/
def Ty.Plain : Ty → Prop
  | intarray length => length ≤ Lexeme.maxNumber
  | _ => True

/-- A function of names, plain types, statements and result, whose declarations each declare
    something. -/
structure Func.Plain (func : Func) : Prop where
  name : Lexeme.IsName func.name
  params : ∀ param ∈ func.params, Lexeme.IsName param.name ∧ param.type.Plain
  returns : func.returns.Plain
  decls : ∀ decl ∈ func.decls,
    decl.names ≠ [] ∧ (∀ name ∈ decl.names, Lexeme.IsName name) ∧ decl.type.Plain
  body : Stmt.PlainAll func.body
  result : func.result.Plain

/-- A program of plain functions. -/
def Program.Plain (program : Program) : Prop := ∀ func ∈ program, func.Plain

end Wordlang
