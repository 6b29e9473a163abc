import Wordlang.Tree.Basic

/-! # Names in a tree

The names of variables and arrays that a tree assigns or reads, and those of the functions
that it may call.
-/

namespace Wordlang

/-- The names of variables and arrays in an expression. -/
def Expr.names : Expr → List String
  | int _ _ => []
  | bool _ _ => []
  | var _ name => [name]
  | index _ name element => name :: element.names
  | unary _ _ operand => operand.names
  | binary _ _ left right => left.names ++ right.names

mutual

def Stmt.names : Stmt → List String
  | .assign target value => target :: value.names
  | .assignIndex target index value => target :: (index.names ++ value.names)
  | .call _ target _ args => target :: args.flatMap Expr.names
  | .callIndex _ target index _ args => target :: (index.names ++ args.flatMap Expr.names)
  | .when cond body => cond.names ++ namesAll body
  | .choose cond thens elses => cond.names ++ (namesAll thens ++ namesAll elses)
  | .loop cond body => cond.names ++ namesAll body
  | .block body => namesAll body

/-- The names that statements assign or read. -/
def Stmt.namesAll : List Stmt → List String
  | [] => []
  | stmt :: rest => stmt.names ++ namesAll rest

end

mutual

def Stmt.callees : Stmt → List String
  | .assign _ _ => []
  | .assignIndex _ _ _ => []
  | .call _ _ callee _ => [callee]
  | .callIndex _ _ _ callee _ => [callee]
  | .when _ body => calleesAll body
  | .choose _ thens elses => calleesAll thens ++ calleesAll elses
  | .loop _ body => calleesAll body
  | .block body => calleesAll body

/-- The functions that statements may call. -/
def Stmt.calleesAll : List Stmt → List String
  | [] => []
  | stmt :: rest => stmt.callees ++ calleesAll rest

end

/-- The names that a function assigns or reads. -/
def Func.names (func : Func) : List String := Stmt.namesAll func.body ++ func.result.names

/-- The functions that a function may call. -/
def Func.callees (func : Func) : List String := Stmt.calleesAll func.body

end Wordlang
