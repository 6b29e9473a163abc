import Wordlang.Operator

/-! # Program trees

A program is a list of functions. A function declares parameters and variables,
runs statements and returns the value of one expression. Every expression node
carries an id, by which facts about it are kept, and a line.
-/

namespace Wordlang

/-- What an expression node carries beside its meaning. -/
structure Node where
  /-- Tells the node from all others of the program. -/
  id : Nat
  line : Nat
  deriving Repr, DecidableEq

/-- An expression. -/
inductive Expr where
  | int (node : Node) (value : Nat)
  | bool (node : Node) (value : Bool)
  | var (node : Node) (name : String)
  /-- An element of an array. -/
  | index (node : Node) (name : String) (index : Expr)
  | unary (node : Node) (op : UnOp) (operand : Expr)
  | binary (node : Node) (op : BinOp) (left right : Expr)
  deriving Repr, DecidableEq

/-- A statement. Calls stand on the right of an assignment and nowhere else. -/
inductive Stmt where
  | assign (target : String) (value : Expr)
  | assignIndex (target : String) (index value : Expr)
  | call (line : Nat) (target callee : String) (args : List Expr)
  | callIndex (line : Nat) (target : String) (index : Expr) (callee : String) (args : List Expr)
  /-- A choice without an alternative. -/
  | when (cond : Expr) (body : List Stmt)
  /-- A choice between two bodies. -/
  | choose (cond : Expr) (thens elses : List Stmt)
  | loop (cond : Expr) (body : List Stmt)
  | block (body : List Stmt)
  deriving Repr

/-- The type of a variable, a parameter or a result. -/
inductive Ty where
  | int
  | bool
  | intarray (length : Nat)
  deriving Repr, DecidableEq

/-- A parameter of a function. -/
structure Param where
  name : String
  type : Ty
  line : Nat
  deriving Repr, DecidableEq

/-- A declaration of variables of one type. -/
structure Decl where
  names : List String
  type : Ty
  line : Nat
  deriving Repr, DecidableEq

/-- A function. -/
structure Func where
  name : String
  line : Nat
  params : List Param
  /-- The declared type of the result. -/
  returns : Ty
  decls : List Decl
  body : List Stmt
  /-- The expression that the function returns behind its body. -/
  result : Expr
  /-- The scope of its parameters and variables, once it is known. -/
  scope : Option Nat := none
  deriving Repr

/-- A program: its functions in the order in which they are written. -/
abbrev Program := List Func

abbrev Typing := List (String × Ty)

/-- The parameters and variables of a function, in the order of their declaration. -/
def Func.typing (func : Func) : Typing :=
  (func.params.map fun param => (param.name, param.type)) ++
    func.decls.flatMap fun decl => decl.names.map fun name => (name, decl.type)

namespace Expr

def node : Expr → Node
  | int node _ => node
  | bool node _ => node
  | var node _ => node
  | index node _ _ => node
  | unary node _ _ => node
  | binary node _ _ _ => node

def id (e : Expr) : Nat := e.node.id

def line (e : Expr) : Nat := e.node.line

/-- All expressions in an expression, itself included, operands before operators. -/
def parts : Expr → List Expr
  | e@(int _ _) => [e]
  | e@(bool _ _) => [e]
  | e@(var _ _) => [e]
  | e@(index _ _ element) => element.parts ++ [e]
  | e@(unary _ _ operand) => operand.parts ++ [e]
  | e@(binary _ _ left right) => left.parts ++ right.parts ++ [e]

theorem mem_parts (e : Expr) : e ∈ e.parts := by
  cases e <;> simp [parts]

def ids (e : Expr) : List Nat := e.parts.map id

end Expr

mutual

/-- The expressions that stand in a statement, each as a whole. -/
def Stmt.exprs : Stmt → List Expr
  | .assign _ value => [value]
  | .assignIndex _ index value => [index, value]
  | .call _ _ _ args => args
  | .callIndex _ _ index _ args => index :: args
  | .when cond body => cond :: exprsAll body
  | .choose cond thens elses => cond :: (exprsAll thens ++ exprsAll elses)
  | .loop cond body => cond :: exprsAll body
  | .block body => exprsAll body

/-- The expressions that stand in statements. -/
def Stmt.exprsAll : List Stmt → List Expr
  | [] => []
  | stmt :: rest => stmt.exprs ++ exprsAll rest

end

/-- The ids of all expression nodes in statements. -/
def Stmt.idsAll (stmts : List Stmt) : List Nat := (exprsAll stmts).flatMap Expr.ids

/-- The expressions that stand in a function, its result the last. -/
def Func.exprs (func : Func) : List Expr := Stmt.exprsAll func.body ++ [func.result]

def Program.ids (program : Program) : List Nat :=
  (List.flatMap Func.exprs program).flatMap Expr.ids

end Wordlang
