import Wordlang.Tree.Descent

/-! # Routines

What a parser reads by a routine of its own, without bounds and by fuel: the parts of a program,
and the loops within them.
-/

namespace Wordlang

/-- The routines of a parser. -/
inductive Routine where
  | program
  | func
  | param
  | decl
  | type
  | stmt
  /-- The right side of an assignment to a variable. -/
  | assignment (target : String) (line : Nat)
  /-- The right side of an assignment to an element. -/
  | indexAssignment (target : String) (index : Expr) (line : Nat)
  /-- The rest of a right side, which is a call if an opening parenthesis follows. -/
  | callOf (value : Expr)
  /-- A condition in parentheses. -/
  | condition
  | block
  | expr
  /-- An expression of the given levels. -/
  | binary (levels : List BinOp.Level)
  /-- Operators that stand before an operand, and the operand. -/
  | unary
  | primary
  /-- The functions of a program. -/
  | functions
  /-- The parameters of a function, up to the closing parenthesis. -/
  | params
  /-- The declarations of a function. -/
  | decls
  /-- The names of a declaration. -/
  | names
  /-- The statements of a function. -/
  | body
  /-- The arguments of a call, up to the closing parenthesis. -/
  | args
  /-- The statements of a block, up to the closing brace. -/
  | stmts
  /-- Operators of one level with their right operands. -/
  | chain (level : BinOp.Level) (tighter : List BinOp.Level) (left : Expr)
  deriving Repr

namespace Routine

def Result : Routine → Type
  | program | functions => Program
  | func => Func
  | param => Param
  | decl => Decl
  | type => Ty
  | stmt | assignment .. | indexAssignment .. => Stmt
  | callOf _ => Option (String × List Expr)
  | condition | expr | binary _ | unary | primary | chain .. => Expr
  | block | body | stmts => List Stmt
  | params => List Param
  | decls => List Decl
  | names => List String
  | args => List Expr

def run : (routine : Routine) → Descent routine.Result
  | program => Descent.program
  | func => Descent.func
  | param => Descent.ofParse Parser.param
  | decl => Descent.decl
  | type => Descent.ofParse Parser.type
  | stmt => Descent.stmt
  | assignment target line => Descent.assignment target line
  | indexAssignment target index line => Descent.indexAssignment target index line
  | callOf value => Descent.callOf value
  | condition => Descent.condition
  | block => Descent.Block.read .block
  | expr => Descent.expr
  | binary levels => Descent.Phrase.read (.binary levels)
  | unary => Descent.Phrase.read .unary
  | primary => Descent.Phrase.read .primary
  | functions => Descent.whileM (Parser.sees (.keyword .function)) Descent.func
  | params => Descent.parenList (Descent.ofParse Parser.param)
  | decls => Descent.whileM (Parser.sees (.keyword .var)) Descent.decl
  | names => Descent.commaList (Descent.ofParse Parser.ident)
  | body => Descent.whileM Parser.bodyGoesOn Descent.stmt
  | args => Descent.parenList Descent.expr
  | stmts => Descent.Block.read .stmts
  | chain level tighter left => Descent.Phrase.read (.chain level tighter left)

def operand (fuel : Nat) : Parse Expr :=
  Parser.unary (Parser.primary (Parser.expr fuel)) fuel

def bounded (fuel : Nat) : (routine : Routine) → Parse routine.Result
  | program => Parser.program
  | func => Parser.func fuel
  | param => Parser.param
  | decl => Parser.decl fuel
  | type => Parser.type
  | stmt => Parser.stmt fuel
  | assignment target line => Parser.assignment target line fuel
  | indexAssignment target index line => Parser.indexAssignment target index line fuel
  | callOf value => Parser.callOf value fuel
  | condition => Parser.condition fuel
  | block => Parser.block (Parser.stmt fuel) fuel
  | expr => Parser.expr fuel
  | binary levels => Parser.binary (operand fuel) fuel levels
  | unary => operand fuel
  | primary => Parser.primary (Parser.expr fuel)
  | functions => Parser.whileM (Parser.sees (.keyword .function)) (Parser.func fuel) fuel
  | params => Parser.parenList Parser.param fuel
  | decls => Parser.whileM (Parser.sees (.keyword .var)) (Parser.decl fuel) fuel
  | names => Parser.commaList Parser.ident fuel
  | body => Parser.whileM Parser.bodyGoesOn (Parser.stmt fuel) fuel
  | args => Parser.parenList (Parser.expr fuel) fuel
  | stmts => Parser.whileM (return !(← Parser.accept .closeBrace)) (Parser.stmt fuel) fuel
  | chain level tighter left =>
      Parser.chain (Parser.binary (operand fuel) fuel tighter) level fuel left

/-- Whether a routine reads a part of a program, which is never empty. A list of parts may be, and
    so may a program and what follows an operand. -/
def isPart : Routine → Bool
  | program | callOf _ | functions | params | decls | body | args | stmts | chain .. => false
  | _ => true

end Routine

end Wordlang
