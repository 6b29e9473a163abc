import Wordlang.Token.Basic
import Wordlang.Tree.Basic

/-! # Grammar

Which tokens a tree is written with. The ids and lines of the tree do not matter,
and an expression may stand in parentheses wherever an operand may stand. A tree
that is spelled so is what its tokens mean.
-/

namespace Wordlang

open Token (Kind)

/-- Binary operators bind the tighter, the higher their rank. Operands rank above
    them all. -/
def BinOp.rank : BinOp → Nat
  | or => 0
  | and => 1
  | equal | notEqual => 2
  | greater | greaterEq | less | lessEq => 3
  | plus | minus => 4
  | times | div => 5

def operandRank : Nat := 6

def BinOp.mark : BinOp → Punct
  | plus => .plus
  | minus => .minus
  | times => .star
  | div => .slash
  | and => .andAnd
  | or => .orOr
  | equal => .equalEqual
  | notEqual => .notEqual
  | greater => .greater
  | greaterEq => .greaterEq
  | less => .less
  | lessEq => .lessEq

def Keyword.ofBool : Bool → Keyword
  | true => .true_
  | false => .false_

/-- An expression is written with some tokens at a place for expressions of at least
    some rank. -/
inductive Expr.Spelled : Nat → Expr → List Kind → Prop where
  | looser {rank : Nat} {e : Expr} {kinds : List Kind} :
      Spelled (rank + 1) e kinds → Spelled rank e kinds
  | int {node : Node} {value : Nat} :
      Spelled operandRank (.int node value) [.num value]
  | bool {node : Node} {value : Bool} :
      Spelled operandRank (.bool node value) [.keyword (.ofBool value)]
  | var {node : Node} {name : String} : Spelled operandRank (.var node name) [.ident name]
  | index {node : Node} {name : String} {index : Expr} {kinds : List Kind} :
      Spelled 0 index kinds →
      Spelled operandRank (.index node name index)
        (.ident name :: .punct .openBracket :: kinds ++ [.punct .closeBracket])
  | parens {e : Expr} {kinds : List Kind} :
      Spelled 0 e kinds →
      Spelled operandRank e (.punct .openParen :: kinds ++ [.punct .closeParen])
  | magnitude {node : Node} {e : Expr} {kinds : List Kind} :
      Spelled 0 e kinds →
      Spelled operandRank (.unary node .magnitude e) (.punct .bar :: kinds ++ [.punct .bar])
  | neg {node : Node} {e : Expr} {kinds : List Kind} :
      Spelled operandRank e kinds →
      Spelled operandRank (.unary node .neg e) (.punct .minus :: kinds)
  | not {node : Node} {e : Expr} {kinds : List Kind} :
      Spelled operandRank e kinds →
      Spelled operandRank (.unary node .not e) (.punct .not :: kinds)
  | binary {node : Node} {op : BinOp} {left right : Expr} {first second : List Kind} :
      Spelled op.rank left first → Spelled (op.rank + 1) right second →
      Spelled op.rank (.binary node op left right) (first ++ .punct op.mark :: second)

/-- Some things are written one after the other with commas between them. -/
inductive Spelling.Commas {α : Type} (one : α → List Kind → Prop) :
    List α → List Kind → Prop where
  | last {a : α} {kinds : List Kind} : one a kinds → Commas one [a] kinds
  | more {a : α} {rest : List α} {first later : List Kind} :
      one a first → Commas one rest later →
      Commas one (a :: rest) (first ++ .punct .comma :: later)

/-- Things are written in parentheses with commas between them. -/
inductive Spelling.Parens {α : Type} (one : α → List Kind → Prop) :
    List α → List Kind → Prop where
  | none : Parens one [] [.punct .openParen, .punct .closeParen]
  | some {items : List α} {kinds : List Kind} :
      Spelling.Commas one items kinds →
      Parens one items (.punct .openParen :: kinds ++ [.punct .closeParen])

/-- Statements are written with some tokens. -/
inductive Stmt.Spelled : List Stmt → List Kind → Prop where
  | nil : Spelled [] []
  | assign {target : String} {value : Expr} {rest : List Stmt} {kinds later : List Kind} :
      value.Spelled 0 kinds → Spelled rest later →
      Spelled (.assign target value :: rest)
        (.ident target :: .punct .equal :: kinds ++ .punct .semicolon :: later)
  | assignIndex {target : String} {index value : Expr} {rest : List Stmt}
      {place kinds later : List Kind} :
      index.Spelled 0 place → value.Spelled 0 kinds → Spelled rest later →
      Spelled (.assignIndex target index value :: rest)
        (.ident target :: .punct .openBracket :: place ++ .punct .closeBracket ::
          .punct .equal :: kinds ++ .punct .semicolon :: later)
  | call {line : Nat} {target callee : String} {args : List Expr} {rest : List Stmt}
      {kinds later : List Kind} :
      Spelling.Parens (Expr.Spelled 0) args kinds → Spelled rest later →
      Spelled (.call line target callee args :: rest)
        (.ident target :: .punct .equal :: .ident callee :: kinds ++ .punct .semicolon :: later)
  | callIndex {line : Nat} {target callee : String} {index : Expr} {args : List Expr}
      {rest : List Stmt} {place kinds later : List Kind} :
      index.Spelled 0 place → Spelling.Parens (Expr.Spelled 0) args kinds → Spelled rest later →
      Spelled (.callIndex line target index callee args :: rest)
        (.ident target :: .punct .openBracket :: place ++ .punct .closeBracket ::
          .punct .equal :: .ident callee :: kinds ++ .punct .semicolon :: later)
  | when {cond : Expr} {body rest : List Stmt} {test inner later : List Kind} :
      cond.Spelled 0 test → Spelled body inner → Spelled rest later →
      Spelled (.when cond body :: rest)
        (.keyword .if_ :: .punct .openParen :: test ++ .punct .closeParen ::
          .punct .openBrace :: inner ++ .punct .closeBrace :: later)
  | choose {cond : Expr} {thens elses rest : List Stmt} {test first second later : List Kind} :
      cond.Spelled 0 test → Spelled thens first → Spelled elses second → Spelled rest later →
      Spelled (.choose cond thens elses :: rest)
        (.keyword .if_ :: .punct .openParen :: test ++ .punct .closeParen ::
          .punct .openBrace :: first ++ .punct .closeBrace :: .keyword .else_ ::
          .punct .openBrace :: second ++ .punct .closeBrace :: later)
  | loop {cond : Expr} {body rest : List Stmt} {test inner later : List Kind} :
      cond.Spelled 0 test → Spelled body inner → Spelled rest later →
      Spelled (.loop cond body :: rest)
        (.keyword .while_ :: .punct .openParen :: test ++ .punct .closeParen ::
          .punct .openBrace :: inner ++ .punct .closeBrace :: later)
  | block {body rest : List Stmt} {inner later : List Kind} :
      Spelled body inner → Spelled rest later →
      Spelled (.block body :: rest)
        (.punct .openBrace :: inner ++ .punct .closeBrace :: later)

namespace Spelling

def type : Ty → List Kind
  | .int => [.keyword .int]
  | .bool => [.keyword .bool]
  | .intarray length =>
      [.keyword .intarray, .punct .openBracket, .num length, .punct .closeBracket]

/-- The tokens of a parameter. -/
def param (param : Param) : List Kind :=
  .ident param.name :: .punct .colon :: type param.type

/-- A declaration is written with some tokens. -/
def Decl (decl : Decl) (kinds : List Kind) : Prop :=
  ∃ names, Commas (fun name kinds => kinds = [.ident name]) decl.names names ∧
    kinds = .keyword .var :: names ++ .punct .colon :: type decl.type ++ [.punct .semicolon]

/-- Things are written one after the other. -/
inductive Sequence {α : Type} (one : α → List Kind → Prop) : List α → List Kind → Prop where
  | nil : Sequence one [] []
  | cons {a : α} {rest : List α} {first later : List Kind} :
      one a first → Sequence one rest later → Sequence one (a :: rest) (first ++ later)

end Spelling

/-- A function is written with some tokens. -/
inductive Func.Spelled (func : Func) : List Kind → Prop where
  | intro {params decls body result : List Kind} :
      Spelling.Parens (fun param kinds => kinds = Spelling.param param) func.params params →
      Spelling.Sequence Spelling.Decl func.decls decls →
      Stmt.Spelled func.body body →
      func.result.Spelled 0 result →
      Spelled func
        (.keyword .function :: .ident func.name :: params ++ .punct .colon ::
          Spelling.type func.returns ++ .punct .openBrace :: decls ++ body ++
          .keyword .return_ :: result ++ [.punct .semicolon, .punct .closeBrace])

/-- A program is written with some tokens, up to the end of the text. -/
def Program.Spelled (program : Program) (kinds : List Kind) : Prop :=
  Spelling.Sequence Func.Spelled program kinds

end Wordlang
