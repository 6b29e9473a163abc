import Wordlang.Tree.Grammar

/-! # Places of expressions

Where the expressions of a tree stand among the tokens with which it is written. Two nodes may be
alike in all but their ids, so it takes the whole derivation to tell which tokens are whose.
-/

namespace Wordlang

open Token (Kind)

/-- The place of an expression among tokens. -/
structure Stand where
  expr : Expr
  /-- The index of its first token. -/
  first : Nat
  /-- The index of the first token behind it. -/
  stop : Nat
  deriving Repr

/-- The expression is written with the tokens at its place, among tokens of which the first one
    has the index `start`. -/
def Stand.Covers (start : Nat) (kinds : List Kind) (stand : Stand) : Prop :=
  ∃ before own after, kinds = before ++ own ++ after ∧ stand.first = start + before.length ∧
    stand.stop = stand.first + own.length ∧ stand.expr.Spelled 0 own

/-- An expression is spelled at a place for expressions of some rank with tokens of which the first
    one has the index `start`. Its parts, operands before operators, stand where it says. -/
inductive Expr.Stands : Nat → Nat → Expr → List Kind → List Stand → Prop where
  | looser {rank start : Nat} {e : Expr} {kinds : List Kind} {stands : List Stand} :
      Stands (rank + 1) start e kinds stands → Stands rank start e kinds stands
  | int {start : Nat} {node : Node} {value : Nat} :
      Stands operandRank start (.int node value) [.num value]
        [⟨.int node value, start, start + 1⟩]
  | bool {start : Nat} {node : Node} {value : Bool} :
      Stands operandRank start (.bool node value) [.keyword (.ofBool value)]
        [⟨.bool node value, start, start + 1⟩]
  | var {start : Nat} {node : Node} {name : String} :
      Stands operandRank start (.var node name) [.ident name]
        [⟨.var node name, start, start + 1⟩]
  | index {start : Nat} {node : Node} {name : String} {index : Expr} {kinds : List Kind}
      {stands : List Stand} :
      Stands 0 (start + 2) index kinds stands →
      Stands operandRank start (.index node name index)
        (.ident name :: .punct .openBracket :: kinds ++ [.punct .closeBracket])
        (stands ++ [⟨.index node name index, start, start + kinds.length + 3⟩])
  | parens {start : Nat} {e : Expr} {kinds : List Kind} {stands : List Stand} :
      Stands 0 (start + 1) e kinds stands →
      Stands operandRank start e (.punct .openParen :: kinds ++ [.punct .closeParen]) stands
  | magnitude {start : Nat} {node : Node} {e : Expr} {kinds : List Kind} {stands : List Stand} :
      Stands 0 (start + 1) e kinds stands →
      Stands operandRank start (.unary node .magnitude e) (.punct .bar :: kinds ++ [.punct .bar])
        (stands ++ [⟨.unary node .magnitude e, start, start + kinds.length + 2⟩])
  | neg {start : Nat} {node : Node} {e : Expr} {kinds : List Kind} {stands : List Stand} :
      Stands operandRank (start + 1) e kinds stands →
      Stands operandRank start (.unary node .neg e) (.punct .minus :: kinds)
        (stands ++ [⟨.unary node .neg e, start, start + kinds.length + 1⟩])
  | not {start : Nat} {node : Node} {e : Expr} {kinds : List Kind} {stands : List Stand} :
      Stands operandRank (start + 1) e kinds stands →
      Stands operandRank start (.unary node .not e) (.punct .not :: kinds)
        (stands ++ [⟨.unary node .not e, start, start + kinds.length + 1⟩])
  | binary {start : Nat} {node : Node} {op : BinOp} {left right : Expr} {first second : List Kind}
      {stands stands' : List Stand} :
      Stands op.rank start left first stands →
      Stands (op.rank + 1) (start + first.length + 1) right second stands' →
      Stands op.rank start (.binary node op left right) (first ++ .punct op.mark :: second)
        (stands ++ stands' ++
          [⟨.binary node op left right, start, start + first.length + 1 + second.length⟩])

/-- What a tree is written with, piece by piece. -/
inductive Segment where
  /-- Tokens outside of expressions. -/
  | marks (kinds : List Kind)
  /-- The name of what is called. It is no expression of the tree, though parentheses may stand
      around it. -/
  | callee (name : String)
  | expr (e : Expr)

namespace Segment

/-- Segments are written with tokens of which the first one has the index `start`, and the
    expressions in them stand where it says. -/
inductive Stands : Nat → List Segment → List Kind → List Stand → Prop where
  | nil {start : Nat} : Stands start [] [] []
  | marks {start : Nat} {kinds later : List Kind} {rest : List Segment} {stands : List Stand} :
      Stands (start + kinds.length) rest later stands →
      Stands start (.marks kinds :: rest) (kinds ++ later) stands
  | callee {start : Nat} {node : Node} {name : String} {kinds later : List Kind}
      {rest : List Segment} {stands : List Stand} :
      (Expr.var node name).Spelled 0 kinds → Stands (start + kinds.length) rest later stands →
      Stands start (.callee name :: rest) (kinds ++ later) stands
  | expr {start : Nat} {e : Expr} {kinds later : List Kind} {rest : List Segment}
      {own stands : List Stand} :
      e.Stands 0 start kinds own → Stands (start + kinds.length) rest later stands →
      Stands start (.expr e :: rest) (kinds ++ later) (own ++ stands)

/-- The arguments of a call. -/
def args (args : List Expr) : List Segment :=
  .marks [.punct .openParen] ::
    (args.map .expr).intersperse (.marks [.punct .comma]) ++ [.marks [.punct .closeParen]]

end Segment

mutual

/-- What a statement is written with. -/
def Stmt.segments : Stmt → List Segment
  | .assign target value =>
      [.marks [.ident target, .punct .equal], .expr value, .marks [.punct .semicolon]]
  | .assignIndex target index value =>
      [.marks [.ident target, .punct .openBracket], .expr index,
        .marks [.punct .closeBracket, .punct .equal], .expr value, .marks [.punct .semicolon]]
  | .call _ target callee args =>
      .marks [.ident target, .punct .equal] :: .callee callee :: Segment.args args ++
        [.marks [.punct .semicolon]]
  | .callIndex _ target index callee args =>
      .marks [.ident target, .punct .openBracket] :: .expr index ::
        .marks [.punct .closeBracket, .punct .equal] :: .callee callee :: Segment.args args ++
          [.marks [.punct .semicolon]]
  | .when cond body =>
      .marks [.keyword .if_, .punct .openParen] :: .expr cond ::
        .marks [.punct .closeParen, .punct .openBrace] :: segmentsAll body ++
          [.marks [.punct .closeBrace]]
  | .choose cond thens elses =>
      .marks [.keyword .if_, .punct .openParen] :: .expr cond ::
        .marks [.punct .closeParen, .punct .openBrace] :: segmentsAll thens ++
          .marks [.punct .closeBrace, .keyword .else_, .punct .openBrace] :: segmentsAll elses ++
            [.marks [.punct .closeBrace]]
  | .loop cond body =>
      .marks [.keyword .while_, .punct .openParen] :: .expr cond ::
        .marks [.punct .closeParen, .punct .openBrace] :: segmentsAll body ++
          [.marks [.punct .closeBrace]]
  | .block body =>
      .marks [.punct .openBrace] :: segmentsAll body ++ [.marks [.punct .closeBrace]]

/-- What statements are written with. -/
def Stmt.segmentsAll : List Stmt → List Segment
  | [] => []
  | stmt :: rest => stmt.segments ++ segmentsAll rest

end

namespace Spelling

def commas (items : List (List Kind)) : List Kind := [.punct .comma].intercalate items

/-- The tokens of a declaration. -/
def decl (decl : Wordlang.Decl) : List Kind :=
  .keyword .var :: commas (decl.names.map fun name => [.ident name]) ++
    .punct .colon :: type decl.type ++ [.punct .semicolon]

def head (func : Func) : List Kind :=
  .keyword .function :: .ident func.name :: .punct .openParen :: commas (func.params.map param) ++
    .punct .closeParen :: .punct .colon :: type func.returns ++ .punct .openBrace ::
      func.decls.flatMap decl

end Spelling

/-- What a function is written with. -/
def Func.segments (func : Func) : List Segment :=
  .marks (Spelling.head func) :: Stmt.segmentsAll func.body ++
    [.marks [.keyword .return_], .expr func.result,
      .marks [.punct .semicolon, .punct .closeBrace]]

/-- All expressions of a program, operands before operators. -/
def Program.parts (program : Program) : List Expr :=
  (List.flatMap Func.exprs program).flatMap Expr.parts

/-- A program is written with some tokens, and its expressions stand where it says. -/
def Program.Stands (program : Program) (kinds : List Kind) (stands : List Stand) : Prop :=
  Segment.Stands 0 (List.flatMap Func.segments program) kinds stands

end Wordlang
