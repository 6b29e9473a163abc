import Wordlang.Tree.Grammar

/-! # Loose grammar

Which tokens are read as a program. Reading finds out that an assignment is a call when its
right side is read as a name already, and parentheses leave no trace in what is read. So the
callee of a call may stand in parentheses here; in all else the grammar is the same.
-/

namespace Wordlang

open Token (Kind)

/-- A statement is read from some tokens. -/
inductive Stmt.Loose : Stmt → List Kind → Prop where
  | assign {target : String} {value : Expr} {kinds : List Kind} :
      value.Spelled 0 kinds →
      Loose (.assign target value)
        (.ident target :: .punct .equal :: kinds ++ [.punct .semicolon])
  | assignIndex {target : String} {index value : Expr} {place kinds : List Kind} :
      index.Spelled 0 place → value.Spelled 0 kinds →
      Loose (.assignIndex target index value)
        (.ident target :: .punct .openBracket :: place ++ .punct .closeBracket ::
          .punct .equal :: kinds ++ [.punct .semicolon])
  | call {line : Nat} {node : Node} {target callee : String} {args : List Expr}
      {name kinds : List Kind} :
      (Expr.var node callee).Spelled 0 name → Spelling.Parens (Expr.Spelled 0) args kinds →
      Loose (.call line target callee args)
        (.ident target :: .punct .equal :: name ++ kinds ++ [.punct .semicolon])
  | callIndex {line : Nat} {node : Node} {target callee : String} {index : Expr}
      {args : List Expr} {place name kinds : List Kind} :
      index.Spelled 0 place → (Expr.var node callee).Spelled 0 name →
      Spelling.Parens (Expr.Spelled 0) args kinds →
      Loose (.callIndex line target index callee args)
        (.ident target :: .punct .openBracket :: place ++ .punct .closeBracket ::
          .punct .equal :: name ++ kinds ++ [.punct .semicolon])
  | when {cond : Expr} {body : List Stmt} {test inner : List Kind} :
      cond.Spelled 0 test → Spelling.Sequence Loose body inner →
      Loose (.when cond body)
        (.keyword .if_ :: .punct .openParen :: test ++ .punct .closeParen ::
          .punct .openBrace :: inner ++ [.punct .closeBrace])
  | choose {cond : Expr} {thens elses : List Stmt} {test first second : List Kind} :
      cond.Spelled 0 test → Spelling.Sequence Loose thens first →
      Spelling.Sequence Loose elses second →
      Loose (.choose cond thens elses)
        (.keyword .if_ :: .punct .openParen :: test ++ .punct .closeParen ::
          .punct .openBrace :: first ++ .punct .closeBrace :: .keyword .else_ ::
          .punct .openBrace :: second ++ [.punct .closeBrace])
  | loop {cond : Expr} {body : List Stmt} {test inner : List Kind} :
      cond.Spelled 0 test → Spelling.Sequence Loose body inner →
      Loose (.loop cond body)
        (.keyword .while_ :: .punct .openParen :: test ++ .punct .closeParen ::
          .punct .openBrace :: inner ++ [.punct .closeBrace])
  | block {body : List Stmt} {inner : List Kind} :
      Spelling.Sequence Loose body inner →
      Loose (.block body) (.punct .openBrace :: inner ++ [.punct .closeBrace])

/-- A function is read from some tokens. -/
inductive Func.Loose (func : Func) : List Kind → Prop where
  | intro {params decls body result : List Kind} :
      Spelling.Parens (fun param kinds => kinds = Spelling.param param) func.params params →
      Spelling.Sequence Spelling.Decl func.decls decls →
      Spelling.Sequence Stmt.Loose func.body body →
      func.result.Spelled 0 result →
      Loose func
        (.keyword .function :: .ident func.name :: params ++ .punct .colon ::
          Spelling.type func.returns ++ .punct .openBrace :: decls ++ body ++
          .keyword .return_ :: result ++ [.punct .semicolon, .punct .closeBrace])

/-- A program is read from some tokens, up to the end of the text. -/
def Program.Loose (program : Program) (kinds : List Kind) : Prop :=
  Spelling.Sequence Func.Loose program kinds

end Wordlang
