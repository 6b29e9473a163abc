import Wordlang.Scope.Check
import Wordlang.Tree.Grammar

/-! # Blame

What a tree can be refused for, and at which line: the line that is reported belongs to the node
at which the check notices the misuse. What a text says about that line is said by its tokens.
Where the node is the right side or the index of an assignment, its line is that of one token: of
the operator that is applied last, or of the first token where no operator stands between
operands.
-/

namespace Wordlang

open Token (Kind kinds)

namespace Misuse

/-- A name is no variable of one word. -/
def OfScalar (name : String) (cause : Misuse) : Prop :=
  cause = .undeclaredVariable name ∨ cause = .notScalar name

/-- A name is no array. -/
def OfArray (name : String) (cause : Misuse) : Prop :=
  cause = .undeclaredVariable name ∨ cause = .notArray name

/-- A name is no function of so many parameters as there are arguments. -/
def OfCallee (name : String) (cause : Misuse) : Prop :=
  cause = .undeclaredFunction name ∨ cause = .notFunction name ∨
    ∃ wanted given, cause = .arity name wanted given

/-- A name cannot be declared as a variable. -/
def OfDecl (name : String) (cause : Misuse) : Prop :=
  cause = .redeclared name ∨ cause = .emptyArray name

/-- A name is misused that names no function, and is not called. -/
def OfVariable (name : String) (cause : Misuse) : Prop :=
  cause.OfScalar name ∨ cause.OfArray name ∨ cause.OfDecl name ∨ cause = .arrayParameter name

end Misuse

/-- A node of an expression is refused for its name, at its own line. -/
inductive Expr.Blames : Expr → Misuse → Nat → Prop where
  | var {node : Node} {name : String} {cause : Misuse} :
      cause.OfScalar name → Blames (.var node name) cause node.line
  | index {node : Node} {name : String} {element : Expr} {cause : Misuse} :
      cause.OfArray name → Blames (.index node name element) cause node.line

/-- A statement is refused for a name in it. -/
inductive Stmt.Blames : Stmt → Misuse → Nat → Prop where
  | expr {stmt : Stmt} {e part : Expr} {cause : Misuse} {line : Nat} :
      e ∈ stmt.exprs → part ∈ e.parts → part.Blames cause line → Blames stmt cause line
  /-- The target of an assignment is reported at the line of the right side. -/
  | assign {target : String} {value : Expr} {cause : Misuse} :
      cause.OfScalar target → Blames (.assign target value) cause value.line
  /-- The target of an assignment to an element is reported at the line of the index. -/
  | assignIndex {target : String} {index value : Expr} {cause : Misuse} :
      cause.OfArray target → Blames (.assignIndex target index value) cause index.line
  | call {line : Nat} {target callee : String} {args : List Expr} {cause : Misuse} :
      cause.OfScalar target ∨ cause.OfCallee callee →
        Blames (.call line target callee args) cause line
  | callIndex {line : Nat} {target callee : String} {index : Expr} {args : List Expr}
      {cause : Misuse} :
      cause.OfArray target ∨ cause.OfCallee callee →
        Blames (.callIndex line target index callee args) cause line
  | when {cond : Expr} {body : List Stmt} {stmt : Stmt} {cause : Misuse} {line : Nat} :
      stmt ∈ body → Blames stmt cause line → Blames (.when cond body) cause line
  | choose {cond : Expr} {thens elses : List Stmt} {stmt : Stmt} {cause : Misuse} {line : Nat} :
      stmt ∈ thens ++ elses → Blames stmt cause line → Blames (.choose cond thens elses) cause line
  | loop {cond : Expr} {body : List Stmt} {stmt : Stmt} {cause : Misuse} {line : Nat} :
      stmt ∈ body → Blames stmt cause line → Blames (.loop cond body) cause line
  | block {body : List Stmt} {stmt : Stmt} {cause : Misuse} {line : Nat} :
      stmt ∈ body → Blames stmt cause line → Blames (.block body) cause line

/-- A function is refused for a name that it declares or uses. -/
inductive Func.Blames (func : Func) : Misuse → Nat → Prop where
  | param {param : Param} {cause : Misuse} :
      param ∈ func.params → cause = .arrayParameter param.name ∨ cause.OfDecl param.name →
        Blames func cause param.line
  | decl {decl : Decl} {name : String} {cause : Misuse} :
      decl ∈ func.decls → name ∈ decl.names → cause.OfDecl name → Blames func cause decl.line
  | stmt {stmt : Stmt} {cause : Misuse} {line : Nat} :
      stmt ∈ func.body → stmt.Blames cause line → Blames func cause line
  | result {part : Expr} {cause : Misuse} {line : Nat} :
      part ∈ func.result.parts → part.Blames cause line → Blames func cause line

/-- A program is refused for a second function of one name, or for one of its functions. -/
inductive Program.Blames (program : Program) : Misuse → Nat → Prop where
  | redefined {func : Func} :
      func ∈ program → Blames program (.functionRedefined func.name) func.line
  | func {func : Func} {cause : Misuse} {line : Nat} :
      func ∈ program → func.Blames cause line → Blames program cause line

/-- A token that ends neither a statement nor a declaration, and begins no block. A name behind a
    token of the other sort begins a statement. -/
def Token.Inner (token : Token) : Prop :=
  token.kind ∉ [.punct .semicolon, .punct .openBrace, .punct .closeBrace]

/-- From some tokens on, one statement or declaration goes on to another token. -/
def Token.Reaches (tokens start : List Token) (last : Token) : Prop :=
  ∃ between, start ++ between ++ [last] <:+: tokens ∧ ∀ token ∈ between, token.Inner

/-- An expression is written with some tokens, and on a line stands the one of its topmost node:
    the operator between two operands, or else the first token inside all parentheses. -/
inductive Expr.Rooted (line : Nat) : Expr → List Token → Prop where
  | first {e : Expr} {kind : Kind} {rest : List Token} : kind ≠ .punct .openParen →
      e.Spelled operandRank (kind :: kinds rest) → Rooted line e (⟨kind, line⟩ :: rest)
  | operator {node : Node} {op : BinOp} {left right : Expr} {first second : List Token} :
      left.Spelled op.rank (kinds first) → right.Spelled (op.rank + 1) (kinds second) →
      Rooted line (.binary node op left right) (first ++ ⟨.punct op.mark, line⟩ :: second)
  | parens {e : Expr} {own : List Token} {at_ at₁ : Nat} : Rooted line e own →
      Rooted line e (⟨.punct .openParen, at_⟩ :: own ++ [⟨.punct .closeParen, at₁⟩])

/-- An assignment to a name begins with some tokens, up to the mark of equality, and the name stands
    on a line. The token in front shows that the name begins a statement. -/
inductive Token.Targets (name : String) (line : Nat) : List Token → Prop where
  | variable {front : Token} {at_ : Nat} : ¬ front.Inner →
      Targets name line [front, ⟨.ident name, line⟩, ⟨.punct .equal, at_⟩]
  | element {front : Token} {index : Expr} {place : List Token} {at_ at₁ at₂ : Nat} :
      ¬ front.Inner → index.Spelled 0 (kinds place) →
      Targets name line ([front, ⟨.ident name, line⟩, ⟨.punct .openBracket, at_⟩] ++ place ++
        [⟨.punct .closeBracket, at₁⟩, ⟨.punct .equal, at₂⟩])

/-- What the line of a misuse has to do with its name. A variable is mostly reported at the line of
    the name itself. -/
inductive Misuse.Points (tokens : List Token) (line : Nat) : Misuse → Prop where
  | name {name : String} {cause : Misuse} : cause.OfVariable name →
      ⟨.ident name, line⟩ ∈ tokens → Points tokens line cause
  /-- The line of the keyword in front of the name. -/
  | function {name : String} {at_ : Nat} :
      [⟨.keyword .function, line⟩, ⟨.ident name, at_⟩] <:+: tokens →
        Points tokens line (.functionRedefined name)
  /-- The line of the keyword at the begin of the declaration that lists the name. -/
  | declaration {name : String} {at_ : Nat} {cause : Misuse} : cause.OfDecl name →
      Token.Reaches tokens [⟨.keyword .var, line⟩] ⟨.ident name, at_⟩ → Points tokens line cause
  /-- The line of the target to which the result of the call is assigned. The name may stand in
      parentheses. -/
  | callee {name target : String} {node : Node} {front own : List Token} {at_ : Nat}
      {cause : Misuse} : cause.OfCallee name → Token.Targets target line front →
      (Expr.var node name).Spelled 0 (kinds own) →
      front ++ own ++ [⟨.punct .openParen, at_⟩] <:+: tokens → Points tokens line cause
  /-- The line of the right side that is assigned to the name. -/
  | value {name : String} {value : Expr} {front : Token} {own : List Token} {at_ at₁ at₂ : Nat}
      {cause : Misuse} : cause.OfScalar name → ¬ front.Inner → value.Rooted line own →
      [front, ⟨.ident name, at_⟩, ⟨.punct .equal, at₁⟩] ++ own ++
          [⟨.punct .semicolon, at₂⟩] <:+: tokens → Points tokens line cause
  /-- The line of the index at which a value is assigned to an element of the name. -/
  | index {name : String} {index value : Expr} {front : Token} {place own : List Token}
      {at_ at₁ at₂ at₃ at₄ : Nat} {cause : Misuse} : cause.OfArray name → ¬ front.Inner →
      index.Rooted line place → value.Spelled 0 (kinds own) →
      [front, ⟨.ident name, at_⟩, ⟨.punct .openBracket, at₁⟩] ++ place ++
          [⟨.punct .closeBracket, at₂⟩, ⟨.punct .equal, at₃⟩] ++ own ++
          [⟨.punct .semicolon, at₄⟩] <:+: tokens → Points tokens line cause

end Wordlang
