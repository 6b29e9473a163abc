import Wordlang.Tree.Parser.Program

/-! # Descents

Parsing without bounds: a list is read as long as there is another part, and expressions and
blocks nest as deeply as they do. Nothing says that a list or a nesting comes to an end.
-/

namespace Wordlang

/-- Work on a parser that may fail, and that need not come to an end. -/
abbrev Descent := ExceptT CompileError (StateT Parser Option)

namespace Descent

open Wordlang.Parser (peek next mark word ident sees accept acceptWord unexpected node param type
  bodyGoesOn)

def ofParse {α : Type} (work : Parse α) : Descent α := fun parser =>
  match work parser with
  | .ok value parser => some (.ok value, parser)
  | .error error parser => some (.error error, parser)

section Answers

variable {α : Type} {work : Parse α} {s s' : Parser}

theorem ofParse_eq_ok {value : α} :
    ofParse work s = some (.ok value, s') ↔ work s = .ok value s' := by
  unfold ofParse
  cases work s <;> simp

theorem ofParse_eq_error {error : CompileError} :
    ofParse work s = some (.error error, s') ↔ work s = .error error s' := by
  unfold ofParse
  cases work s <;> simp

end Answers

instance : MonadLift Parse Descent := ⟨ofParse⟩

def whileM {α : Type} (test : Parse Bool) (item : Descent α) : Descent (List α) := do
  if ← test then
    let first ← item
    let rest ← item |>.whileM test
    return first :: rest
  else return []
partial_fixpoint

def commaList {α : Type} (item : Descent α) : Descent (List α) := do
  let first ← item
  return first :: (← whileM (accept .comma) item)

/-- Read the rest of a list in parentheses, of which the first one is taken. -/
def parenList {α : Type} (item : Descent α) : Descent (List α) := do
  if ← accept .closeParen then return []
  else
    let items ← commaList item
    mark .closeParen
    return items

/-- What is read in one piece of an expression. -/
inductive Phrase where
  /-- An expression of the given levels. -/
  | binary (levels : List BinOp.Level)
  /-- The operators of one level, each with its right operand, behind `left`. -/
  | chain (level : BinOp.Level) (tighter : List BinOp.Level) (left : Expr)
  /-- The operators that stand before an operand, and the operand. -/
  | unary
  /-- A literal, a name, an element, or an expression in parentheses or bars. -/
  | primary

def Phrase.read : Phrase → Descent Expr
  | binary [] => unary |>.read
  | binary (level :: tighter) => do
      let left ← binary tighter |>.read
      chain level tighter left |>.read
  | chain level tighter left => do
      let token ← peek
      match BinOp.ofKind? level token.kind with
      | none => return left
      | some op =>
          let _ ← next
          let right ← binary tighter |>.read
          let node ← node token.line
          chain level tighter (.binary node op left right) |>.read
  | unary => do
      let token ← peek
      match UnOp.ofKind? token.kind with
      | none => primary |>.read
      | some op =>
          let _ ← next
          let inner ← unary |>.read
          return .unary (← node token.line) op inner
  | primary => do
      let token ← peek
      match token.kind with
      | .num value =>
          let _ ← next
          return .int (← node token.line) value
      | .keyword .true_ =>
          let _ ← next
          return .bool (← node token.line) true
      | .keyword .false_ =>
          let _ ← next
          return .bool (← node token.line) false
      | .ident name =>
          let _ ← next
          if ← accept .openBracket then
            let index ← binary BinOp.levels |>.read
            mark .closeBracket
            return .index (← node token.line) name index
          else return .var (← node token.line) name
      | .punct .openParen =>
          let _ ← next
          let e ← binary BinOp.levels |>.read
          mark .closeParen
          return e
      | .punct .bar =>
          let _ ← next
          let e ← binary BinOp.levels |>.read
          mark .bar
          return .unary (← node token.line) .magnitude e
      | _ => unexpected .expr
partial_fixpoint

def expr : Descent Expr := Phrase.read (.binary BinOp.levels)

/-- Read the arguments of a call if the right side of an assignment names its callee. -/
def callOf (value : Expr) : Descent (Option (String × List Expr)) :=
  match value with
  | .var _ callee => do
      if ← accept .openParen then
        return some (callee, ← parenList expr)
      else return none
  | _ => return none

/-- Read the right side of an assignment to a variable. -/
def assignment (target : String) (line : Nat) : Descent Stmt := do
  let value ← expr
  let stmt := match ← callOf value with
    | some (callee, args) => Stmt.call line target callee args
    | none => Stmt.assign target value
  mark .semicolon
  return stmt

/-- Read the right side of an assignment to an element. -/
def indexAssignment (target : String) (index : Expr) (line : Nat) : Descent Stmt := do
  let value ← expr
  let stmt := match ← callOf value with
    | some (callee, args) => Stmt.callIndex line target index callee args
    | none => Stmt.assignIndex target index value
  mark .semicolon
  return stmt

def condition : Descent Expr := do
  mark .openParen
  let cond ← expr
  mark .closeParen
  return cond

/-- What is read in one piece of statements, by the type of the result. -/
inductive Block : Type → Type where
  | stmt : Block Stmt
  /-- Statements in braces. -/
  | block : Block (List Stmt)
  /-- Statements up to a closing brace. -/
  | stmts : Block (List Stmt)

def Block.read {α : Type} : Block α → Descent α
  | stmt => do
      let token ← peek
      match token.kind with
      | .ident target =>
          let _ ← next
          if ← accept .openBracket then
            let index ← expr
            mark .closeBracket
            mark .equal
            indexAssignment target index token.line
          else
            mark .equal
            assignment target token.line
      | .keyword .if_ =>
          let _ ← next
          let cond ← condition
          let thens ← block |>.read
          if ← acceptWord .else_ then
            let elses ← block |>.read
            return .choose cond thens elses
          else return .when cond thens
      | .keyword .while_ =>
          let _ ← next
          let cond ← condition
          let body ← block |>.read
          return .loop cond body
      | .punct .openBrace =>
          let body ← block |>.read
          return .block body
      | _ => unexpected .stmt
  | block => do
      mark .openBrace
      stmts |>.read
  | stmts => do
      if ← accept .closeBrace then return []
      else
        let first ← stmt |>.read
        let rest ← stmts |>.read
        return first :: rest
partial_fixpoint

def stmt : Descent Stmt := Block.read .stmt

/-- Read a declaration. -/
def decl : Descent Decl := do
  let token ← peek
  word .var
  let names ← commaList ident
  mark .colon
  let type ← type
  mark .semicolon
  return { names, type, line := token.line }

def func : Descent Func := do
  let token ← peek
  word .function
  let name ← ident
  mark .openParen
  let params ← parenList param
  mark .colon
  let returns ← type
  mark .openBrace
  let decls ← whileM (sees (.keyword .var)) decl
  let body ← whileM bodyGoesOn stmt
  word .return_
  let result ← expr
  mark .semicolon
  mark .closeBrace
  return { name, line := token.line, params, returns, decls, body, result }

/-- Read functions up to the end of the text. -/
def program : Descent Program := do
  let funcs ← whileM (sees (.keyword .function)) func
  if ← sees .eof then return funcs else unexpected .program

end Descent

end Wordlang
