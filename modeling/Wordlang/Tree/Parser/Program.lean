import Wordlang.Tree.Parser.Stmt

/-! # Parsing programs

Functions, their parameters and declarations, up to the end of the text.
-/

namespace Wordlang.Parser

def type : Parse Ty := do
  let token ← peek
  match token.kind with
  | .keyword .int =>
      let _ ← next
      return .int
  | .keyword .bool =>
      let _ ← next
      return .bool
  | .keyword .intarray =>
      let _ ← next
      mark .openBracket
      let length ← num
      mark .closeBracket
      return .intarray length
  | _ => unexpected .type

/-- Read a parameter. -/
def param : Parse Param := do
  let token ← peek
  let name ← ident
  mark .colon
  return { name, type := ← type, line := token.line }

/-- Read a declaration. -/
def decl (fuel : Nat) : Parse Decl := do
  let token ← peek
  word .var
  let names ← commaList ident fuel
  mark .colon
  let type ← type
  mark .semicolon
  return { names, type, line := token.line }

/-- Whether a statement follows in the body of a function. The body ends with a
    return; a body that ends otherwise lacks it. -/
def bodyGoesOn : Parse Bool := do
  let token ← peek
  match token.kind with
  | .keyword .return_ => return false
  | .punct .closeBrace | .eof =>
      word .return_
      return false
  | _ => return true

def func (fuel : Nat) : Parse Func := do
  let token ← peek
  word .function
  let name ← ident
  mark .openParen
  let params ← parenList param fuel
  mark .colon
  let returns ← type
  mark .openBrace
  let decls ← whileM (sees (.keyword .var)) (decl fuel) fuel
  let body ← whileM bodyGoesOn (stmt fuel) fuel
  word .return_
  let result ← expr fuel
  mark .semicolon
  mark .closeBrace
  return { name, line := token.line, params, returns, decls, body, result }

/-- More than any list or nesting in what is left to read. -/
def budget : Parse Nat
  | { stream, nextId } => .ok (stream.cursor.rest.length + 2) { stream, nextId }

/-- Read functions up to the end of the text. -/
def program : Parse Program := do
  let fuel ← budget
  let funcs ← whileM (sees (.keyword .function)) (func fuel) fuel
  if ← sees .eof then return funcs else unexpected .program

end Wordlang.Parser
