import Wordlang.Tree.Parser.Expr

/-! # Parsing statements

A statement is an assignment, a choice, a loop or a block. Whether an assignment
is a call is known only behind its right side: it is one when that is a name
alone and an opening parenthesis follows.
-/

namespace Wordlang.Parser

/-- Read the arguments of a call if the right side of an assignment names its
    callee. -/
def callOf (value : Expr) (fuel : Nat) : Parse (Option (String × List Expr)) :=
  match value with
  | .var _ callee => do
      if ← accept .openParen then
        return some (callee, ← parenList (expr fuel) fuel)
      else return none
  | _ => return none

/-- Read the right side of an assignment to a variable. -/
def assignment (target : String) (line fuel : Nat) : Parse Stmt := do
  let value ← expr fuel
  let stmt := match ← callOf value fuel with
    | some (callee, args) => Stmt.call line target callee args
    | none => Stmt.assign target value
  mark .semicolon
  return stmt

/-- Read the right side of an assignment to an element. -/
def indexAssignment (target : String) (index : Expr) (line fuel : Nat) : Parse Stmt := do
  let value ← expr fuel
  let stmt := match ← callOf value fuel with
    | some (callee, args) => Stmt.callIndex line target index callee args
    | none => Stmt.assignIndex target index value
  mark .semicolon
  return stmt

def condition (fuel : Nat) : Parse Expr := do
  mark .openParen
  let cond ← expr fuel
  mark .closeParen
  return cond

def block (stmt : Parse Stmt) (fuel : Nat) : Parse (List Stmt) := do
  mark .openBrace
  whileM (return !(← accept .closeBrace)) stmt fuel

/-- Read a statement in which blocks nest to a depth below `fuel`. -/
def stmt : Nat → Parse Stmt
  | 0 => unexpected .stmt
  | fuel + 1 => do
      let token ← peek
      match token.kind with
      | .ident target =>
          let _ ← next
          if ← accept .openBracket then
            let index ← expr fuel.succ
            mark .closeBracket
            mark .equal
            indexAssignment target index token.line fuel.succ
          else
            mark .equal
            assignment target token.line fuel.succ
      | .keyword .if_ =>
          let _ ← next
          let cond ← condition fuel.succ
          let thens ← block (stmt fuel) fuel.succ
          if ← acceptWord .else_ then
            return .choose cond thens (← block (stmt fuel) fuel.succ)
          else return .when cond thens
      | .keyword .while_ =>
          let _ ← next
          let cond ← condition fuel.succ
          return .loop cond (← block (stmt fuel) fuel.succ)
      | .punct .openBrace => return .block (← block (stmt fuel) fuel.succ)
      | _ => unexpected .stmt

end Wordlang.Parser
