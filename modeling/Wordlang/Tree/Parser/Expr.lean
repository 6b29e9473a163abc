import Wordlang.Tree.Parser.Basic

/-! # Parsing expressions

Six levels of binary operators, all of which group to the left, over operators
that stand before their operand, over literals, names, elements and expressions
in parentheses or bars.
-/

namespace Wordlang

namespace BinOp

/-- The binary operators by how tightly they bind. -/
inductive Level where
  | or
  | and
  | equality
  | relational
  | additive
  | multiplicative
  deriving Repr, DecidableEq

def levels : List Level :=
  [.or, .and, .equality, .relational, .additive, .multiplicative]

def ofKind? : Level → Token.Kind → Option BinOp
  | .or, .punct .orOr => some or
  | .and, .punct .andAnd => some and
  | .equality, .punct .equalEqual => some equal
  | .equality, .punct .notEqual => some notEqual
  | .relational, .punct .less => some less
  | .relational, .punct .lessEq => some lessEq
  | .relational, .punct .greater => some greater
  | .relational, .punct .greaterEq => some greaterEq
  | .additive, .punct .plus => some plus
  | .additive, .punct .minus => some minus
  | .multiplicative, .punct .star => some times
  | .multiplicative, .punct .slash => some div
  | _, _ => none

end BinOp

/-- The operator that a token stands for before its operand. -/
def UnOp.ofKind? : Token.Kind → Option UnOp
  | .punct .minus => some neg
  | .punct .not => some not
  | _ => none

namespace Parser

/-- Read operators of one level, each with its right operand, behind `left`. -/
def chain (operand : Parse Expr) (level : BinOp.Level) : Nat → Expr → Parse Expr
  | 0, left => return left
  | fuel + 1, left => do
      let token ← peek
      match BinOp.ofKind? level token.kind with
      | none => return left
      | some op =>
          let _ ← next
          let right ← operand
          let node ← node token.line
          chain operand level fuel (.binary node op left right)

/-- Read an expression of the given levels over the operands of the tightest. -/
def binary (operand : Parse Expr) (fuel : Nat) : List BinOp.Level → Parse Expr
  | [] => operand
  | level :: tighter => do
      let left ← binary operand fuel tighter
      chain (binary operand fuel tighter) level fuel left

/-- Read operators that stand before their operand, and the operand. -/
def unary (operand : Parse Expr) : Nat → Parse Expr
  | 0 => operand
  | fuel + 1 => do
      let token ← peek
      match UnOp.ofKind? token.kind with
      | none => operand
      | some op =>
          let _ ← next
          let inner ← unary operand fuel
          return .unary (← node token.line) op inner

/-- Read a literal, a name, an element, or an expression in parentheses or bars,
    where `inner` reads the expressions inside. -/
def primary (inner : Parse Expr) : Parse Expr := do
  let token ← peek
  match token.kind with
  | .num value =>
      let _ ← next
      return .int (← node token.line) value
  | .keyword .true_ =>
      let _ ← next
      return .bool (← node token.line) true
  | .keyword .false_ =>
      let _ ← next
      return .bool (← node token.line) false
  | .ident name =>
      let _ ← next
      if ← accept .openBracket then
        let index ← inner
        mark .closeBracket
        return .index (← node token.line) name index
      else return .var (← node token.line) name
  | .punct .openParen =>
      let _ ← next
      let e ← inner
      mark .closeParen
      return e
  | .punct .bar =>
      let _ ← next
      let e ← inner
      mark .bar
      return .unary (← node token.line) .magnitude e
  | _ => unexpected .expr

/-- Read an expression in which parentheses, bars and brackets nest to a depth
    below `fuel`. -/
def expr : Nat → Parse Expr
  | 0 => unexpected .expr
  | fuel + 1 => binary (unary (primary (expr fuel)) fuel.succ) fuel.succ BinOp.levels

end Parser

end Wordlang
