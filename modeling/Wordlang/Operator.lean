import Wordlang.Word

/-! # Operators

The operators of expressions, and what each of them computes on words.
-/

namespace Wordlang

/-- An operator between two expressions. -/
inductive BinOp where
  | plus
  | minus
  | times
  | div
  | and
  | or
  | equal
  | notEqual
  | greater
  | greaterEq
  | less
  | lessEq
  deriving Repr, DecidableEq

/-- An operator on one expression. -/
inductive UnOp where
  /-- `!e`: 1 when `e` is zero, otherwise 0. -/
  | not
  /-- `-e` -/
  | neg
  /-- `|e|`: the distance from zero, which wraps for the least word. -/
  | magnitude
  deriving Repr, DecidableEq

namespace BinOp

/-- The name of the operator in comments and in the labels of its code. -/
def name : BinOp → String
  | plus => "Plus"
  | minus => "Minus"
  | times => "Times"
  | div => "Div"
  | and => "And"
  | or => "Or"
  | equal => "Compare"
  | notEqual => "NotEq"
  | greater => "GreaterThan"
  | greaterEq => "GreaterThanEq"
  | less => "LessThan"
  | lessEq => "LessThanEqual"

/-- The value of the operator on two words. Division truncates toward zero, and
    a quotient by zero is zero. -/
def eval : BinOp → Word → Word → Word
  | plus, a, b => a + b
  | minus, a, b => a - b
  | times, a, b => a * b
  | div, a, b => a.sdiv b
  | and, a, b => .ofBool (a.isTrue && b.isTrue)
  | or, a, b => .ofBool (a.isTrue || b.isTrue)
  | equal, a, b => .ofBool (a == b)
  | notEqual, a, b => .ofBool (a != b)
  | greater, a, b => .ofBool (b.slt a)
  | greaterEq, a, b => .ofBool (b.sle a)
  | less, a, b => .ofBool (a.slt b)
  | lessEq, a, b => .ofBool (a.sle b)

/-- Whether the operator compares its operands. -/
def isComparison : BinOp → Bool
  | equal | notEqual | greater | greaterEq | less | lessEq => true
  | _ => false

end BinOp

namespace UnOp

def name : UnOp → String
  | not => "Not"
  | neg => "Uminus"
  | magnitude => "Magnitude"

def eval : UnOp → Word → Word
  | not, a => .ofBool (a == 0)
  | neg, a => -a
  | magnitude, a => a.abs

end UnOp

end Wordlang
