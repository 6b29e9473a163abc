import Wordlang.Operator

/-! # Facts

What is known about a value before the program runs. `bottom` lies below every
constant, and every constant below `top`; the operators compute on facts as far
as the facts allow.
-/

namespace Wordlang

/-- What is known about a value. -/
inductive Fact where
  /-- No value was seen yet. -/
  | bottom
  | const (value : Word)
  /-- Any value is possible. -/
  | top
  deriving Repr, DecidableEq

namespace Fact

def join : Fact → Fact → Fact
  | bottom, b => b
  | a, bottom => a
  | const v, const w => if v = w then const v else top
  | _, _ => top

def const? : Fact → Option Word
  | const value => some value
  | _ => none

def text : Fact → String
  | bottom => "Bottom"
  | const value => s!"Constant({value.text})"
  | top => "Top"

/-- Whether the fact is a constant with a property. -/
def isConst (p : Word → Bool) : Fact → Bool
  | const value => p value
  | _ => false

end Fact

def UnOp.fold (op : UnOp) : Fact → Fact
  | .const value => .const (op.eval value)
  | _ => .top

/-- The value of an operator that one operand decides, whatever the other is: zero
    absorbs products, quotients and conjunctions, truth absorbs disjunctions. -/
def BinOp.absorb? (op : BinOp) (a b : Fact) : Option Word :=
  let either := fun p => a.isConst p || b.isConst p
  match op with
  | .times | .div | .and => if either (· == 0) then some 0 else none
  | .or => if either Word.isTrue then some 1 else none
  | _ => none

def BinOp.fold (op : BinOp) (a b : Fact) : Fact :=
  match op.absorb? a b with
  | some value => .const value
  | none =>
      match a, b with
      | .const v, .const w => .const (op.eval v w)
      | _, _ => .top

end Wordlang
