import Wordlang.Fact.Flow
import Wordlang.Fact.Order

/-! # Effects

What a walk makes of a state, apart from what it records. The effect of a loop is said
by the effect of its body: the least state above the one on entry that the body does
not leave (`State.LeastStable`).
-/

namespace Wordlang

/-- What is known about an expression in a state. -/
def Expr.fact (state : State) : Expr → Fact
  | int _ value => .const (.ofNat 32 value)
  | bool _ value => .const (.ofBool value)
  | var _ name =>
      match state.fact? name with
      | some (.const value) => .const value
      | _ => .top
  | index _ _ _ => .top
  | unary _ op operand => op.fold (operand.fact state)
  | binary _ op left right => op.fold (left.fact state) (right.fact state)

def Stmt.effect (stmt : Stmt) (state : State) : State := ((stmt.walk state).run {}).1

def Stmt.effectAll (stmts : List Stmt) (state : State) : State :=
  ((Stmt.walkAll stmts state).run {}).1

namespace State

/-- A state that has facts of some names and of no others. -/
structure Spans (names : List String) (state : State) : Prop where
  nodup : state.names.Nodup
  same : ∀ name, name ∈ state.names ↔ name ∈ names

/-- Of the states over some names that lie above the entry and that an effect leads below
    themselves, the least. -/
structure LeastStable (names : List String) (effect : State → State) (entry stable : State) :
    Prop where
  spans : stable.Spans names
  above : entry.Le stable
  stays : (effect stable).Le stable
  least : ∀ other : State, other.Spans names → entry.Le other → (effect other).Le other →
    stable.Le other

end State

end Wordlang
