import Wordlang.Asm.Live
import Wordlang.Fact.Flow
import Wordlang.Fact.Order

/-! # Listings

The lists of statements that a function consists of, and how a list is walked on its own, from
any state. Only the outermost list of a function ends with a result. What one walk records may
lie below what another one does, node by node (`Flow.Within`).
-/

namespace Wordlang

/-- A list of statements, and what is returned behind them if anything is. -/
structure Listing where
  stmts : List Stmt
  result : Option Expr := none

namespace Listing

/-- The expressions that stand in a list, its result the last. -/
def exprs (listing : Listing) : List Expr :=
  Stmt.exprsAll listing.stmts ++ listing.result.toList

def ids (listing : Listing) : List Nat := listing.exprs.flatMap Expr.ids

def walk (listing : Listing) (state : State) : Walk State := do
  let last ← Stmt.walkAll listing.stmts state
  Expr.walkAll last listing.result.toList
  return last

end Listing

/-- Each node with an entry in the one flow has an entry in the other, and the fact there lies
    above. -/
def Flow.Within (flow other : Flow) : Prop :=
  ∀ id ∈ flow.table.facts, id ∈ other.table.facts ∧ flow.table.get id ≤ other.table.get id

namespace Func

/-- All that a function does. -/
def whole (func : Func) : Listing := { stmts := func.body, result := some func.result }

/-- The lists of statements in a function, the outermost one first. -/
def listings (func : Func) : List Listing :=
  func.whole ::
    ((Stmt.withinAll func.body).flatMap Stmt.bodies).map fun stmts => { stmts }

theorem walk_eq_whole (func : Func) : func.walk =
    func.whole.walk func.entryState >>= fun state =>
      Flow.report (.propagated func.name state) := rfl

end Func

end Wordlang
