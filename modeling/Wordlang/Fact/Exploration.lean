import Mathlib.Data.List.Dedup
import Wordlang.Fact.Flow

/-! # Explorations

Walks in which no loop has a bound: the body is walked until a pass changes nothing,
however many passes that takes, and nothing says that there is a last one. An
exploration also keeps a list of the loops that it came to, with the passes each of
them took.
-/

namespace Wordlang

/-- A visit of a loop. -/
structure Visit where
  cond : Expr
  body : List Stmt
  /-- The state in which the walk came to the loop. -/
  entry : State
  /-- How often the body was walked. -/
  passes : Nat

namespace Visit

/-- The names that the body may assign and that the entry state does not have. -/
def missing (visit : Visit) : List String :=
  ((Stmt.targetsAll visit.body).filter (· ∉ visit.entry.map (·.1))).dedup

def constants (visit : Visit) : Nat := visit.entry.countP (·.2.const?.isSome)

end Visit

/-- What an exploration leaves behind. -/
structure Explored where
  flow : Flow := {}
  /-- The visits of loops in the order in which they ended. -/
  visits : List Visit := []

/-- A part of an exploration, which need not come to an end. -/
abbrev Exploration := StateT Explored Option

namespace Exploration

def ofWalk {α : Type} (walk : Walk α) : Exploration α
  | { flow, visits } =>
      let (result, flow) := walk.run flow
      some (result, { flow, visits })

def keep (visit : Visit) : Exploration Unit
  | { flow, visits } => some ((), { flow, visits := visits ++ [visit] })

end Exploration

open Exploration (ofWalk keep)

/-- Repeat the walk of a loop with this condition from the joined states until nothing changes.
    The passes are counted from `pass`; the last number is part of the result. -/
def Expr.exploreLoop (cond : Expr) (body : State → Exploration State) (pass : Nat)
    (state : State) : Exploration (Nat × State) := do
  let after ← body state
  let _ ← ofWalk (cond.walk after)
  let next := after.join state
  ofWalk (Flow.report (.loopPass pass next))
  if next = state then
    let _ ← ofWalk (cond.walk next)
    return (pass, next)
  else cond |>.exploreLoop body (pass + 1) next
partial_fixpoint

mutual

/-- Explore a statement; the result is the state behind it. -/
def Stmt.explore : Stmt → State → Exploration State
  | .assign target value, state => ofWalk (walk (.assign target value) state)
  | .assignIndex target index value, state => ofWalk (walk (.assignIndex target index value) state)
  | .call line target callee args, state => ofWalk (walk (.call line target callee args) state)
  | .callIndex line target index callee args, state =>
      ofWalk (walk (.callIndex line target index callee args) state)
  | .when cond body, state => do
      match (← ofWalk (cond.walk state)).const? with
      | some value => if value = 1 then exploreAll body state else return state
      | none => return (← exploreAll body state).join state
  | .choose cond thens elses, state => do
      match (← ofWalk (cond.walk state)).const? with
      | some value => if value = 1 then exploreAll thens state else exploreAll elses state
      | none =>
          let taken ← exploreAll thens state
          let notTaken ← exploreAll elses state
          return taken.join notTaken
  | .loop cond body, state => do
      let fact ← ofWalk (cond.walk state)
      if fact.isConst (· != 1) then
        keep { cond, body, entry := state, passes := 0 }
        return state
      else
        let (passes, stable) ← cond.exploreLoop (exploreAll body) 1 state
        keep { cond, body, entry := state, passes }
        return stable
  | .block body, state => exploreAll body state

/-- Explore statements from the first to the last. -/
def Stmt.exploreAll : List Stmt → State → Exploration State
  | [], state => return state
  | stmt :: rest, state => do exploreAll rest (← stmt.explore state)

end

def Func.explore (func : Func) : Exploration Unit := do
  let state ← Stmt.exploreAll func.body func.entryState
  let _ ← ofWalk (func.result.walk state)
  ofWalk (Flow.report (.propagated func.name state))

def Program.explore : Program → Exploration Unit
  | [] => return ()
  | func :: rest => do
      func.explore
      Program.explore rest

end Wordlang
