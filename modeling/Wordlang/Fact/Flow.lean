import Wordlang.Event
import Wordlang.Fact.Table
import Wordlang.Tree.Basic

/-! # Flow of facts

What is known about every expression of a program, whatever its arguments. A
function is walked in the order in which it runs, with the facts about its
variables at each point. A call may change every variable, elements of arrays are
never known, and a loop is walked until another pass over its body adds nothing.
-/

namespace Wordlang

/-- What a walk leaves behind. -/
structure Flow where
  /-- Every fact found for a node, in the order of the walk. -/
  records : Array (Nat × Fact) := #[]
  events : Array Event := #[]

abbrev Walk := StateM Flow

namespace Flow

def record (id : Nat) (fact : Fact) : Walk Unit
  | { records, events } => ((), { records := records.push (id, fact), events })

def report (event : Event) : Walk Unit
  | { records, events } => ((), { records, events := events.push event })

def table (flow : Flow) : FactTable := .ofList flow.records.toList

end Flow

/-- Find the fact of an expression in a state, and record those of all its nodes. -/
def Expr.walk (state : State) : Expr → Walk Fact
  | int node value => do
      let fact := Fact.const (.ofNat 32 value)
      Flow.record node.id fact
      return fact
  | bool node value => do
      let fact := Fact.const (.ofBool value)
      Flow.record node.id fact
      return fact
  | var node name => do
      let fact := match state.fact? name with
        | some (.const value) => Fact.const value
        | _ => .top
      Flow.record node.id fact
      return fact
  | index node _ element => do
      let _ ← element.walk state
      Flow.record node.id .top
      return .top
  | unary node op operand => do
      let fact := op.fold (← operand.walk state)
      Flow.record node.id fact
      return fact
  | binary node op left right => do
      let a ← left.walk state
      let b ← right.walk state
      let fact := op.fold a b
      Flow.record node.id fact
      return fact

/-- Walk expressions from the first to the last. -/
def Expr.walkAll (state : State) : List Expr → Walk Unit
  | [] => return ()
  | e :: rest => do
      let _ ← e.walk state
      walkAll state rest

mutual

/-- The variables that a statement may assign, as often as it names them. -/
def Stmt.targets : Stmt → List String
  | .assign target _ => [target]
  | .assignIndex _ _ _ => []
  | .call _ target _ _ => [target]
  | .callIndex _ _ _ _ _ => []
  | .when _ body => targetsAll body
  | .choose _ thens elses => targetsAll thens ++ targetsAll elses
  | .loop _ body => targetsAll body
  | .block body => targetsAll body

/-- The variables that statements may assign. -/
def Stmt.targetsAll : List Stmt → List String
  | [] => []
  | stmt :: rest => stmt.targets ++ targetsAll rest

end

/-- Repeat the walk of a loop from the joined states until nothing changes, at
    most `fuel` times; the passes are counted from `pass`. -/
def Flow.untilStable (body : State → Walk State) (cond : Expr) :
    Nat → Nat → State → Walk State
  | 0, _, state => return state
  | fuel + 1, pass, state => do
      let after ← body state
      let _ ← cond.walk after
      let next := after.join state
      report (.loopPass pass next)
      if next = state then
        let _ ← cond.walk next
        return next
      else untilStable body cond fuel (pass + 1) next

/-- Enough passes for a loop that assigns the targets: a fact grows at most twice,
    and a pass that changes nothing is the last. -/
def Flow.passes (state : State) (targets : List String) : Nat :=
  1 + 2 * (state.length + targets.length)

mutual

/-- Walk a statement; the result is the state behind it. -/
def Stmt.walk : Stmt → State → Walk State
  | .assign target value, state => do
      return state.assign target (← value.walk state)
  | .assignIndex _ index value, state => do
      let _ ← index.walk state
      let _ ← value.walk state
      return state
  | .call _ target _ args, state => do
      Expr.walkAll state args
      return state.forget.assign target .top
  | .callIndex _ _ index _ args, state => do
      let _ ← index.walk state
      Expr.walkAll state args
      return state.forget
  | .when cond body, state => do
      match (← cond.walk state).const? with
      | some value => if value = 1 then walkAll body state else return state
      | none => return (← walkAll body state).join state
  | .choose cond thens elses, state => do
      match (← cond.walk state).const? with
      | some value => if value = 1 then walkAll thens state else walkAll elses state
      | none =>
          let taken ← walkAll thens state
          let notTaken ← walkAll elses state
          return taken.join notTaken
  | .loop cond body, state => do
      let fact ← cond.walk state
      if fact.isConst (· != 1) then return state
      else
        Flow.untilStable (walkAll body) cond (Flow.passes state (targetsAll body)) 1 state
  | .block body, state => walkAll body state

/-- Walk statements from the first to the last. -/
def Stmt.walkAll : List Stmt → State → Walk State
  | [], state => return state
  | stmt :: rest, state => do walkAll rest (← stmt.walk state)

end

/-- The state at the start of a function: its parameters and variables may hold
    anything. -/
def Func.entryState (func : Func) : State :=
  func.typing.foldl (fun state (name, _) => state.assign name .top) []

def Func.walk (func : Func) : Walk Unit := do
  let state ← Stmt.walkAll func.body func.entryState
  let _ ← func.result.walk state
  Flow.report (.propagated func.name state)

def Program.walk : Program → Walk Unit
  | [] => return ()
  | func :: rest => do
      func.walk
      Program.walk rest

def Program.flow (program : Program) : Flow := ((Program.walk program).run {}).2

end Wordlang
