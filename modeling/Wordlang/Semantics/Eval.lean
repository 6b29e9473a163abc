import Wordlang.Semantics.Store

/-! # Meaning of programs

What a program computes, said on its tree. A computation has no value when it
divides by zero, leaves the bounds of an array, or reads what was never assigned.
A condition is taken exactly when its value is 1. Each call works on a store of
its own.

`run` is limited by fuel, of which every statement takes one unit; what a program
computes is what it computes with some fuel.
-/

namespace Wordlang

/-- The value of an expression in a store. All operands are evaluated. -/
def Expr.eval? (store : Store) : Expr → Option Word
  | int _ value => some (.ofNat 32 value)
  | bool _ value => some (.ofBool value)
  | var _ name => store.word? name
  | index _ name element => do store.item? name (← element.eval? store)
  | unary _ op operand => do return op.eval (← operand.eval? store)
  | binary _ op left right => do
      let a ← left.eval? store
      let b ← right.eval? store
      if op = .div ∧ b = 0 then none else return op.eval a b

namespace Program

def find? (program : Program) (name : String) : Option Func :=
  List.find? (fun func => func.name = name) program

/-- How a call begins: the function that is called, and the store of its own. -/
def entry? (program : Program) (store : Store) (callee : String) (args : List Expr) :
    Option (Func × Store) := do
  let func ← program.find? callee
  let values ← args.mapM (·.eval? store)
  if func.params.length = values.length then return (func, func.entryStore values) else none

/-- A call that begins takes the values of its arguments, as many as there are parameters. -/
theorem entry?_eq_some {program : Program} {store inner : Store} {callee : String}
    {args : List Expr} {func : Func} (h : program.entry? store callee args = some (func, inner)) :
    ∃ values, func ∈ program ∧ func.name = callee ∧
      args.mapM (·.eval? store) = some values ∧ func.params.length = values.length ∧
        inner = func.entryStore values := by
  obtain ⟨found, isFound, h⟩ := Option.bind_eq_some_iff.mp h
  obtain ⟨values, evaluated, h⟩ := Option.bind_eq_some_iff.mp h
  split at h
  · next arity =>
    obtain ⟨rfl, rfl⟩ := Prod.mk.inj (Option.some.inj h)
    exact ⟨values, List.mem_of_find?_eq_some isFound,
      by simpa using List.find?_some isFound, evaluated, arity, rfl⟩
  · exact absurd h (by simp)

def run (program : Program) : Nat → List Stmt → Store → Option Store
  | 0, _, _ => none
  | _ + 1, [], store => some store
  | fuel + 1, .assign target value :: rest, store => do
      program.run fuel rest (← store.put target (← value.eval? store))
  | fuel + 1, .assignIndex target index value :: rest, store => do
      let i ← index.eval? store
      program.run fuel rest (← store.putItem target i (← value.eval? store))
  | fuel + 1, .call _ target callee args :: rest, store => do
      let (func, inner) ← program.entry? store callee args
      let last ← program.run fuel func.body inner
      program.run fuel rest (← store.put target (← func.result.eval? last))
  | fuel + 1, .callIndex _ target index callee args :: rest, store => do
      let i ← index.eval? store
      let (func, inner) ← program.entry? store callee args
      let last ← program.run fuel func.body inner
      program.run fuel rest (← store.putItem target i (← func.result.eval? last))
  | fuel + 1, .when cond body :: rest, store => do
      if (← cond.eval? store) = 1 then program.run fuel rest (← program.run fuel body store)
      else program.run fuel rest store
  | fuel + 1, .choose cond thens elses :: rest, store => do
      if (← cond.eval? store) = 1 then program.run fuel rest (← program.run fuel thens store)
      else program.run fuel rest (← program.run fuel elses store)
  | fuel + 1, .loop cond body :: rest, store => do
      if (← cond.eval? store) = 1 then
        program.run fuel (.loop cond body :: rest) (← program.run fuel body store)
      else program.run fuel rest store
  | fuel + 1, .block body :: rest, store => do
      program.run fuel rest (← program.run fuel body store)

/-- The value that a function of a program returns for some arguments. -/
def call? (program : Program) (fuel : Nat) (name : String) (args : List Word) : Option Word := do
  let func ← program.find? name
  if func.params.length = args.length then
    func.result.eval? (← program.run fuel func.body (func.entryStore args))
  else none

/-- A function returns a value for some arguments. -/
def Returns (program : Program) (name : String) (args : List Word) (value : Word) : Prop :=
  ∃ fuel, program.call? fuel name args = some value

/-- The expressions that running statements comes to evaluate, each with the store of
    that moment, those of called functions included. A run that breaks off, never ends
    or runs out of fuel evaluates what comes before. -/
def visits (program : Program) : Nat → List Stmt → Store → List (Expr × Store)
  | 0, _, _ => []
  | _ + 1, [], _ => []
  | fuel + 1, .assign target value :: rest, store =>
      (value, store) ::
        ((value.eval? store).bind (store.put target)).elim [] (program.visits fuel rest)
  | fuel + 1, .assignIndex target index value :: rest, store =>
      (index, store) :: (value, store) ::
        (index.eval? store).elim [] fun i =>
          ((value.eval? store).bind (store.putItem target i)).elim [] (program.visits fuel rest)
  | fuel + 1, .call _ target callee args :: rest, store =>
      args.map (·, store) ++ (program.entry? store callee args).elim [] fun (func, inner) =>
        program.visits fuel func.body inner ++
          (program.run fuel func.body inner).elim [] fun last => (func.result, last) ::
            ((func.result.eval? last).bind (store.put target)).elim [] (program.visits fuel rest)
  | fuel + 1, .callIndex _ target index callee args :: rest, store =>
      (index, store) :: (index.eval? store).elim [] fun i =>
        args.map (·, store) ++ (program.entry? store callee args).elim [] fun (func, inner) =>
          program.visits fuel func.body inner ++
            (program.run fuel func.body inner).elim [] fun last => (func.result, last) ::
              ((func.result.eval? last).bind (store.putItem target i)).elim []
                (program.visits fuel rest)
  | fuel + 1, .when cond body :: rest, store =>
      (cond, store) :: (cond.eval? store).elim [] fun test =>
        if test = 1 then program.visits fuel body store ++
          (program.run fuel body store).elim [] (program.visits fuel rest)
        else program.visits fuel rest store
  | fuel + 1, .choose cond thens elses :: rest, store =>
      (cond, store) :: (cond.eval? store).elim [] fun test =>
        let taken := if test = 1 then thens else elses
        program.visits fuel taken store ++
          (program.run fuel taken store).elim [] (program.visits fuel rest)
  | fuel + 1, .loop cond body :: rest, store =>
      (cond, store) :: (cond.eval? store).elim [] fun test =>
        if test = 1 then program.visits fuel body store ++
          (program.run fuel body store).elim [] (program.visits fuel (.loop cond body :: rest))
        else program.visits fuel rest store
  | fuel + 1, .block body :: rest, store =>
      program.visits fuel body store ++
        (program.run fuel body store).elim [] (program.visits fuel rest)

/-- The expressions that a call of a function comes to evaluate: those of its body and
    of the calls there, and in the end its result. -/
def activity (program : Program) (fuel : Nat) (func : Func) (args : List Word) :
    List (Expr × Store) :=
  program.visits fuel func.body (func.entryStore args) ++
    (program.run fuel func.body (func.entryStore args)).elim [] fun last => [(func.result, last)]

end Program

end Wordlang
