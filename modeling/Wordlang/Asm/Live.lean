import Wordlang.Asm.Program
import Wordlang.Fact.Flow

/-! # Live statements

What code generation makes code of, once it knows some conditions: a body that a known
condition keeps from running is left out, with all the statements in it. The condition
itself stays, and so does the result of a function. Where code generation comes to while
it works is said apart from that, by the bodies that it goes into.
-/

namespace Wordlang

/-- The value that an expression has according to a table, if that is only one. -/
def FactTable.known (facts : FactTable) (e : Expr) : Option Word := (facts.get e.id).const?

section Live

variable (known : Expr → Option Word)

mutual

/-- A statement with its live bodies. A condition that is not known keeps both of its
    ways open. -/
def Stmt.live : Stmt → Stmt
  | .when cond body => .when cond (if (known cond).all (· == 1) then liveAll body else [])
  | .choose cond thens elses =>
      .choose cond (if (known cond).all (· == 1) then liveAll thens else [])
        (if (known cond).all (· != 1) then liveAll elses else [])
  | .loop cond body => .loop cond (if (known cond).all (· == 1) then liveAll body else [])
  | .block body => .block (liveAll body)
  | stmt => stmt

def Stmt.liveAll : List Stmt → List Stmt
  | [] => []
  | stmt :: rest => stmt.live :: liveAll rest

end

/-- A function with the live bodies of its statements. -/
def Func.live (func : Func) : Func := { func with body := Stmt.liveAll known func.body }

def Program.live (program : Program) : Program := program.map (Func.live known)

end Live

def Program.livePart (program : Program) : Program :=
  program.live (Program.flow program).table.known

mutual

/-- A statement and all statements in its bodies. -/
def Stmt.within : Stmt → List Stmt
  | stmt@(.when _ body) => stmt :: withinAll body
  | stmt@(.choose _ thens elses) => stmt :: (withinAll thens ++ withinAll elses)
  | stmt@(.loop _ body) => stmt :: withinAll body
  | stmt@(.block body) => stmt :: withinAll body
  | stmt => [stmt]

/-- Statements and all statements in their bodies. -/
def Stmt.withinAll : List Stmt → List Stmt
  | [] => []
  | stmt :: rest => stmt.within ++ withinAll rest

end

/-- The lists of statements that stand in a statement, those in their statements left out. -/
def Stmt.bodies : Stmt → List (List Stmt)
  | .assign _ _ => []
  | .assignIndex _ _ _ => []
  | .call _ _ _ _ => []
  | .callIndex _ _ _ _ _ => []
  | .when _ body => [body]
  | .choose _ thens elses => [thens, elses]
  | .loop _ body => [body]
  | .block body => [body]

/-- The expressions of a statement that stand in none of its bodies. -/
def Stmt.own : Stmt → List Expr
  | .assign _ value => [value]
  | .assignIndex _ index value => [index, value]
  | .call _ _ _ args => args
  | .callIndex _ _ index _ args => index :: args
  | .when cond _ => [cond]
  | .choose cond _ _ => [cond]
  | .loop cond _ => [cond]
  | .block _ => []

namespace Asm

/-- The bodies that code generation goes into while it makes the code of a statement, each
    behind the code in front of it. -/
def Context.bodies (ctx : Context) : Stmt → List (Gen Code × List Stmt)
  | .when cond body =>
      match ctx.known cond with
      | some value => if value = 1 then [(return ctx.note "if folded to true", body)] else []
      | none =>
          [(do
            let number ← newNumber
            let test ← conditionCode ctx cond
            return test ++ [.instr (.jump .notEqual (.whenDone number))], body)]
  | .choose cond thens elses =>
      match ctx.known cond with
      | some value =>
          if value = 1 then [(return ctx.note "if/else folded to true", thens)]
          else [(return ctx.note "if/else folded to false", elses)]
      | none =>
          [(do
            let elseNumber ← newNumber
            let _ ← newNumber
            let test ← conditionCode ctx cond
            return test ++ [.instr (.jump .notEqual (.otherwise elseNumber))], thens),
          (do
            let elseNumber ← newNumber
            let doneNumber ← newNumber
            let test ← conditionCode ctx cond
            let first ← stmtsCode ctx thens
            return test ++ [.instr (.jump .notEqual (.otherwise elseNumber))] ++ first ++
              [.instr (.jump .always (.chooseDone doneNumber)), .label (.otherwise elseNumber)],
            elses)]
  | .loop cond body =>
      match ctx.known cond with
      | some value =>
          if value = 1 then
            [(do
              let number ← newNumber
              return ctx.note "while folded to true" ++ [.label (.loop number)], body)]
          else []
      | none =>
          [(do
            let number ← newNumber
            let test ← conditionCode ctx cond
            return [.label (.loop number)] ++ test ++
              [.instr (.jump .notEqual (.loopDone number))], body)]
  | .block body => [(return [], body)]
  | _ => []

/-- While the code of some statements is made from a label number on, code generation comes to
    a statement: the next label is then number `k`, and some code is in front. -/
inductive Context.Comes (ctx : Context) (part : Stmt) (k : Nat) :
    List Stmt → Nat → Code → Prop where
  | here {rest : List Stmt} : Comes ctx part k (part :: rest) k []
  | behind {stmt : Stmt} {rest : List Stmt} {n n₁ : Nat} {first front : Code} :
      (stmtCode ctx stmt).run n = .ok (first, n₁) → Comes ctx part k rest n₁ front →
      Comes ctx part k (stmt :: rest) n (first ++ front)
  | inside {stmt : Stmt} {rest body : List Stmt} {before : Gen Code} {n n₁ : Nat}
      {first front : Code} : (before, body) ∈ ctx.bodies stmt →
      before.run n = .ok (first, n₁) → Comes ctx part k body n₁ front →
      Comes ctx part k (stmt :: rest) n (first ++ front)

/-- While the code of some functions is made, code generation comes to a statement in a function
    with a scope. -/
inductive Comes (options : Options) (facts : FactTable) (symbols : Table) (scope : Nat)
    (part : Stmt) (k : Nat) : List Func → Nat → Code → Prop where
  | here {func : Func} {rest : List Func} {n : Nat} {front : Code} : func.scope = some scope →
      (Context.ofScope options facts symbols scope).Comes part k func.body n front →
      Comes options facts symbols scope part k (func :: rest) n
        (prologue (.ofScope options facts symbols scope) func.name
          (symbols.scopeSize scope - func.params.length * wordSize) func.params.length ++ front)
  | behind {func : Func} {rest : List Func} {n n₁ : Nat} {first front : Code} :
      (funcCode options facts symbols func).run n = .ok (first, n₁) →
      Comes options facts symbols scope part k rest n₁ front →
      Comes options facts symbols scope part k (func :: rest) n (first ++ front)

/-- Behind a front, the code of a statement stands in some code. -/
def Context.HasCode (ctx : Context) (code front : Code) (k : Nat) (stmt : Stmt) : Prop :=
  ∃ inner k', (stmtCode ctx stmt).run k = .ok (inner, k') ∧ front ++ inner <+: code

/-- What code generation visits of a program is another program. It makes the same of both. It
    comes to every statement of the other one, in the scope of its function, and puts its code
    there. The expressions of the other one are those of the statements of the program that code
    generation comes to, and the results of its functions. -/
structure Visits (options : Options) (facts : FactTable) (symbols : Table)
    (program visited : Program) : Prop where
  same : generate options facts symbols visited = generate options facts symbols program
  each : ∃ code labels, generate options facts symbols visited = .ok (code, labels) ∧
    ∀ func ∈ visited, ∀ stmt ∈ Stmt.withinAll func.body, ∃ scope k front,
      func.scope = some scope ∧ Comes options facts symbols scope stmt k visited 0 front ∧
      (Context.ofScope options facts symbols scope).HasCode code (header ++ front) k stmt
  exprs : ∀ e, (∃ func ∈ visited, e ∈ func.exprs) ↔
    (∃ scope stmt k front, Comes options facts symbols scope stmt k program 0 front ∧
      e ∈ stmt.own) ∨ ∃ func ∈ program, e = func.result

end Asm

end Wordlang
