import Wordlang.Tree.Basic

/-! # Routes

The ways through statements that their shape alone allows: a body may be left out, either body of
a choice may be taken, and a loop may make any number of passes, whatever the conditions are. A
route lists the variables that are assigned on it.
-/

namespace Wordlang

mutual

/-- A route through a statement. -/
inductive Stmt.Route : Stmt → List String → Prop where
  | assign {target : String} {value : Expr} : Route (.assign target value) [target]
  | assignIndex {target : String} {index value : Expr} : Route (.assignIndex target index value) []
  | call {line : Nat} {target callee : String} {args : List Expr} :
      Route (.call line target callee args) [target]
  | callIndex {line : Nat} {target callee : String} {index : Expr} {args : List Expr} :
      Route (.callIndex line target index callee args) []
  | taken {cond : Expr} {body : List Stmt} {route : List String} :
      RouteAll body route → Route (.when cond body) route
  | skipped {cond : Expr} {body : List Stmt} : Route (.when cond body) []
  | first {cond : Expr} {thens elses : List Stmt} {route : List String} :
      RouteAll thens route → Route (.choose cond thens elses) route
  | second {cond : Expr} {thens elses : List Stmt} {route : List String} :
      RouteAll elses route → Route (.choose cond thens elses) route
  | done {cond : Expr} {body : List Stmt} : Route (.loop cond body) []
  | again {cond : Expr} {body : List Stmt} {route more : List String} :
      RouteAll body route → Route (.loop cond body) more → Route (.loop cond body) (route ++ more)
  | block {body : List Stmt} {route : List String} : RouteAll body route → Route (.block body) route

/-- A route through statements, one after the other. -/
inductive Stmt.RouteAll : List Stmt → List String → Prop where
  | nil : RouteAll [] []
  | cons {stmt : Stmt} {rest : List Stmt} {route more : List String} :
      Route stmt route → RouteAll rest more → RouteAll (stmt :: rest) (route ++ more)

end

mutual

/-- A route from the start of a statement to where one of its expressions is evaluated. -/
inductive Stmt.RouteTo : Stmt → Expr → List String → Prop where
  | assign {target : String} {value : Expr} : RouteTo (.assign target value) value []
  | assignIndex {target : String} {index value e : Expr} :
      e ∈ [index, value] → RouteTo (.assignIndex target index value) e []
  | call {line : Nat} {target callee : String} {args : List Expr} {e : Expr} :
      e ∈ args → RouteTo (.call line target callee args) e []
  | callIndex {line : Nat} {target callee : String} {index : Expr} {args : List Expr} {e : Expr} :
      e ∈ index :: args → RouteTo (.callIndex line target index callee args) e []
  | when {cond : Expr} {body : List Stmt} : RouteTo (.when cond body) cond []
  | taken {cond : Expr} {body : List Stmt} {e : Expr} {route : List String} :
      RouteToAll body e route → RouteTo (.when cond body) e route
  | choose {cond : Expr} {thens elses : List Stmt} : RouteTo (.choose cond thens elses) cond []
  | first {cond : Expr} {thens elses : List Stmt} {e : Expr} {route : List String} :
      RouteToAll thens e route → RouteTo (.choose cond thens elses) e route
  | second {cond : Expr} {thens elses : List Stmt} {e : Expr} {route : List String} :
      RouteToAll elses e route → RouteTo (.choose cond thens elses) e route
  /-- The condition of a loop is evaluated behind any number of passes. -/
  | loop {cond : Expr} {body : List Stmt} {route : List String} :
      Stmt.Route (.loop cond body) route → RouteTo (.loop cond body) cond route
  | again {cond : Expr} {body : List Stmt} {e : Expr} {route more : List String} :
      Stmt.Route (.loop cond body) route → RouteToAll body e more →
      RouteTo (.loop cond body) e (route ++ more)
  | block {body : List Stmt} {e : Expr} {route : List String} :
      RouteToAll body e route → RouteTo (.block body) e route

/-- A route from the start of statements to where one of their expressions is evaluated. -/
inductive Stmt.RouteToAll : List Stmt → Expr → List String → Prop where
  | here {stmt : Stmt} {rest : List Stmt} {e : Expr} {route : List String} :
      RouteTo stmt e route → RouteToAll (stmt :: rest) e route
  | later {stmt : Stmt} {rest : List Stmt} {e : Expr} {route more : List String} :
      Stmt.Route stmt route → RouteToAll rest e more → RouteToAll (stmt :: rest) e (route ++ more)

end

/-- A route from the start of a function to where one of its expressions is evaluated. -/
inductive Func.RouteTo (func : Func) : Expr → List String → Prop where
  | body {e : Expr} {route : List String} :
      Stmt.RouteToAll func.body e route → RouteTo func e route
  | result {route : List String} : Stmt.RouteAll func.body route → RouteTo func func.result route

namespace Stmt

variable {cond : Expr} {thens elses : List Stmt} {name : String}

/-- A choice assigns what both its bodies assign. -/
theorem Route.mem_choose {route : List String}
    (first : ∀ route, RouteAll thens route → name ∈ route)
    (second : ∀ route, RouteAll elses route → name ∈ route)
    (way : Route (.choose cond thens elses) route) : name ∈ route := by
  cases way with
  | first way => exact first _ way
  | second way => exact second _ way

/-- Statements assign what the first of them assigns. -/
theorem RouteAll.mem_assign {value : Expr} {rest : List Stmt} {route : List String}
    (way : RouteAll (.assign name value :: rest) route) : name ∈ route := by
  cases way with
  | cons first _ => cases first; simp

mutual

theorem RouteTo.mem_exprs {stmt : Stmt} {e : Expr} {route : List String} :
    RouteTo stmt e route → e ∈ stmt.exprs
  | .assign | .when | .choose | .loop _ => by simp [exprs]
  | .assignIndex mem | .call mem | .callIndex mem => mem
  | .taken way | .again _ way => List.mem_cons_of_mem _ way.mem_exprs
  | .first way => List.mem_cons_of_mem _ (List.mem_append_left _ way.mem_exprs)
  | .second way => List.mem_cons_of_mem _ (List.mem_append_right _ way.mem_exprs)
  | .block way => way.mem_exprs

theorem RouteToAll.mem_exprs {stmts : List Stmt} {e : Expr} {route : List String} :
    RouteToAll stmts e route → e ∈ exprsAll stmts
  | .here way => List.mem_append_left _ way.mem_exprs
  | .later _ way => List.mem_append_right _ way.mem_exprs

end

end Stmt

def Expr.literal? : Expr → Option Word
  | int _ value => some (.ofNat 32 value)
  | bool _ value => some (.ofBool value)
  | _ => none

end Wordlang
