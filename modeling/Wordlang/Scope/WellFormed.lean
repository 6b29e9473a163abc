import Wordlang.Tree.Basic

/-! # Well-formed programs

When a program uses all names as they are declared, said on its tree alone: which
names a function declares, what each of them may be used for, and which functions
it may call.
-/

namespace Wordlang

namespace Typing

/-- A name is a variable of one word. -/
def Scalar (typing : Typing) (name : String) : Prop :=
  (name, Ty.int) ∈ typing ∨ (name, Ty.bool) ∈ typing

/-- A name is an array. -/
def Array (typing : Typing) (name : String) : Prop :=
  ∃ length, (name, Ty.intarray length) ∈ typing

/-- A name is a function of the program with so many parameters, and no parameter
    or variable hides it. -/
def Callable (program : Program) (typing : Typing) (name : String) (args : Nat) : Prop :=
  name ∉ typing.map (·.1) ∧
    ∃ func ∈ program, func.name = name ∧ func.params.length = args

end Typing

/-- Every name in an expression is used as it is declared. -/
def Expr.WellFormed (typing : Typing) : Expr → Prop
  | int _ _ => True
  | bool _ _ => True
  | var _ name => typing.Scalar name
  | index _ name element => typing.Array name ∧ element.WellFormed typing
  | unary _ _ operand => operand.WellFormed typing
  | binary _ _ left right => left.WellFormed typing ∧ right.WellFormed typing

mutual

/-- Every name in a statement is used as it is declared. -/
def Stmt.WellFormed (program : Program) (typing : Typing) : Stmt → Prop
  | .assign target value => typing.Scalar target ∧ value.WellFormed typing
  | .assignIndex target index value =>
      typing.Array target ∧ index.WellFormed typing ∧ value.WellFormed typing
  | .call _ target callee args =>
      typing.Scalar target ∧ typing.Callable program callee args.length ∧
        ∀ arg ∈ args, arg.WellFormed typing
  | .callIndex _ target index callee args =>
      typing.Array target ∧ index.WellFormed typing ∧
        typing.Callable program callee args.length ∧ ∀ arg ∈ args, arg.WellFormed typing
  | .when cond body => cond.WellFormed typing ∧ AllWellFormed program typing body
  | .choose cond thens elses =>
      cond.WellFormed typing ∧ AllWellFormed program typing thens ∧
        AllWellFormed program typing elses
  | .loop cond body => cond.WellFormed typing ∧ AllWellFormed program typing body
  | .block body => AllWellFormed program typing body

/-- Every name in some statements is used as it is declared. -/
def Stmt.AllWellFormed (program : Program) (typing : Typing) : List Stmt → Prop
  | [] => True
  | stmt :: rest => stmt.WellFormed program typing ∧ AllWellFormed program typing rest

end

/-- A function declares each name once, takes words only, has no empty array, and
    uses all names as they are declared. -/
structure Func.WellFormed (program : Program) (func : Func) : Prop where
  names_nodup : (func.typing.map (·.1)).Nodup
  params_scalar : ∀ param ∈ func.params, ∀ length, param.type ≠ .intarray length
  arrays_nonempty : ∀ name, (name, Ty.intarray 0) ∉ func.typing
  body : Stmt.AllWellFormed program func.typing func.body
  result : func.result.WellFormed func.typing

/-- The functions have different names, and each of them is well formed. -/
structure Program.WellFormed (program : Program) : Prop where
  names_nodup : (List.map Func.name program).Nodup
  funcs : ∀ func ∈ program, func.WellFormed program

end Wordlang
