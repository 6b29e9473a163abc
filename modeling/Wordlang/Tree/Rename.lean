import Wordlang.Tree.Basic

/-! # Renaming of variables

A function with other names for its parameters and variables, wherever it declares, assigns or
reads them. What it calls keeps its name.
-/

namespace Wordlang

/-- An expression with other names for its variables. -/
def Expr.rename (ρ : String → String) : Expr → Expr
  | int node value => int node value
  | bool node value => bool node value
  | var node name => var node (ρ name)
  | index node name element => index node (ρ name) (element.rename ρ)
  | unary node op operand => unary node op (operand.rename ρ)
  | binary node op left right => binary node op (left.rename ρ) (right.rename ρ)

@[simp] theorem Expr.id_rename (ρ : String → String) (e : Expr) : (e.rename ρ).id = e.id := by
  cases e <;> rfl

theorem Expr.parts_rename (ρ : String → String) (e : Expr) :
    (e.rename ρ).parts = e.parts.map (Expr.rename ρ) := by
  induction e with
  | int | bool | var => rfl
  | index _ _ element ih => simp [rename, parts, ih]
  | unary _ _ operand ih => simp [rename, parts, ih]
  | binary _ _ left right ihLeft ihRight => simp [rename, parts, ihLeft, ihRight]

mutual

/-- A statement with other names for its variables. -/
def Stmt.rename (ρ : String → String) : Stmt → Stmt
  | .assign target value => .assign (ρ target) (value.rename ρ)
  | .assignIndex target index value =>
      .assignIndex (ρ target) (index.rename ρ) (value.rename ρ)
  | .call line target callee args => .call line (ρ target) callee (args.map (Expr.rename ρ))
  | .callIndex line target index callee args =>
      .callIndex line (ρ target) (index.rename ρ) callee (args.map (Expr.rename ρ))
  | .when cond body => .when (cond.rename ρ) (renameAll ρ body)
  | .choose cond thens elses =>
      .choose (cond.rename ρ) (renameAll ρ thens) (renameAll ρ elses)
  | .loop cond body => .loop (cond.rename ρ) (renameAll ρ body)
  | .block body => .block (renameAll ρ body)

/-- Statements with other names for their variables. -/
def Stmt.renameAll (ρ : String → String) : List Stmt → List Stmt
  | [] => []
  | stmt :: rest => stmt.rename ρ :: renameAll ρ rest

end

/-- A function with other names for its parameters and variables. -/
def Func.rename (ρ : String → String) (func : Func) : Func :=
  { func with
    params := func.params.map fun param => { param with name := ρ param.name }
    decls := func.decls.map fun decl => { decl with names := decl.names.map ρ }
    body := Stmt.renameAll ρ func.body
    result := func.result.rename ρ }

theorem Expr.rename_self (e : Expr) : e.rename (fun name => name) = e := by
  induction e with
  | int | bool | var => rfl
  | index _ _ _ ih => rw [rename, ih]
  | unary _ _ _ ih => rw [rename, ih]
  | binary _ _ _ _ ihLeft ihRight => rw [rename, ihLeft, ihRight]

theorem Expr.map_rename_self (es : List Expr) : es.map (Expr.rename fun name => name) = es :=
  (List.map_congr_left fun e _ => e.rename_self).trans (List.map_id es)

mutual

theorem Stmt.rename_self (stmt : Stmt) : stmt.rename (fun name => name) = stmt := by
  cases stmt with
  | assign | assignIndex => simp only [rename, Expr.rename_self]
  | call | callIndex => simp only [rename, Expr.rename_self, Expr.map_rename_self]
  | when _ body | loop _ body | block body =>
      simp only [rename, Expr.rename_self, renameAll_self body]
  | choose _ thens elses =>
      simp only [rename, Expr.rename_self, renameAll_self thens, renameAll_self elses]

theorem Stmt.renameAll_self (stmts : List Stmt) : renameAll (fun name => name) stmts = stmts := by
  cases stmts with
  | nil => rfl
  | cons stmt rest => rw [renameAll, rename_self stmt, renameAll_self rest]

end

theorem Func.rename_self (func : Func) : func.rename (fun name => name) = func := by
  simp [rename, Stmt.renameAll_self, Expr.rename_self]

/-- A list of named values with other names for them. -/
def renameKeys {α : Type} (ρ : String → String) (entries : List (String × α)) :
    List (String × α) :=
  entries.map fun entry => (ρ entry.1, entry.2)

@[simp] theorem renameKeys_cons {α : Type} (ρ : String → String) (entry : String × α)
    (rest : List (String × α)) :
    renameKeys ρ (entry :: rest) = (ρ entry.1, entry.2) :: renameKeys ρ rest := rfl

@[simp] theorem map_fst_renameKeys {α : Type} (ρ : String → String)
    (entries : List (String × α)) :
    (renameKeys ρ entries).map (·.1) = (entries.map (·.1)).map ρ := by
  simp [renameKeys]

@[simp] theorem length_renameKeys {α : Type} (ρ : String → String)
    (entries : List (String × α)) : (renameKeys ρ entries).length = entries.length :=
  List.length_map _

theorem mem_renameKeys {α : Type} {ρ : String → String} {entries : List (String × α)}
    {name : String} {value : α} (mem : (name, value) ∈ entries) :
    (ρ name, value) ∈ renameKeys ρ entries :=
  List.mem_map.mpr ⟨_, mem, rfl⟩

/-- The variables of a function keep their types and their order. -/
@[simp] theorem Func.typing_rename (ρ : String → String) (func : Func) :
    (func.rename ρ).typing = renameKeys ρ func.typing := by
  simp [typing, rename, renameKeys, List.map_flatMap, List.flatMap_map, Function.comp_def]

end Wordlang
