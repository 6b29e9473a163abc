import Mathlib.Algebra.Order.Ring.Nat
import Mathlib.Data.List.Nodup
import Wordlang.Proofs.Success
import Wordlang.Scope.Check

/-! # Scopes of checked programs

Checking declares the functions of a program in the global scope and then opens
one scope for each function, in which its parameters and variables lie one behind
the other. `Program.check_eq_ok` says all that a successful check leaves behind:
no scope changes after its function, so that names mean to the code what they
meant to the check.
-/

namespace Wordlang

/-- Where names are different, a name has the one value that stands beside it. -/
theorem lookup_eq_some_iff_mem {α : Type} {entries : List (String × α)} {name : String} {value : α}
    (nodup : (entries.map (·.1)).Nodup) :
    entries.lookup name = some value ↔ (name, value) ∈ entries := by
  induction entries with
  | nil => simp
  | cons entry rest ih =>
      obtain ⟨other, otherValue⟩ := entry
      obtain ⟨fresh, nodup⟩ := List.nodup_cons.mp nodup
      rw [List.lookup_cons, List.mem_cons, Prod.mk.injEq]
      cases same : name == other with
      | false =>
          have different : name ≠ other := by simpa using same
          simp [ih nodup, different]
      | true =>
          obtain rfl : name = other := by simpa using same
          have absent : (name, value) ∉ rest := fun mem =>
            fresh (List.mem_map.mpr ⟨_, mem, rfl⟩)
          simp [absent, eq_comm]

theorem Scope.find?_eq_none {scope : Scope} {name : String} :
    scope.find? name = none ↔ name ∉ scope.symbols.map (·.1) := by
  rw [find?, List.lookup_eq_none_iff]
  simp only [List.mem_map, not_exists, not_and, bne_iff_ne]
  exact forall₂_congr fun _ _ => ne_comm

namespace Typing

/-- The symbols of variables that lie one behind the other. -/
def layoutFrom : Nat → Typing → List (String × Symbol)
  | _, [] => []
  | offset, (name, type) :: rest =>
      (name, { kind := type.symbolKind, offset, length := type.length }) ::
        layoutFrom (offset + type.length * wordSize) rest

/-- The scope of a function with these parameters and variables. -/
def scope (typing : Typing) : Scope :=
  { parent := some Table.globalScope, symbols := layoutFrom 0 typing, size := typing.size }

@[simp] theorem size_append (first second : Typing) :
    size (first ++ second) = first.size + second.size := by
  induction first with
  | nil => exact (Nat.zero_add _).symm
  | cons entry rest ih => simp only [List.cons_append, size, ih, Nat.add_assoc]

@[simp] theorem size_singleton (name : String) (type : Ty) :
    size [(name, type)] = type.length * wordSize := by
  simp [size]

theorem layoutFrom_append (offset : Nat) (first second : Typing) :
    layoutFrom offset (first ++ second) =
      layoutFrom offset first ++ layoutFrom (offset + first.size) second := by
  induction first generalizing offset with
  | nil => simp [layoutFrom, size]
  | cons entry rest ih =>
      obtain ⟨name, type⟩ := entry
      simp only [List.cons_append, layoutFrom, ih]
      simp [size, Nat.add_assoc]

theorem map_fst_layoutFrom (offset : Nat) (typing : Typing) :
    (layoutFrom offset typing).map (·.1) = typing.map (·.1) := by
  induction typing generalizing offset with
  | nil => rfl
  | cons entry rest ih =>
      obtain ⟨name, type⟩ := entry
      simp only [layoutFrom, List.map_cons, ih]

/-- A variable lies behind those declared before it. -/
theorem lookup_layoutFrom {offset : Nat} {before after : Typing} {name : String} {type : Ty}
    (fresh : name ∉ before.map (·.1)) :
    (layoutFrom offset (before ++ (name, type) :: after)).lookup name =
      some { kind := type.symbolKind, offset := offset + before.size, length := type.length } := by
  have unknown : (layoutFrom offset before).lookup name = none := by
    rw [← map_fst_layoutFrom offset] at fresh
    exact List.lookup_eq_none_iff.mpr fun entry mem => by
      simpa using fun same => fresh (List.mem_map.mpr ⟨entry, mem, same.symm⟩)
  rw [layoutFrom_append, List.lookup_append, unknown, layoutFrom]
  simp

end Typing

/-- The names of a list of variables are different, and each of them takes some words. -/
structure Typing.Distinct (typing : Typing) : Prop where
  names_nodup : (typing.map (·.1)).Nodup
  nonempty : ∀ entry ∈ typing, entry.2 ≠ .intarray 0

theorem Typing.distinct_nil : Distinct [] := ⟨List.nodup_nil, by simp⟩

theorem Typing.distinct_append_singleton {typing : Typing} {name : String} {type : Ty} :
    Distinct (typing ++ [(name, type)]) ↔
      typing.Distinct ∧ type ≠ .intarray 0 ∧ name ∉ typing.map (·.1) := by
  constructor
  · rintro ⟨nodup, nonempty⟩
    rw [List.map_append, List.nodup_append] at nodup
    refine ⟨⟨nodup.1, fun entry mem => nonempty entry (List.mem_append_left _ mem)⟩,
      nonempty (name, type) (by simp), fun mem => ?_⟩
    exact nodup.2.2 name mem name (by simp) rfl
  · rintro ⟨⟨nodup, nonempty⟩, words, fresh⟩
    refine ⟨?_, fun entry mem => ?_⟩
    · rw [List.map_append, List.nodup_append]
      refine ⟨nodup, by simp, ?_⟩
      rintro x mem y own rfl
      obtain rfl : x = name := by simpa using own
      exact fresh mem
    · obtain mem | rfl := by simpa using mem
      · exact nonempty entry mem
      · exact words

theorem Typing.Distinct.of_append {first second : Typing} (h : Distinct (first ++ second)) :
    first.Distinct where
  names_nodup := (List.nodup_append.mp (List.map_append ▸ h.names_nodup)).1
  nonempty entry mem := h.nonempty entry (List.mem_append_left _ mem)

namespace Table

/-- A table whose last scope holds parameters and variables. -/
def ofTyping (scopes : Array Scope) (typing : Typing) : Table :=
  { scopes := scopes.push typing.scope }

theorem find?_scope {typing : Typing} {name : String} :
    typing.scope.find? name = none ↔ name ∉ typing.map (·.1) := by
  rw [Scope.find?_eq_none, Typing.scope, Typing.map_fst_layoutFrom]

theorem declareVar_eq_ok {scopes : Array Scope} {typing : Typing} {name : String} {type : Ty}
    {line : Nat} {table : Table} :
    (ofTyping scopes typing).declareVar scopes.size name type line = .ok table ↔
      type ≠ .intarray 0 ∧ name ∉ typing.map (·.1) ∧
        table = ofTyping scopes (typing ++ [(name, type)]) := by
  have last : (ofTyping scopes typing).scopes[scopes.size]? = some typing.scope := by
    simp [ofTyping]
  have added : typing.scope.add name (typing.scope.place type.symbolKind type.length) =
      Typing.scope (typing ++ [(name, type)]) := by
    simp only [Scope.add, Scope.place, Typing.scope, Typing.layoutFrom_append, Typing.size_append,
      Typing.layoutFrom, Symbol.size, Typing.size_singleton, Nat.zero_add]
  unfold declareVar
  split
  · next empty => simp [empty, throw, throwThe, MonadExceptOf.throw]
  · next words =>
    simp only [declare, insert, last]
    cases found : typing.scope.find? name with
    | some symbol =>
        have known : name ∈ typing.map (·.1) :=
          Decidable.of_not_not fun fresh => by simp [find?_scope.mpr fresh] at found
        simp [known, throw, throwThe, MonadExceptOf.throw]
    | none =>
        have replaced : (Table.mk ((ofTyping scopes typing).scopes.setIfInBounds scopes.size
            (typing.scope.add name (typing.scope.place type.symbolKind type.length)))) =
            ofTyping scopes (typing ++ [(name, type)]) := by
          rw [added]
          simp [ofTyping, Array.setIfInBounds, Array.set_push]
        simp [words, find?_scope.mp found, replaced, pure, Except.pure, eq_comm]

theorem foldlM_eq_ok {α : Type} {step : Table → α → Except CompileError Table}
    {vars : α → Typing} {valid : α → Prop} {scopes : Array Scope}
    (one : ∀ typing item table, typing.Distinct →
      (step (ofTyping scopes typing) item = .ok table ↔ valid item ∧
        (typing ++ vars item).Distinct ∧ table = ofTyping scopes (typing ++ vars item)))
    {items : List α} {typing : Typing} {table : Table} (distinct : typing.Distinct) :
    items.foldlM step (ofTyping scopes typing) = .ok table ↔ (∀ item ∈ items, valid item) ∧
      (typing ++ items.flatMap vars).Distinct ∧
      table = ofTyping scopes (typing ++ items.flatMap vars) := by
  induction items generalizing typing with
  | nil => simp [distinct, pure, Except.pure, eq_comm]
  | cons item rest ih =>
      simp only [List.foldlM_cons, bind_eq_ok, one _ _ _ distinct, List.forall_mem_cons,
        List.flatMap_cons, ← List.append_assoc]
      constructor
      · rintro ⟨_, ⟨first, distinct', rfl⟩, later⟩
        obtain ⟨others, rest⟩ := (ih distinct').mp later
        exact ⟨⟨first, others⟩, rest⟩
      · rintro ⟨⟨first, others⟩, rest⟩
        have distinct' := rest.1.of_append
        exact ⟨_, ⟨first, distinct', rfl⟩, (ih distinct').mpr ⟨others, rest⟩⟩

private theorem declareDecl_eq_ok {scopes : Array Scope} {typing : Typing} {decl : Decl}
    {table : Table}
    (distinct : typing.Distinct) :
    (ofTyping scopes typing).declareDecl scopes.size decl = .ok table ↔
      (typing ++ decl.names.map (·, decl.type)).Distinct ∧
        table = ofTyping scopes (typing ++ decl.names.map (·, decl.type)) := by
  have one : ∀ (typing : Typing) name table, typing.Distinct →
      ((ofTyping scopes typing).declareVar scopes.size name decl.type decl.line = .ok table ↔
        True ∧ (typing ++ [(name, decl.type)]).Distinct ∧
          table = ofTyping scopes (typing ++ [(name, decl.type)])) := by
    intro typing name table distinct
    rw [declareVar_eq_ok, Typing.distinct_append_singleton]
    simp only [true_and, distinct, and_assoc]
  unfold declareDecl
  rw [foldlM_eq_ok one distinct]
  simp [List.map_eq_flatMap]

private theorem declareParam_eq_ok {scopes : Array Scope} {typing : Typing} {param : Param}
    {table : Table}
    (distinct : typing.Distinct) :
    (ofTyping scopes typing).declareParam scopes.size param = .ok table ↔
      (∀ length, param.type ≠ .intarray length) ∧
        (typing ++ [(param.name, param.type)]).Distinct ∧
          table = ofTyping scopes (typing ++ [(param.name, param.type)]) := by
  unfold declareParam
  split
  · next length isArray => simp [isArray, throw, throwThe, MonadExceptOf.throw]
  · next scalar =>
    rw [declareVar_eq_ok, Typing.distinct_append_singleton]
    simp only [distinct, true_and, and_assoc]
    exact ⟨fun h => ⟨scalar, h⟩, fun h => h.2⟩

private theorem declareParams_eq_ok {scopes : Array Scope} {typing : Typing} {params : List Param}
    {table : Table} (distinct : typing.Distinct) :
    params.foldlM (fun table param => table.declareParam scopes.size param)
        (ofTyping scopes typing) = .ok table ↔
      (∀ param ∈ params, ∀ length, param.type ≠ .intarray length) ∧
        (typing ++ params.map fun param => (param.name, param.type)).Distinct ∧
          table = ofTyping scopes (typing ++ params.map fun param => (param.name, param.type)) := by
  rw [List.map_eq_flatMap]
  exact foldlM_eq_ok (fun _ _ _ distinct => declareParam_eq_ok distinct) distinct

theorem declareDecls_eq_ok {scopes : Array Scope} {typing : Typing} {decls : List Decl}
    {table : Table} (distinct : typing.Distinct) :
    decls.foldlM (fun table decl => table.declareDecl scopes.size decl)
        (ofTyping scopes typing) = .ok table ↔
      (typing ++ decls.flatMap fun decl => decl.names.map (·, decl.type)).Distinct ∧
        table = ofTyping scopes
          (typing ++ decls.flatMap fun decl => decl.names.map (·, decl.type)) := by
  have one : ∀ (typing : Typing) (decl : Decl) table, typing.Distinct →
      ((ofTyping scopes typing).declareDecl scopes.size decl = .ok table ↔ True ∧
        (typing ++ decl.names.map (·, decl.type)).Distinct ∧
          table = ofTyping scopes (typing ++ decl.names.map (·, decl.type))) := by
    intro typing decl table distinct
    rw [true_and]
    exact declareDecl_eq_ok distinct
  rw [foldlM_eq_ok one distinct]
  simp

/-- Parameters and variables are declared exactly when they are different and have words,
    and then the new scope lists them one behind the other. -/
theorem declareLocals_eq_ok {table table' : Table} {func : Func} {scope : Nat} :
    table.declareLocals func = .ok (scope, table') ↔
      (∀ param ∈ func.params, ∀ length, param.type ≠ .intarray length) ∧
        func.typing.Distinct ∧ scope = table.scopes.size ∧
          table' = ofTyping table.scopes func.typing := by
  have opened : table.openScope globalScope = (table.scopes.size, ofTyping table.scopes []) := rfl
  simp only [declareLocals, opened, bind_eq_ok, declareParams_eq_ok Typing.distinct_nil, pure,
    Except.pure, Except.ok.injEq, Prod.mk.injEq, List.nil_append]
  constructor
  · rintro ⟨_, ⟨scalar, params, rfl⟩, _, declared, rfl, rfl⟩
    obtain ⟨distinct, rfl⟩ := (declareDecls_eq_ok params).mp declared
    exact ⟨scalar, distinct, rfl, rfl⟩
  · rintro ⟨scalar, distinct, rfl, rfl⟩
    have params := Typing.Distinct.of_append distinct
    exact ⟨_, ⟨scalar, params, rfl⟩, _, (declareDecls_eq_ok params).mpr ⟨distinct, rfl⟩, rfl, rfl⟩

end Table

namespace Lookup

variable {lookup : Lookup} {name : String} {line : Nat}

theorem scalar_eq_ok : lookup.scalar name line = .ok () ↔
    ∃ symbol, lookup name = some symbol ∧ symbol.isScalar = true := by
  unfold scalar
  cases lookup name with
  | none => simp [throw_ne_ok]
  | some symbol =>
      cases isScalar : symbol.isScalar <;> simp [throw_ne_ok, isScalar, pure, Except.pure]

theorem array_eq_ok : lookup.array name line = .ok () ↔
    ∃ symbol, lookup name = some symbol ∧ symbol.isArray = true := by
  unfold array
  cases lookup name with
  | none => simp [throw_ne_ok]
  | some symbol =>
      cases isArray : symbol.isArray <;> simp [throw_ne_ok, isArray, pure, Except.pure]

theorem callee_eq_ok {args : Nat} : lookup.callee name args line = .ok () ↔
    ∃ symbol, lookup name = some symbol ∧ symbol.params? = some args := by
  unfold callee
  cases lookup name with
  | none => simp [throw_ne_ok]
  | some symbol =>
      cases isFunc : symbol.params? with
      | none => simp [throw_ne_ok, isFunc]
      | some params =>
          by_cases same : params = args <;> simp [throw_ne_ok, isFunc, same, pure, Except.pure]

end Lookup

/-- The scope in which functions are declared. They take no room. -/
def Program.globalScope (program : Program) : Scope where
  parent := none
  symbols := program.map fun func =>
    (func.name, { kind := .function func.params.length func.returns, offset := 0, length := 0 })

/-- What names mean in a function: its parameters and variables hide the functions. -/
def Func.lookup (program : Program) (func : Func) : Lookup := fun name =>
  (func.typing.scope.find? name).or (Program.globalScope program |>.find? name)

namespace Table

def ofFuncs (program : Program) (funcs : List Func) : Table :=
  { scopes := #[Program.globalScope program] ++ (funcs.map (·.typing.scope)).toArray }

theorem find?_globalScope {program : Program} {name : String} :
    (Program.globalScope program).find? name = none ↔ name ∉ program.map Func.name := by
  rw [Scope.find?, Program.globalScope, List.lookup_eq_none_iff]
  simp only [List.mem_map, forall_exists_index, and_imp, forall_apply_eq_imp_iff₂, bne_iff_ne,
    not_exists, not_and]
  exact forall₂_congr fun _ _ => ne_comm

theorem declareFuncs_eq_ok {before after : Program} {table : Table}
    (nodup : (before.map Func.name).Nodup) :
    (ofFuncs before []).declareFuncs after = .ok table ↔
      ((before ++ after).map Func.name).Nodup ∧ table = ofFuncs (before ++ after) [] := by
  induction after generalizing before with
  | nil => simp [declareFuncs, nodup, pure, Except.pure, eq_comm]
  | cons func rest ih =>
      have global :
          (ofFuncs before []).scopes[globalScope]? = some (Program.globalScope before) := by
        simp [ofFuncs, globalScope]
      have split_ : before ++ func :: rest = (before ++ [func]) ++ rest := by simp
      simp only [declareFuncs, declareFunc, insert, global]
      cases found : (Program.globalScope before).find? func.name with
      | some symbol =>
          have known : func.name ∈ before.map Func.name :=
            Decidable.of_not_not fun fresh => by simp [find?_globalScope.mpr fresh] at found
          have twice : ¬ ((before ++ func :: rest).map Func.name).Nodup := by
            rw [List.map_append, List.nodup_append]
            exact fun h => h.2.2 _ known _ (by simp) rfl
          simp only [throw_ne_ok, twice, false_and]
      | none =>
          have fresh := find?_globalScope.mp found
          have nodup' : ((before ++ [func]).map Func.name).Nodup := by
            rw [List.map_append, List.nodup_append]
            exact ⟨nodup, by simp, fun _ mem _ own same => fresh (by simp_all)⟩
          have declared : Table.mk ((ofFuncs before []).scopes.setIfInBounds globalScope
              ((Program.globalScope before).add func.name
                ((Program.globalScope before).place (.function func.params.length func.returns) 0)))
                = ofFuncs (before ++ [func]) [] := by
            simp [ofFuncs, globalScope, Scope.add, Scope.place, Program.globalScope, Symbol.size]
          rw [split_, ← ih nodup', ← declared]

/-- From the scope of a function the way outward leads to the functions and ends there. -/
theorem lookup_ofFuncs {program funcs : List Func} {i : Nat} {func : Func}
    (h : funcs[i]? = some func) : (ofFuncs program funcs).lookup (i + 1) = func.lookup program := by
  have size : (ofFuncs program funcs).scopes.size = funcs.length + 1 := by
    simp [ofFuncs]
  have inner : (ofFuncs program funcs).scopes[i + 1]? = some func.typing.scope := by
    simp [ofFuncs, h]
  have outer :
      (ofFuncs program funcs).scopes[globalScope]? = some (Program.globalScope program) := by
    simp [ofFuncs, globalScope]
  have bound : i < funcs.length := (List.getElem?_eq_some_iff.mp h).1
  obtain ⟨fuel, enough⟩ : ∃ fuel, (ofFuncs program funcs).scopes.size = fuel + 2 :=
    ⟨funcs.length - 1, by omega⟩
  funext name
  have path : (ofFuncs program funcs).outward (fuel + 2) (i + 1) =
      [func.typing.scope, Program.globalScope program] := by
    unfold outward
    rw [inner]
    simp only [Typing.scope, outward, outer, Program.globalScope]
  rw [lookup, enough, path]
  rw [List.findSome?_cons]
  unfold Func.lookup
  cases func.typing.scope.find? name <;> simp

theorem scopeSize_ofFuncs {program funcs : List Func} {i : Nat} {func : Func}
    (h : funcs[i]? = some func) : (ofFuncs program funcs).scopeSize (i + 1) = func.typing.size := by
  have inner : (ofFuncs program funcs).scopes[i + 1]? = some func.typing.scope := by
    simp [ofFuncs, h]
  simp only [scopeSize, inner, Typing.scope]

end Table

/-- All that is checked about a function of a program. -/
structure Func.Checks (program : Program) (func : Func) : Prop where
  params_scalar : ∀ param ∈ func.params, ∀ length, param.type ≠ .intarray length
  distinct : func.typing.Distinct
  names : func.check (func.lookup program) = .ok ()

namespace Checker

theorem lift_eq_ok {α : Type} {outcome : Except CompileError α} {s s' : Checker} {a : α}
    (h : lift outcome s = .ok a s') : outcome = .ok a ∧ s = s' := by
  cases outcome with
  | error => cases h
  | ok value =>
      obtain ⟨rfl, rfl⟩ := run_pure_eq_ok.mp h
      exact ⟨rfl, rfl⟩

theorem func_eq_ok {func checked : Func} {checker checker' : Checker}
    (h : Checker.func func checker = .ok checked checker') : ∃ scope table,
      checker.table.declareLocals func = .ok (scope, table) ∧
        func.check (table.lookup scope) = .ok () ∧
          checked = { func with scope := some scope } ∧ checker'.table = table := by
  obtain ⟨_, _, got, h⟩ := run_bind_eq_ok.mp h
  obtain ⟨⟨scope, table⟩, _, declared, h⟩ := run_bind_eq_ok.mp h
  obtain ⟨_, _, set, h⟩ := run_bind_eq_ok.mp h
  obtain ⟨_, _, names, h⟩ := run_bind_eq_ok.mp h
  obtain ⟨_, _, reported, h⟩ := run_bind_eq_ok.mp h
  obtain ⟨rfl, rfl⟩ := run_pure_eq_ok.mp h
  cases got
  obtain ⟨locals, rfl⟩ := lift_eq_ok declared
  cases set
  obtain ⟨known, rfl⟩ := lift_eq_ok names
  cases reported
  exact ⟨scope, table, locals, known, rfl, rfl⟩

end Checker

def Func.scopedFrom (funcs : List Func) (scope : Nat) : List Func :=
  (funcs.zipIdx scope).map fun entry => { entry.1 with scope := some entry.2 }

@[simp] theorem Func.scopedFrom_nil (scope : Nat) : scopedFrom [] scope = [] := rfl

@[simp] theorem Func.scopedFrom_cons (func : Func) (rest : List Func) (scope : Nat) :
    scopedFrom (func :: rest) scope =
      { func with scope := some scope } :: scopedFrom rest (scope + 1) := rfl

namespace Checker

theorem funcs_eq_ok {program before after checked : List Func} {checker checker' : Checker}
    (table : checker.table = .ofFuncs program before)
    (h : Checker.funcs after checker = .ok checked checker') :
    checker'.table = .ofFuncs program (before ++ after) ∧
      checked = Func.scopedFrom after (before.length + 1) ∧
        ∀ func ∈ after, func.Checks program := by
  induction after generalizing before checker checked with
  | nil =>
      obtain ⟨rfl, rfl⟩ := run_pure_eq_ok.mp h
      exact ⟨by simpa using table, rfl, by simp⟩
  | cons func rest ih =>
      obtain ⟨first, checker₁, one, h⟩ := run_bind_eq_ok.mp h
      obtain ⟨others, checker₂, more, h⟩ := run_bind_eq_ok.mp h
      obtain ⟨rfl, rfl⟩ := run_pure_eq_ok.mp h
      obtain ⟨scope, table₁, declared, names, rfl, next⟩ := func_eq_ok one
      obtain ⟨scalar, distinct, rfl, rfl⟩ := Table.declareLocals_eq_ok.mp declared
      have extended : Table.ofTyping checker.table.scopes func.typing =
          .ofFuncs program (before ++ [func]) := by
        simp [table, Table.ofTyping, Table.ofFuncs]
      have scope : checker.table.scopes.size = before.length + 1 := by
        simp [table, Table.ofFuncs]
      rw [extended] at names next
      obtain ⟨final, rest_, checks⟩ := ih next more
      have at_ : (before ++ [func])[before.length]? = some func := by simp
      rw [scope, Table.lookup_ofFuncs at_] at names
      refine ⟨by simpa using final, ?_, ?_⟩
      · simp [rest_, scope]
      · exact List.forall_mem_cons.mpr ⟨⟨scalar, distinct, names⟩, checks⟩

end Checker

/-- The functions of a program with the scopes that checking gives them. -/
def Program.withScopes (program : Program) : Program := Func.scopedFrom program 1

/-- A checked program is the program with its scopes, and its table has these scopes. -/
theorem Program.check_eq_ok {program checked : Program} {checker : Checker}
    (h : program.check = .ok checked checker) :
    (program.map Func.name).Nodup ∧ checked = program.withScopes ∧
      checker.table = .ofFuncs program program ∧ ∀ func ∈ program, func.Checks program := by
  obtain ⟨_, _, got, h⟩ := run_bind_eq_ok.mp h
  obtain ⟨table, _, declared, h⟩ := run_bind_eq_ok.mp h
  obtain ⟨_, _, set, h⟩ := run_bind_eq_ok.mp h
  cases got
  obtain ⟨functions, rfl⟩ := Checker.lift_eq_ok declared
  cases set
  have start : (Table.ofFuncs [] []).declareFuncs program = .ok table := functions
  have empty : (([] : Program).map Func.name).Nodup := List.nodup_nil
  obtain ⟨nodup, rfl⟩ := (Table.declareFuncs_eq_ok empty).mp start
  obtain ⟨final, checked, checks⟩ :=
    Checker.funcs_eq_ok (show _ = Table.ofFuncs program [] from rfl) h
  exact ⟨nodup, checked, final, checks⟩

/-- What is known about a function of a checked program. -/
theorem Program.mem_withScopes {program : Program} {func : Func} (h : func ∈ program.withScopes) :
    ∃ original ∈ program, ∃ scope, func = { original with scope := some scope } ∧
      (Table.ofFuncs program program).lookup scope = original.lookup program ∧
        (Table.ofFuncs program program).scopeSize scope = original.typing.size := by
  obtain ⟨⟨original, scope⟩, mem, rfl⟩ := List.mem_map.mp h
  obtain ⟨least, at_⟩ := List.mem_zipIdx_iff_le_and_getElem?_sub.mp mem
  obtain ⟨i, rfl⟩ : ∃ i, scope = i + 1 := ⟨scope - 1, by omega⟩
  rw [Nat.add_sub_cancel] at at_
  exact ⟨original, List.mem_of_getElem? at_, i + 1, rfl, Table.lookup_ofFuncs at_,
    Table.scopeSize_ofFuncs at_⟩

@[simp] theorem Program.map_name_withScopes (program : Program) :
    program.withScopes.map Func.name = program.map Func.name := by
  rw [withScopes, Func.scopedFrom, List.map_map]
  have names : (Func.name ∘ fun (x : Func × Nat) => { x.1 with scope := some x.2 }) =
      Func.name ∘ Prod.fst := rfl
  rw [names, ← List.map_map, List.zipIdx_map_fst]

end Wordlang
