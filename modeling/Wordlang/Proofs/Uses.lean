import Wordlang.Asm.Layout
import Wordlang.Proofs.Acceptance
import Wordlang.Scope.WellFormed

/-! # What code reaches

The code of expressions and statements reads and writes memory by name only at the
addresses of the variables that stand in them, and in a well-formed function these
are used as they are declared. That operands are put on the stack in between does
not count: the stack is not reached by name.
-/

namespace Wordlang

open Asm

namespace Asm

namespace Code

@[simp] theorem addresses_nil : addresses [] = [] := rfl

@[simp] theorem addresses_append (first second : Code) :
    addresses (first ++ second) = addresses first ++ addresses second := by
  simp [addresses]

@[simp] theorem addresses_cons (line : Line) (rest : Code) :
    addresses (line :: rest) = line.addresses ++ addresses rest := by
  simp [addresses]

end Code

attribute [simp] Line.addresses Operand.address?

@[simp] theorem addresses_note (ctx : Context) (text : String) :
    Code.addresses (ctx.note text) = [] := by
  unfold Context.note
  split <;> rfl

@[simp] theorem addresses_release (bytes : Nat) : Code.addresses (release bytes) = [] := by
  unfold release
  split <;> rfl

@[simp] theorem addresses_immediate (place : Place) (value : Word) :
    Code.addresses (place.immediate value) = [] := by
  cases place <;> rfl

@[simp] theorem addresses_load (place : Place) (address : Address) :
    Code.addresses (place.load address) = [address] := by
  cases place <;> rfl

@[simp] theorem addresses_store (place : Place) : Code.addresses place.store = [] := by
  cases place <;> rfl

@[simp] theorem addresses_unaryCode (ctx : Context) (op : UnOp) :
    Code.addresses (unaryCode ctx op) = [] := by
  cases op <;> simp [unaryCode]

@[simp] theorem addresses_knownOperand (op : BinOp) (value : Word) (reg : Reg) :
    Code.addresses (knownOperand op value reg) = [] := by
  unfold knownOperand
  split <;> rfl

@[simp] theorem addresses_storeEax (address : Address) :
    Code.addresses (storeEax address) = [address] := rfl

@[simp] theorem addresses_storeWord (value : Word) (address : Address) :
    Code.addresses (storeWord value address) = [address] := rfl

private theorem addresses_binaryCode {op : BinOp} {n n' : Nat} {code : Code}
    (made : (binaryCode op).Makes n code n') : code.addresses = [] := by
  cases binaryCode_makes made <;> rfl

@[simp] theorem addresses_sum (place : Place) (address : Address) :
    Code.addresses (place.sum address) = [] := by
  cases place <;> rfl

theorem addresses_resultCode {op : BinOp} {total : Address} {place : Place} {n n' : Nat}
    {code : Code} (made : (resultCode op total place).Makes n code n') : code.addresses = [] := by
  cases resultCode_makes made with
  | sum => exact addresses_sum _ _
  | computed _ computes => simp [addresses_binaryCode computes]

def Code.Reaches (ctx : Context) (uses : List Use) (code : Code) : Prop :=
  ∀ address ∈ code.addresses, ∃ use ∈ uses, use.address? ctx = some address

namespace Code.Reaches

variable {ctx : Context} {uses uses' : List Use} {code code' : Code}

theorem of_nil (none : code.addresses = []) : code.Reaches ctx uses := by
  simp [Reaches, none]

theorem mono (h : code.Reaches ctx uses) (sub : uses ⊆ uses') : code.Reaches ctx uses' := by
  intro address mem
  obtain ⟨use, used, same⟩ := h address mem
  exact ⟨use, sub used, same⟩

theorem append (h : code.Reaches ctx uses) (h' : code'.Reaches ctx uses') :
    Reaches ctx (uses ++ uses') (code ++ code') := by
  intro address mem
  rw [addresses_append, List.mem_append] at mem
  obtain mem | mem := mem
  · exact h.mono (List.subset_append_left _ _) address mem
  · exact h'.mono (List.subset_append_right _ _) address mem

/-- What reaches nothing does not matter. -/
theorem of_addresses_eq (h : code.Reaches ctx uses) (same : code'.addresses = code.addresses) :
    code'.Reaches ctx uses := by
  unfold Reaches at *
  rwa [same]

theorem use {use : Use} {address : Address} (same : use.address? ctx = some address)
    (own : code.addresses = [address]) : code.Reaches ctx [use] := by
  intro other mem
  obtain rfl : other = address := by simpa [own] using mem
  exact ⟨use, List.mem_singleton_self _, same⟩

end Code.Reaches

section Reached

variable {ctx : Context}

theorem address?_scalar {name : String} {symbol : Symbol}
    (found : ctx.lookup name = some symbol) :
    Use.address? ctx (.scalar name) = some symbol.slot := by
  simp [Use.address?, found]

theorem address?_known {name : String} {symbol : Symbol} {index : Expr} {value : Word}
    (found : ctx.lookup name = some symbol) (known : ctx.known index = some value) :
    Use.address? ctx (.element name index) = some (symbol.elementSlot value) := by
  simp [Use.address?, found, known]

theorem address?_unknown {name : String} {symbol : Symbol} {index : Expr}
    (found : ctx.lookup name = some symbol) (unknown : ctx.known index = none) :
    Use.address? ctx (.element name index) = some symbol.indexedSlot := by
  simp [Use.address?, found, unknown]

theorem ExprCode.reaches {e place n code n'} (shape : ExprCode ctx e place n code n') :
    code.Reaches ctx e.uses := by
  induction shape with
  | known | int | bool => exact .of_nil (by simp)
  | var _ found => exact .use (address?_scalar found) (addresses_load _ _)
  | element _ found known =>
      exact Code.Reaches.mono (.use (address?_known found known) (addresses_load _ _))
        (by simp [Expr.uses])
  | index _ found unknown _ ih =>
      exact (ih.append (.use (address?_unknown found unknown) (addresses_load _ _))).mono
        (by simp [Expr.uses])
  | unary _ _ ih => exact ih.of_addresses_eq (by simp)
  | left _ _ _ made ih =>
      refine Code.Reaches.mono (ih.of_addresses_eq ?_) (List.subset_append_right _ _)
      simp [addresses_resultCode made]
  | right _ _ _ _ made ih =>
      refine Code.Reaches.mono (ih.of_addresses_eq ?_) (List.subset_append_left _ _)
      simp [addresses_resultCode made]
  | both _ _ _ _ _ made ihr ihl =>
      refine Code.Reaches.mono ((ihr.append ihl).of_addresses_eq ?_) ?_
      · simp [addresses_resultCode made]
      · simp [Expr.uses]

theorem ArgsCode.reaches {args n code n'} (shape : ArgsCode ctx args n code n') :
    code.Reaches ctx (args.flatMap Expr.uses) := by
  induction shape with
  | nil => exact .of_nil rfl
  | cons _ made ih => exact (ih.append made.reaches).mono (by simp)

theorem callCode_reaches {callee : String} {args : List Expr} {n : Nat} {code : Code} {n' : Nat}
    (made : (callCode ctx callee args).Makes n code n') :
    code.Reaches ctx (args.flatMap Expr.uses) := by
  obtain ⟨_, _, pushed⟩ := callCode_makes made
  exact pushed.reaches.of_addresses_eq (by simp)

theorem conditionCode_reaches {cond : Expr} {n : Nat} {code : Code} {n' : Nat}
    (made : (conditionCode ctx cond).Makes n code n') : code.Reaches ctx cond.uses := by
  obtain ⟨made⟩ := conditionCode_makes made
  exact made.reaches.of_addresses_eq (by simp)

private theorem assignCode_reaches {target : String} {symbol : Symbol} {value : Expr} {n : Nat}
    {code : Code} {n' : Nat} (found : ctx.lookup target = some symbol)
    (made : (assignCode ctx symbol.slot value).Makes n code n') :
    code.Reaches ctx (.scalar target :: value.uses) := by
  have own := Code.Reaches.use (address?_scalar found) (addresses_storeEax symbol.slot)
  cases assignCode_makes made with
  | known => exact (own.of_addresses_eq (addresses_storeWord _ _)).mono (by simp)
  | computed _ made => exact (made.reaches.append own).mono (by simp)

private theorem assignIndexCode_reaches {target : String} {symbol : Symbol} {index value : Expr}
    {n : Nat}
    {code : Code} {n' : Nat} (found : ctx.lookup target = some symbol)
    (made : (assignIndexCode ctx symbol index value).Makes n code n') :
    code.Reaches ctx (.element target index :: (index.uses ++ value.uses)) := by
  cases assignIndexCode_makes made with
  | known known =>
      exact Code.Reaches.mono (.use (address?_known found known) (addresses_storeWord _ _))
        (by simp)
  | content known _ made =>
      have own := Code.Reaches.use (address?_known found known) (addresses_storeEax _)
      exact (made.reaches.append own).mono (by simp)
  | place unknown _ made =>
      exact (made.reaches.append
        (.use (address?_unknown found unknown) (addresses_storeWord _ _))).mono (by simp)
  | both unknown _ madeIndex made =>
      have own := Code.Reaches.use (address?_unknown found unknown) (addresses_storeEax _)
      have all := (madeIndex.reaches.append made.reaches).append own
      exact (all.of_addresses_eq (by simp)).mono (by simp)

private theorem callIndexCode_reaches {target : String} {symbol : Symbol} {index : Expr}
    {callee : String} {args : List Expr} {n : Nat} {code : Code} {n' : Nat}
    (found : ctx.lookup target = some symbol)
    (made : (callIndexCode ctx symbol index callee args).Makes n code n') :
    code.Reaches ctx (.element target index :: (index.uses ++ args.flatMap Expr.uses)) := by
  cases callIndexCode_makes made with
  | known known called =>
      have own := Code.Reaches.use (address?_known found known) (addresses_storeEax _)
      exact (((callCode_reaches called).append own).of_addresses_eq (by simp)).mono (by simp)
  | computed unknown madeIndex called =>
      have own := Code.Reaches.use (address?_unknown found unknown) (addresses_storeEax _)
      have all := (madeIndex.reaches.append (callCode_reaches called)).append own
      exact (all.of_addresses_eq (by simp)).mono (by simp)

theorem StmtsCode.reaches {stmts n code n'} (shape : StmtsCode ctx stmts n code n') :
    code.Reaches ctx (Stmt.usesAll stmts) := by
  induction shape with
  | nil => exact .of_nil rfl
  | assign found made _ ih =>
      exact ((assignCode_reaches found made).append ih).of_addresses_eq (by simp)
  | assignIndex found made _ ih =>
      exact ((assignIndexCode_reaches found made).append ih).of_addresses_eq (by simp)
  | call found made _ ih =>
      have own := Code.Reaches.use (address?_scalar found) (addresses_storeEax _)
      have all := ((callCode_reaches made).append own).append ih
      exact (all.of_addresses_eq (by simp)).mono (by simp [Stmt.usesAll, Stmt.uses])
  | callIndex found made _ ih => exact (callIndexCode_reaches found made).append ih
  | whenTrue _ _ _ inner later | loopTrue _ _ _ inner later =>
      exact ((inner.append later).of_addresses_eq (by simp)).mono
        (by simp [Stmt.usesAll, Stmt.uses])
  | whenFalse _ _ _ later | loopFalse _ _ _ later =>
      exact (later.of_addresses_eq (by simp)).mono (by simp [Stmt.usesAll, Stmt.uses])
  | when _ made _ _ inner later | loop _ made _ _ inner later =>
      have all := ((conditionCode_reaches made).append inner).append later
      exact (all.of_addresses_eq (by simp)).mono (by simp [Stmt.usesAll, Stmt.uses])
  | chooseTrue _ _ _ inner later | chooseFalse _ _ _ _ inner later =>
      refine ((inner.append later).of_addresses_eq (by simp)).mono fun use mem => ?_
      obtain mem | mem := List.mem_append.mp mem <;> simp [Stmt.usesAll, Stmt.uses, mem]
  | choose _ made _ _ _ first second later =>
      have all := (((conditionCode_reaches made).append first).append second).append later
      exact (all.of_addresses_eq (by simp)).mono (by simp [Stmt.usesAll, Stmt.uses])
  | block _ _ inner later => exact inner.append later

end Reached

end Asm

section Declared

variable {program : Program} {typing : Typing} {p : Use → Prop}
  (scalars : ∀ name, typing.Scalar name → p (.scalar name))
  (arrays : ∀ name index, typing.Array name → p (.element name index))

include scalars arrays

theorem Expr.WellFormed.forall_uses {e : Expr} (wellFormed : e.WellFormed typing) :
    ∀ use ∈ e.uses, p use := by
  induction e with
  | int | bool => simp [uses]
  | var _ name => simpa [uses] using scalars name wellFormed
  | index _ name element ih =>
      obtain ⟨array, inner⟩ := wellFormed
      exact List.forall_mem_cons.mpr ⟨arrays name element array, ih inner⟩
  | unary _ _ operand ih => exact ih wellFormed
  | binary _ _ left right ihl ihr =>
      obtain ⟨first, second⟩ := wellFormed
      exact List.forall_mem_append.mpr ⟨ihl first, ihr second⟩

theorem Expr.forall_uses_of_forall {es : List Expr} (wellFormed : ∀ e ∈ es, e.WellFormed typing) :
    ∀ use ∈ es.flatMap uses, p use := by
  intro use mem
  obtain ⟨e, inside, mem⟩ := List.mem_flatMap.mp mem
  exact (wellFormed e inside).forall_uses scalars arrays use mem

theorem Stmt.AllWellFormed.forall_uses {stmts : List Stmt}
    (wellFormed : Stmt.AllWellFormed program typing stmts) :
    ∀ use ∈ Stmt.usesAll stmts, p use := by
  cases stmts with
  | nil => simp [Stmt.usesAll]
  | cons stmt rest =>
      rw [Stmt.AllWellFormed] at wellFormed
      obtain ⟨first, later⟩ := wellFormed
      refine List.forall_mem_append.mpr ⟨?_, later.forall_uses⟩
      cases stmt with
      | assign target value =>
          rw [Stmt.WellFormed] at first
          exact List.forall_mem_cons.mpr
            ⟨scalars target first.1, first.2.forall_uses scalars arrays⟩
      | assignIndex target index value =>
          rw [Stmt.WellFormed] at first
          exact List.forall_mem_cons.mpr ⟨arrays target index first.1,
            List.forall_mem_append.mpr ⟨first.2.1.forall_uses scalars arrays,
              first.2.2.forall_uses scalars arrays⟩⟩
      | call line target callee args =>
          rw [Stmt.WellFormed] at first
          exact List.forall_mem_cons.mpr ⟨scalars target first.1,
            Expr.forall_uses_of_forall scalars arrays first.2.2⟩
      | callIndex line target index callee args =>
          rw [Stmt.WellFormed] at first
          exact List.forall_mem_cons.mpr ⟨arrays target index first.1,
            List.forall_mem_append.mpr ⟨first.2.1.forall_uses scalars arrays,
              Expr.forall_uses_of_forall scalars arrays first.2.2.2⟩⟩
      | when cond body | loop cond body =>
          rw [Stmt.WellFormed] at first
          exact List.forall_mem_append.mpr ⟨first.1.forall_uses scalars arrays, first.2.forall_uses⟩
      | choose cond thens elses =>
          rw [Stmt.WellFormed] at first
          exact List.forall_mem_append.mpr ⟨first.1.forall_uses scalars arrays,
            List.forall_mem_append.mpr ⟨first.2.1.forall_uses, first.2.2.forall_uses⟩⟩
      | block body =>
          rw [Stmt.WellFormed] at first
          exact first.forall_uses
termination_by sizeOf stmts

end Declared

def Use.name : Use → String
  | scalar name => name
  | element name _ => name

theorem Expr.names_eq_map_uses (e : Expr) : e.names = e.uses.map Use.name := by
  induction e with
  | int | bool | var => rfl
  | index _ name element ih => rw [names, uses, List.map_cons, ih, Use.name]
  | unary _ _ operand ih => exact ih
  | binary _ _ left right ihLeft ihRight =>
      rw [names, uses, List.map_append, ihLeft, ihRight]

theorem Expr.flatMap_names (es : List Expr) :
    es.flatMap names = (es.flatMap uses).map Use.name := by
  rw [List.map_flatMap]
  exact List.flatMap_congr fun e _ => e.names_eq_map_uses

theorem Stmt.namesAll_eq_map_uses (stmts : List Stmt) :
    namesAll stmts = (usesAll stmts).map Use.name := by
  cases stmts with
  | nil => rfl
  | cons stmt rest =>
      rw [namesAll, usesAll, List.map_append, namesAll_eq_map_uses rest]
      congr 1
      cases stmt with
      | assign | assignIndex | call | callIndex =>
          simp [names, uses, Use.name, Expr.names_eq_map_uses, Expr.flatMap_names]
      | when cond body | loop cond body =>
          simp [names, uses, cond.names_eq_map_uses, namesAll_eq_map_uses body]
      | choose cond thens elses =>
          simp [names, uses, cond.names_eq_map_uses, namesAll_eq_map_uses thens,
            namesAll_eq_map_uses elses]
      | block body => exact namesAll_eq_map_uses body
termination_by sizeOf stmts

section Names

variable {program : Program} {typing : Typing}

theorem Typing.Scalar.declared {name : String} (scalar : typing.Scalar name) :
    name ∈ typing.map (·.1) :=
  scalar.elim List.mem_map_of_mem List.mem_map_of_mem

theorem Typing.Array.declared {name : String} (array : typing.Array name) :
    name ∈ typing.map (·.1) := by
  obtain ⟨length, mem⟩ := array
  exact List.mem_map_of_mem mem

theorem Expr.WellFormed.names_subset {e : Expr} (wellFormed : e.WellFormed typing) :
    e.names ⊆ typing.map (·.1) := by
  rw [names_eq_map_uses]
  exact List.forall_mem_map.mpr (wellFormed.forall_uses (fun _ => Typing.Scalar.declared)
    fun _ _ => Typing.Array.declared)

theorem Stmt.AllWellFormed.names_subset {stmts : List Stmt}
    (wellFormed : Stmt.AllWellFormed program typing stmts) :
    Stmt.namesAll stmts ⊆ typing.map (·.1) := by
  rw [Stmt.namesAll_eq_map_uses]
  exact List.forall_mem_map.mpr (wellFormed.forall_uses (fun _ => Typing.Scalar.declared)
    fun _ _ => Typing.Array.declared)

end Names

end Wordlang
