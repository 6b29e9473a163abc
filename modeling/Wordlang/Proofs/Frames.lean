import Wordlang.Proofs.Evaluation
import Wordlang.Proofs.Scopes

/-! # Frames of running functions

The words of a store lie in the frame of its function, inside the bytes of the
function's scope and apart from each other. `Frame` says so of the symbols, and
`Runs` of a machine: between the saved registers and the stack pointer are exactly
the bytes of the scope, and the words that were assigned are found there. Writing
one word of the store and the place of its symbol keeps the two together.
-/

namespace Wordlang

/-- The number of words of each variable of a store. -/
def Store.lengths (store : Store) (name : String) : Option Nat := (store name).map Cell.length

/-- The number of words of each declared variable. -/
def Typing.lengths (typing : Typing) (name : String) : Option Nat :=
  (typing.lookup name).map Ty.length

/-- The symbols of variables lie inside so many bytes and do not overlap. -/
structure Frame (lookup : Lookup) (size : Nat) (lengths : String → Option Nat) : Prop where
  inside : ∀ {name length}, lengths name = some length → ∃ symbol, lookup name = some symbol ∧
    symbol.length = length ∧ symbol.offset + symbol.size ≤ size
  apart : ∀ {name name' length length' symbol symbol'}, name ≠ name' →
    lengths name = some length → lengths name' = some length' →
    lookup name = some symbol → lookup name' = some symbol' →
    symbol.offset + symbol.size ≤ symbol'.offset ∨ symbol'.offset + symbol'.size ≤ symbol.offset

namespace Typing

/-- A variable lies behind those declared before it. -/
theorem scope_find?_eq_some {typing : Typing} {name : String} {type : Ty}
    (h : typing.lookup name = some type) : ∃ before after,
      typing = before ++ (name, type) :: after ∧ name ∉ before.map (·.1) ∧
        typing.scope.find? name =
          some { kind := type.symbolKind, offset := before.size, length := type.length } := by
  obtain ⟨before, after, rfl, fresh⟩ := List.lookup_eq_some_iff.mp h
  have unnamed : name ∉ before.map (·.1) := by
    intro mem
    obtain ⟨entry, inBefore, rfl⟩ := List.mem_map.mp mem
    simpa using fresh entry inBefore
  refine ⟨before, after, rfl, unnamed, ?_⟩
  rw [Scope.find?, scope, lookup_layoutFrom unnamed, Nat.zero_add]

theorem layoutFrom_bounds {offset : Nat} {typing : Typing} {entry : String × Symbol}
    (h : entry ∈ layoutFrom offset typing) :
    offset ≤ entry.2.offset ∧ entry.2.offset + entry.2.size ≤ offset + typing.size := by
  induction typing generalizing offset with
  | nil => exact absurd h (by simp [layoutFrom])
  | cons first rest ih =>
      obtain ⟨name, type⟩ := first
      have sizes : size ((name, type) :: rest) = type.length * wordSize + size rest := rfl
      obtain rfl | later := List.mem_cons.mp h
      · simp only [Symbol.size]
        omega
      · have := ih later
        omega

theorem layoutFrom_apart {offset : Nat} {typing : Typing} {a b : String × Symbol}
    (ha : a ∈ layoutFrom offset typing) (hb : b ∈ layoutFrom offset typing)
    (different : a.1 ≠ b.1) :
    a.2.offset + a.2.size ≤ b.2.offset ∨ b.2.offset + b.2.size ≤ a.2.offset := by
  induction typing generalizing offset with
  | nil => exact absurd ha (by simp [layoutFrom])
  | cons first rest ih =>
      obtain ⟨name, type⟩ := first
      obtain rfl | laterA := List.mem_cons.mp ha
      · obtain rfl | laterB := List.mem_cons.mp hb
        · exact absurd rfl different
        · exact .inl (layoutFrom_bounds laterB).1
      · obtain rfl | laterB := List.mem_cons.mp hb
        · exact .inr (layoutFrom_bounds laterA).1
        · exact ih laterA laterB

theorem mem_layoutFrom_of_find? {typing : Typing} {name : String} {symbol : Symbol}
    (h : typing.scope.find? name = some symbol) : (name, symbol) ∈ layoutFrom 0 typing := by
  obtain ⟨before, after, split_, _⟩ := List.lookup_eq_some_iff.mp h
  change (name, symbol) ∈ typing.scope.symbols
  rw [split_]
  exact List.mem_append_right _ List.mem_cons_self

end Typing

theorem Func.frame (program : Program) (func : Func) :
    Frame (func.lookup program) func.typing.size func.typing.lengths where
  inside {name length} h := by
    obtain ⟨type, declared, rfl⟩ := Option.map_eq_some_iff.mp h
    obtain ⟨before, after, _, _, found⟩ := Typing.scope_find?_eq_some declared
    refine ⟨_, by rw [Func.lookup, found]; rfl, rfl, ?_⟩
    have bounds := (Typing.layoutFrom_bounds (Typing.mem_layoutFrom_of_find? found)).2
    simpa using bounds
  apart {name name' length length' symbol symbol'} different h h' found found' := by
    have own : ∀ {name length symbol}, func.typing.lengths name = some length →
        func.lookup program name = some symbol →
          (name, symbol) ∈ Typing.layoutFrom 0 func.typing := by
      intro name length symbol h found
      obtain ⟨type, declared, rfl⟩ := Option.map_eq_some_iff.mp h
      obtain ⟨before, after, _, _, at_⟩ := Typing.scope_find?_eq_some declared
      rw [Func.lookup, at_] at found
      exact Option.some.inj found ▸ Typing.mem_layoutFrom_of_find? at_
    exact Typing.layoutFrom_apart (own h found) (own h' found') different

@[simp] theorem Ty.length_cell (type : Ty) : type.cell.length = type.length := by
  cases type <;> rfl

@[simp] theorem Ty.item?_cell (type : Ty) (i : Nat) : type.cell.item? i = none := by
  cases type <;> simp [Ty.cell, Cell.item?]

theorem lookup_zip_eq_some {names : List String} {args : List Word} {name : String} {value : Word}
    (h : (names.zip args).lookup name = some value) :
    ∃ k : Nat, names[k]? = some name ∧ args[k]? = some value := by
  obtain ⟨before, after, split_, _⟩ := List.lookup_eq_some_iff.mp h
  have at_ : (names.zip args)[before.length]? = some (name, value) := by
    rw [split_, List.getElem?_append_right (Nat.le_refl _), Nat.sub_self, List.getElem?_cons_zero]
  exact ⟨before.length, List.getElem?_zip_eq_some.mp at_⟩

namespace Func

variable {program : Program} {func : Func} (checks : func.Checks program)

include checks

theorem Checks.length_param {param : Param} (mem : param ∈ func.params) :
    param.type.length = 1 := by
  cases isType : param.type with
  | int | bool => rfl
  | intarray length => exact absurd isType (checks.params_scalar param mem length)

theorem Checks.size_params {params : List Param} (sub : params ⊆ func.params) :
    Typing.size (params.map fun param => (param.name, param.type)) =
      params.length * wordSize := by
  induction params with
  | nil => rfl
  | cons param rest ih =>
      have own := checks.length_param (sub List.mem_cons_self)
      have others := ih fun _ mem => sub (List.mem_cons_of_mem _ mem)
      rw [List.map_cons, ← List.singleton_append, Typing.size_append, Typing.size_singleton, own,
        others, List.length_cons, Nat.add_mul, Nat.add_comm]

/-- The parameters fit into the frame. -/
theorem Checks.params_le : func.params.length * wordSize ≤ func.typing.size := by
  rw [← checks.size_params fun _ mem => mem, Func.typing, Typing.size_append]
  exact Nat.le_add_right _ _

/-- Parameters come first in the frame, and each of them takes one word. -/
theorem Checks.lookup_param {k : Nat} {param : Param} (h : func.params[k]? = some param) :
    func.typing.lookup param.name = some param.type ∧
      func.lookup program param.name =
        some { kind := param.type.symbolKind, offset := k * wordSize, length := 1 } := by
  obtain ⟨bound, at_⟩ := List.getElem?_eq_some_iff.mp h
  let before := (func.params.take k).map fun param => (param.name, param.type)
  obtain ⟨after, split_⟩ : ∃ after, func.typing = before ++ (param.name, param.type) :: after := by
    refine ⟨(func.params.drop (k + 1)).map (fun param => (param.name, param.type)) ++
      func.decls.flatMap fun decl => decl.names.map fun name => (name, decl.type), ?_⟩
    rw [Func.typing, ← List.cons_append, ← List.append_assoc]
    congr 1
    rw [← List.map_cons (f := fun param : Param => (param.name, param.type)), ← at_,
      List.getElem_cons_drop, ← List.map_append, List.take_append_drop]
  have fresh : param.name ∉ before.map (·.1) := by
    have nodup := checks.distinct.names_nodup
    rw [split_, List.map_append, List.map_cons, List.nodup_append] at nodup
    exact fun mem => nodup.2.2 _ mem _ List.mem_cons_self rfl
  have size : Typing.size before = k * wordSize := by
    rw [checks.size_params (List.take_subset k func.params), List.length_take]
    congr 1
    omega
  have unknown : before.lookup param.name = none := by
    refine List.lookup_eq_none_iff.mpr fun entry mem => ?_
    simpa using fun same => fresh (List.mem_map.mpr ⟨entry, mem, same.symm⟩)
  constructor
  · rw [split_, List.lookup_append, unknown]
    simp
  · rw [Func.lookup, split_, Scope.find?, Typing.scope, Typing.lookup_layoutFrom fresh, size,
      checks.length_param (List.mem_of_getElem? h), Nat.zero_add]
    rfl

/-- The variables of a function's store are those that it declares. -/
theorem Checks.lengths_entryStore (args : List Word) :
    (func.entryStore args).lengths = func.typing.lengths := by
  funext name
  unfold Store.lengths Func.entryStore Typing.lengths
  cases given : ((func.params.map (·.name)).zip args).lookup name with
  | none => simp [Function.comp_def]
  | some value =>
      obtain ⟨k, at_, _⟩ := lookup_zip_eq_some given
      rw [List.getElem?_map, Option.map_eq_some_iff] at at_
      obtain ⟨param, at_, rfl⟩ := at_
      simp [(checks.lookup_param at_).1, Cell.length,
        checks.length_param (List.mem_of_getElem? at_)]

/-- At its start a function's store holds nothing but the arguments. -/
theorem Checks.item?_entryStore {args : List Word} {name : String} {cell : Cell} {i : Nat}
    {value : Word}
    (found : func.entryStore args name = some cell) (item : cell.item? i = some value) :
    ∃ k kind, args[k]? = some value ∧ k < func.params.length ∧ i = 0 ∧
      func.lookup program name = some { kind, offset := k * wordSize, length := 1 } := by
  unfold Func.entryStore at found
  cases given : ((func.params.map (·.name)).zip args).lookup name with
  | none =>
      rw [given] at found
      obtain ⟨type, _, rfl⟩ := Option.map_eq_some_iff.mp found
      exact absurd item (by simp)
  | some argument =>
      rw [given] at found
      obtain rfl := Option.some.inj found
      obtain ⟨first, rfl⟩ : i = 0 ∧ argument = value := by simpa [Cell.item?] using item
      obtain ⟨k, at_, passed⟩ := lookup_zip_eq_some given
      rw [List.getElem?_map, Option.map_eq_some_iff] at at_
      obtain ⟨param, at_, rfl⟩ := at_
      exact ⟨k, _, passed, (List.getElem?_eq_some_iff.mp at_).1, first, (checks.lookup_param at_).2⟩

end Func

theorem Cell.lt_length {cell : Cell} {i : Nat} {value : Word} (h : cell.item? i = some value) :
    i < cell.length := by
  cases cell with
  | word =>
      simp only [item?] at h
      split at h
      · next first => exact first ▸ Nat.one_pos
      · exact absurd h (by simp)
  | array =>
      simp only [item?] at h
      split at h
      · next bound => exact bound
      · exact absurd h (by simp)

/-- One word of one variable gets a value, and nothing else changes. -/
structure Store.Writes (store : Store) (target : String) (i : Nat) (value : Word)
    (store' : Store) : Prop where
  inside : ∃ length, store.lengths target = some length ∧ i < length
  lengths : store'.lengths = store.lengths
  items : ∀ {name cell' j content}, store' name = some cell' → cell'.item? j = some content →
    (name = target ∧ j = i ∧ content = value) ∨
      (¬ (name = target ∧ j = i) ∧ ∃ cell, store name = some cell ∧ cell.item? j = some content)

namespace Store

theorem lengths_update {store : Store} {name : String} {cell cell' : Cell}
    (found : store name = some cell) (same : cell'.length = cell.length) :
    (store.update name cell').lengths = store.lengths := by
  funext other
  unfold lengths update
  split
  · next h => simp [h, found, same]
  · rfl

theorem writes_put {store store' : Store} {target : String} {value : Word}
    (h : store.put target value = some store') :
    store.lengths target = some 1 ∧ store.Writes target 0 value store' := by
  unfold put at h
  split at h
  · next content found =>
    obtain rfl := Option.some.inj h
    have known : store.lengths target = some 1 := by simp [lengths, found, Cell.length]
    refine ⟨known, ⟨1, known, Nat.one_pos⟩, lengths_update found rfl,
      fun {name cell' j content} known item => ?_⟩
    unfold update at known
    split at known
    · next same =>
      obtain rfl := Option.some.inj known
      obtain ⟨first, rfl⟩ : j = 0 ∧ value = content := by simpa [Cell.item?] using item
      exact .inl ⟨same, first, rfl⟩
    · next different => exact .inr ⟨fun h => different h.1, cell', known, item⟩
  · exact absurd h (by simp)

theorem writes_putItem {store store' : Store} {target : String} {index value : Word}
    (h : store.putItem target index value = some store') : ∃ length i,
      store.lengths target = some length ∧ position? length index = some i ∧
        store.Writes target i value store' := by
  unfold putItem at h
  split at h
  · next length content found =>
    obtain ⟨i, inside, rest⟩ := Option.bind_eq_some_iff.mp h
    obtain rfl := Option.some.inj rest
    have known : store.lengths target = some length := by simp [lengths, found, Cell.length]
    refine ⟨length, i, known, inside, ⟨length, known, (position?_eq_some inside).1⟩,
      lengths_update found rfl, fun {name cell' j content'} known item => ?_⟩
    unfold update at known
    split at known
    · next same =>
      obtain rfl := Option.some.inj known
      by_cases position : j = i
      · refine .inl ⟨same, position, ?_⟩
        simp only [Cell.item?, position] at item
        split at item
        · exact (Option.some.inj (by simpa using item)).symm
        · exact absurd item (by simp)
      · refine .inr ⟨fun h => position h.2, .array length content, same ▸ found, ?_⟩
        simpa [Cell.item?, position] using item
    · next different => exact .inr ⟨fun h => different h.1, cell', known, item⟩
  · exact absurd h (by simp)

end Store

namespace Asm.Machine

/-- A machine that runs a function: between the saved registers and the stack pointer are
    the bytes of the scope, and they show the store. -/
structure Runs (lookup : Lookup) (size : Nat) (store : Store) (m : Machine) : Prop where
  frame : Frame lookup size store.lengths
  room : m.top + size + 12 = (m.regs .ebp).toNat
  shows : m.Shows lookup store

/-- The stack is as high as before, and nothing above the frame has changed. -/
structure Stays (m m' : Machine) : Prop where
  esp : m'.regs .esp = m.regs .esp
  ebp : m'.regs .ebp = m.regs .ebp
  esi : m'.regs .esi = m.regs .esi
  edi : m'.regs .edi = m.regs .edi
  memory : ∀ address : Word, (m.regs .ebp).toNat ≤ address.toNat + 12 →
    m'.memory address = m.memory address

theorem Stays.refl (m : Machine) : Stays m m := ⟨rfl, rfl, rfl, rfl, fun _ _ => rfl⟩

theorem Stays.trans {m m₁ m₂ : Machine} (h₁ : Stays m m₁) (h₂ : Stays m₁ m₂) : Stays m m₂ where
  esp := h₂.esp.trans h₁.esp
  ebp := h₂.ebp.trans h₁.ebp
  esi := h₂.esi.trans h₁.esi
  edi := h₂.edi.trans h₁.edi
  memory address above := (h₂.memory address (h₁.ebp ▸ above)).trans (h₁.memory address above)

variable {lookup : Lookup} {size : Nat} {store store' : Store} {m m' : Machine}

theorem Stays.goto (m : Machine) (line : Nat) : Stays m (m.goto line) :=
  ⟨rfl, rfl, rfl, rfl, fun _ _ => rfl⟩

theorem Stays.of_goto {line : Nat} (h : Stays (m.goto line) m') : Stays m m' :=
  ⟨h.esp, h.ebp, h.esi, h.edi, h.memory⟩

theorem Runs.goto (runs : Runs lookup size store m) (line : Nat) :
    Runs lookup size store (m.goto line) :=
  ⟨runs.frame, runs.room, runs.shows⟩

/-- Work above which the stack pointer has come back leaves the function running. -/
theorem Runs.keeps (runs : Runs lookup size store m) (kept : Keeps m m')
    (esp : m'.regs .esp = m.regs .esp) : Runs lookup size store m' ∧ Stays m m' := by
  have top : m'.top = m.top := congrArg BitVec.toNat esp
  have room := runs.room
  refine ⟨⟨runs.frame, ?_, runs.shows.keeps kept (Nat.le_of_eq top)⟩,
    esp, kept.ebp, kept.esi, kept.edi, fun address above => kept.memory address ?_⟩
  · rw [top, kept.ebp, room]
  · omega

theorem Runs.toNat_slotOf (runs : Runs lookup size store m) {symbol : Symbol} {i : Nat}
    (inside : symbol.offset + symbol.size ≤ size) (bound : i < symbol.length) :
    (m.slotOf symbol i).toNat + symbol.depth i = (m.regs .ebp).toNat ∧
      symbol.depth i ≤ size + 12 := by
  have room := runs.room
  have depth : symbol.depth i ≤ size + 12 := by
    simp only [Symbol.depth, Symbol.size, wordSize, frameAfter] at *
    omega
  refine ⟨?_, depth⟩
  have := (m.regs .ebp).isLt
  rw [slotOf, BitVec.toNat_sub, BitVec.toNat_ofNat]
  omega

theorem Runs.slotOf_ne (runs : Runs lookup size store m) {name name' : String}
    {symbol symbol' : Symbol} {length length' i j : Nat}
    (different : ¬ (name = name' ∧ i = j))
    (known : store.lengths name = some length) (known' : store.lengths name' = some length')
    (found : lookup name = some symbol) (found' : lookup name' = some symbol')
    (bound : i < length) (bound' : j < length') : m.slotOf symbol i ≠ m.slotOf symbol' j := by
  obtain ⟨_, same, rfl, inside⟩ := runs.frame.inside known
  obtain rfl : symbol = _ := Option.some.inj (found.symm.trans same)
  obtain ⟨_, same', rfl, inside'⟩ := runs.frame.inside known'
  obtain rfl : symbol' = _ := Option.some.inj (found'.symm.trans same')
  have address := (runs.toNat_slotOf inside bound).1
  have address' := (runs.toNat_slotOf inside' bound').1
  intro equal
  rw [equal] at address
  have depths : symbol.depth i = symbol'.depth j := by omega
  simp only [Symbol.depth, wordSize, Symbol.size] at depths inside inside'
  by_cases sameName : name = name'
  · subst sameName
    obtain rfl := Option.some.inj (same.symm.trans same')
    have : i ≠ j := fun h => different ⟨rfl, h⟩
    omega
  · have apart := runs.frame.apart sameName known known' same same'
    simp only [Symbol.size, wordSize] at apart
    omega

theorem Runs.writes (runs : Runs lookup size store m) {target : String} {symbol : Symbol} {i : Nat}
    {value : Word} (found : lookup target = some symbol)
    (written : store.Writes target i value store')
    (regs : m'.regs = m.regs)
    (memory : m'.memory = (m.setMem (m.slotOf symbol i) (.word value)).memory) :
    Runs lookup size store' m' ∧ Stays m m' := by
  obtain ⟨length, known, bound⟩ := written.inside
  obtain ⟨_, same, rfl, inside⟩ := runs.frame.inside known
  obtain rfl : symbol = _ := Option.some.inj (found.symm.trans same)
  obtain ⟨address, depth⟩ := runs.toNat_slotOf inside bound
  have slot : ∀ symbol j, m'.slotOf symbol j = m.slotOf symbol j := fun _ _ => by
    rw [slotOf, slotOf, regs]
  have top : m'.top = m.top := by rw [top, top, regs]
  have room := runs.room
  refine ⟨⟨written.lengths ▸ runs.frame, by rw [top, regs, room], ?_⟩, ?_⟩
  · intro name cell' present
    have length' : store.lengths name = some cell'.length := by
      rw [← written.lengths, Store.lengths, present, Option.map_some]
    obtain ⟨other, known', same', inside'⟩ := runs.frame.inside length'
    refine ⟨other, known', same', fun j content item => ?_⟩
    rw [slot, top, memory, memory_setMem]
    obtain ⟨rfl, rfl, rfl⟩ | ⟨different, cell, before, item'⟩ := written.items present item
    · obtain rfl := Option.some.inj (found.symm.trans known')
      refine ⟨?_, if_pos rfl⟩
      omega
    · obtain ⟨_, again, _, items⟩ := runs.shows name cell before
      obtain rfl := Option.some.inj (again.symm.trans known')
      obtain ⟨above, holds⟩ := items j content item'
      refine ⟨above, ?_⟩
      rw [if_neg (runs.slotOf_ne different length' known known' found (Cell.lt_length item) bound)]
      exact holds
  · refine ⟨by rw [regs], by rw [regs], by rw [regs], by rw [regs], fun other above => ?_⟩
    have apart : other ≠ m.slotOf symbol i := by
      rintro rfl
      have : 16 ≤ symbol.depth i := Nat.le_add_left _ _
      omega
    rw [memory, memory_setMem, if_neg apart]

end Asm.Machine

end Wordlang
