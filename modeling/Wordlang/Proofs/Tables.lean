import Wordlang.Proofs.Searches
import Wordlang.Scope.Operation

/-! # Tables behind operations

What a declaration changes, and what stays. The way outward of a search depends only on
what each scope answers it, so a search that never asks the scope of a new symbol goes
on as before (`Table.search_congr`), and one that comes there finds the symbol.
-/

namespace Wordlang

open Relation (ReflTransGen)

namespace Scope

variable {scope : Scope} {name other : String} {symbol : Symbol}

theorem find?_add (fresh : scope.find? name = none) :
    (scope.add name symbol).find? other =
      if other = name then some symbol else scope.find? other := by
  rw [find?, add, List.lookup_append, ← find?, List.lookup_cons]
  by_cases same : other = name
  · simp [same, fresh]
  · rw [if_neg same, beq_false_of_ne same]
    exact Option.or_none

end Scope

namespace Table

section Searches

variable {table table' : Table} {name : String} {id : Nat}

theorem search_eq_some_iff {result : Option Symbol} :
    table.search id name = some result ↔ ∃ visited, table.Walk name id visited result :=
  ⟨walk_of_search, fun ⟨_, walk⟩ => walk.search_eq_some⟩

/-- What a scope answers to a search for a name: the symbol, and where to go on. -/
def answer? (table : Table) (name : String) (id : Nat) : Option (Option Symbol × Option Nat) :=
  (table.scopes[id]?).map fun scope => (scope.find? name, scope.parent)

theorem answer?_eq_some {symbol : Option Symbol} {parent : Option Nat} :
    table.answer? name id = some (symbol, parent) ↔
      ∃ scope, table.scopes[id]? = some scope ∧ scope.find? name = symbol ∧
        scope.parent = parent := by
  simp [answer?]

theorem outward_iff {parent : Nat} :
    table.Outward name id parent ↔ table.answer? name id = some (none, some parent) :=
  answer?_eq_some.symm

theorem search_eq_of_answer? {symbol : Symbol} {parent : Option Nat}
    (found : table.answer? name id = some (some symbol, parent)) :
    table.search id name = some (some symbol) := by
  obtain ⟨scope, inside, found, _⟩ := answer?_eq_some.mp found
  exact (Walk.found inside found).search_eq_some

/-- Two tables give the same answers wherever a search in the first one may come to. -/
def Agrees (table table' : Table) (name : String) (start : Nat) : Prop :=
  ∀ asked, ReflTransGen (table.Outward name) start asked →
    table'.answer? name asked = table.answer? name asked

theorem Walk.of_agrees {visited : List Nat} {result : Option Symbol}
    (walk : table.Walk name id visited result) (agrees : table.Agrees table' name id) :
    table'.Walk name id visited result := by
  have here := agrees id .refl
  induction walk with
  | outside outside =>
      apply Walk.outside
      rw [answer?, answer?, outside, Option.map_none, Option.map_eq_none_iff] at here
      exact here
  | found inside found =>
      rw [answer?_eq_some.mpr ⟨_, inside, found, rfl⟩] at here
      obtain ⟨scope, inside', found', _⟩ := answer?_eq_some.mp here
      exact .found inside' found'
  | outermost inside missing outermost =>
      rw [answer?_eq_some.mpr ⟨_, inside, missing, outermost⟩] at here
      obtain ⟨scope, inside', missing', outermost'⟩ := answer?_eq_some.mp here
      exact .outermost inside' missing' outermost'
  | outward inside missing enclosed _ ih =>
      rw [answer?_eq_some.mpr ⟨_, inside, missing, enclosed⟩] at here
      obtain ⟨scope, inside', missing', enclosed'⟩ := answer?_eq_some.mp here
      have further : table.Agrees table' name _ := fun asked way =>
        agrees asked (.head ⟨_, inside, missing, enclosed⟩ way)
      exact .outward inside' missing' enclosed' (ih further (further _ .refl))

theorem Agrees.symm (agrees : table.Agrees table' name id) : table'.Agrees table name id := by
  -- each step outward in the second table is one in the first, for the answers agree so far
  have back : ∀ asked, ReflTransGen (table'.Outward name) id asked →
      ReflTransGen (table.Outward name) id asked := by
    intro asked way
    induction way with
    | refl => exact .refl
    | tail _ step ih =>
        rw [outward_iff, agrees _ ih, ← outward_iff] at step
        exact ih.tail step
  exact fun asked way => (agrees asked (back asked way)).symm

theorem search_congr (agrees : table.Agrees table' name id) :
    table'.search id name = table.search id name := by
  apply Option.ext
  intro result
  rw [search_eq_some_iff, search_eq_some_iff]
  constructor
  · intro ⟨visited, walk⟩
    exact ⟨visited, walk.of_agrees agrees.symm⟩
  · intro ⟨visited, walk⟩
    exact ⟨visited, walk.of_agrees agrees⟩

end Searches

section Insertion

variable {table table' : Table} {id : Nat} {name : String} {kind : Symbol.Kind} {length : Nat}
  {symbol : Symbol} {scope : Scope}

theorem symbolsIn_eq (inside : table.scopes[id]? = some scope) :
    table.symbolsIn id = scope.symbols := by
  rw [symbolsIn, inside]

theorem scopeSize_eq (inside : table.scopes[id]? = some scope) :
    table.scopeSize id = scope.size := by
  rw [scopeSize, inside]

private theorem insert_eq_none (taken : name ∈ (table.symbolsIn id).map (·.1)) :
    table.insert id name kind length = none := by
  cases inside : table.scopes[id]? with
  | none => simp [insert, inside]
  | some scope =>
      rw [symbolsIn_eq inside] at taken
      cases found : scope.find? name with
      | none => exact absurd taken (Scope.find?_eq_none.mp found)
      | some symbol => simp [insert, inside, found]

/-- What the scopes of a table are once one of them has one more symbol. -/
structure Extends (table : Table) (id : Nat) (scope : Scope) (name : String) (symbol : Symbol)
    (table' : Table) : Prop where
  inside : table.scopes[id]? = some scope
  fresh : scope.find? name = none
  changed : table'.scopes[id]? = some (scope.add name symbol)
  kept : ∀ other, other ≠ id → table'.scopes[other]? = table.scopes[other]?

theorem extends_of_insert (inserted : table.insert id name kind length = some (symbol, table')) :
    ∃ scope, symbol = scope.place kind length ∧ table.Extends id scope name symbol table' := by
  obtain ⟨scope, inside, fresh, isPlaced, rfl⟩ := insert_eq_some.mp inserted
  have bound := (Array.getElem?_eq_some_iff.mp inside).1
  refine ⟨scope, isPlaced, inside, fresh, ?_, ?_⟩
  · rw [Array.getElem?_setIfInBounds_self_of_lt bound]
  · exact fun other differs => Array.getElem?_setIfInBounds_ne (Ne.symm differs)

namespace Extends

variable (h : table.Extends id scope name symbol table')

include h

theorem answer?_eq {start : Nat} {other : String} (differs : ¬ (other = name ∧ start = id)) :
    table'.answer? other start = table.answer? other start := by
  by_cases isHere : start = id
  · have isOther : other ≠ name := fun same => differs ⟨same, isHere⟩
    rw [isHere, answer?, answer?, h.changed, h.inside, Option.map_some, Option.map_some,
      Scope.find?_add h.fresh, if_neg isOther]
    rfl
  · rw [answer?, answer?, h.kept start isHere]

theorem search_found {start : Nat} (way : ReflTransGen (table.Outward name) start id) :
    table'.search start name = some (some symbol) := by
  have here : table'.search id name = some (some symbol) := by
    apply search_eq_of_answer?
    exact answer?_eq_some.mpr ⟨_, h.changed, by rw [Scope.find?_add h.fresh, if_pos rfl], rfl⟩
  induction way using ReflTransGen.head_induction_on with
  | refl => exact here
  | @head start parent step _ ih =>
      -- on a circle the way may begin at the scope of the symbol, where the search now ends
      by_cases isHere : start = id
      · exact isHere ▸ here
      · rw [outward_iff, ← h.answer?_eq fun same => isHere same.2, ← outward_iff] at step
        rw [step.search_eq]
        exact ih

theorem gains : table.Gains id name symbol table' where
  symbols := by rw [symbolsIn_eq h.changed, symbolsIn_eq h.inside, Scope.add]
  size := by rw [scopeSize_eq h.changed, scopeSize_eq h.inside, Scope.add]
  others other differs := by
    rw [symbolsIn, symbolsIn, scopeSize, scopeSize, h.kept other differs]
    exact ⟨rfl, rfl⟩
  found _ way := h.search_found way
  elsewhere start other differs := by
    apply search_congr
    intro asked way
    apply h.answer?_eq
    rintro ⟨rfl, rfl⟩
    exact differs ⟨rfl, way⟩

end Extends

end Insertion

section Layout

variable {symbols : List (String × Symbol)} {size : Nat}

theorem tiles_nil : Tiles [] 0 := by
  refine ⟨?_, rfl, rfl⟩
  intro before entry after isEmpty
  cases before <;> cases isEmpty

/-- A symbol that begins where the others end lies behind them. -/
theorem Tiles.concat (tiles : Tiles symbols size) (name : String) {symbol : Symbol}
    (offset : symbol.offset = size) :
    Tiles (symbols ++ [(name, symbol)]) (size + symbol.size) := by
  refine ⟨?_, ?_, ?_⟩
  · intro before entry after split
    cases List.eq_nil_or_concat after with
    | inl isEmpty =>
        rw [isEmpty] at split
        obtain ⟨rfl, last⟩ := List.append_inj' split rfl
        cases last
        rw [offset, tiles.total]
    | inr more =>
        obtain ⟨more, last, rfl⟩ := more
        rw [List.concat_eq_append, ← List.cons_append, ← List.append_assoc] at split
        exact tiles.offset before entry more (List.append_inj' split rfl).1
  · rw [List.map_append, List.sum_append, ← tiles.total]
    simp
  · have further : List.range' 0 size ++ List.range' (0 + size) symbol.size =
        List.range' 0 (size + symbol.size) := List.range'_append_1
    rw [Nat.zero_add, ← List.range_eq_range', ← List.range_eq_range'] at further
    rw [List.flatMap_append, tiles.bytes, List.flatMap_singleton, offset, further]

end Layout

section Operations

variable {allowed : Table → Nat → Prop} {table : Table} {op : Op} {declaration : Declaration}

theorem getElem?_scopes_openScope (table : Table) (parent id : Nat) :
    (table.openScope parent).2.scopes[id]? =
      if id = table.scopes.size then some { parent := some parent } else table.scopes[id]? :=
  Array.getElem?_push

@[simp] theorem symbolsIn_openScope (table : Table) (parent id : Nat) :
    (table.openScope parent).2.symbolsIn id = table.symbolsIn id := by
  rw [symbolsIn, symbolsIn, getElem?_scopes_openScope]
  by_cases isNew : id = table.scopes.size
  · simp [isNew]
  · rw [if_neg isNew]

@[simp] theorem scopeSize_openScope (table : Table) (parent id : Nat) :
    (table.openScope parent).2.scopeSize id = table.scopeSize id := by
  rw [scopeSize, scopeSize, getElem?_scopes_openScope]
  by_cases isNew : id = table.scopes.size
  · simp [isNew]
  · rw [if_neg isNew]

theorem tiles_insert {table' : Table} {id : Nat} {name : String} {kind : Symbol.Kind}
    {length : Nat} {symbol : Symbol}
    (inserted : table.insert id name kind length = some (symbol, table'))
    (tiles : ∀ other, Tiles (table.symbolsIn other) (table.scopeSize other)) (other : Nat) :
    Tiles (table'.symbolsIn other) (table'.scopeSize other) := by
  obtain ⟨scope, rfl, extends_⟩ := extends_of_insert inserted
  have gains := extends_.gains
  by_cases isHere : other = id
  · rw [isHere, gains.symbols, gains.size]
    exact (tiles id).concat name (scopeSize_eq extends_.inside).symm
  · obtain ⟨symbols, size⟩ := gains.others other isHere
    rw [symbols, size]
    exact tiles other

theorem Reachable.tiles (reachable : Reachable allowed table) (id : Nat) :
    Tiles (table.symbolsIn id) (table.scopeSize id) := by
  induction reachable generalizing id with
  | empty =>
      cases id with
      | zero => exact tiles_nil
      | succ id => exact tiles_nil
  | openScope _ _ ih =>
      rw [symbolsIn_openScope, scopeSize_openScope]
      exact ih id
  | declare _ declared ih => exact tiles_insert declared ih id
  | declareFunc _ declared ih => exact tiles_insert declared ih id

theorem Op.run_eq (makes : op.declaration? = some declaration) :
    op.run table = table.behind
      (table.insert declaration.id declaration.name declaration.kind declaration.length) := by
  cases op with
  | openScope => cases makes
  | declare | declareFunc =>
      cases makes
      rfl

theorem Op.eq_openScope (makes : op.declaration? = none) : ∃ parent, op = .openScope parent := by
  cases op with
  | openScope parent => exact ⟨parent, rfl⟩
  | declare | declareFunc => cases makes

private theorem symbolsIn_run (table : Table) (id : Nat) (op : Op) :
    (op.run table).2.symbolsIn id = table.symbolsIn id ++ op.handedOut table id := by
  cases makes : op.declaration? with
  | none =>
      obtain ⟨parent, rfl⟩ := op.eq_openScope makes
      rw [Op.handedOut, makes, List.append_nil]
      exact symbolsIn_openScope table parent id
  | some declaration =>
      rw [Op.handedOut, makes, Op.run_eq makes]
      cases inserted : table.insert declaration.id declaration.name declaration.kind
        declaration.length with
      | none => exact (List.append_nil _).symm
      | some made =>
          obtain ⟨symbol, table'⟩ := made
          obtain ⟨scope, _, extends_⟩ := extends_of_insert inserted
          have gains := extends_.gains
          simp only [behind]
          by_cases isHere : declaration.id = id
          · rw [if_pos isHere, ← isHere]
            exact gains.symbols
          · rw [if_neg isHere, List.append_nil]
            exact (gains.others id (Ne.symm isHere)).1

private theorem symbolsIn_after (table : Table) (id : Nat) (ops : List Op) :
    (table.after ops).symbolsIn id = table.symbolsIn id ++ table.handedOut id ops := by
  induction ops generalizing table with
  | nil => exact (List.append_nil _).symm
  | cons op rest ih => rw [after, handedOut, ih, symbolsIn_run, List.append_assoc]

theorem Reachable.run (reachable : Reachable Anywhere table) (op : Op) :
    Reachable Anywhere (op.run table).2 := by
  cases op with
  | openScope parent => exact reachable.openScope trivial
  | declare id name type =>
      rw [Op.run]
      cases declared : table.declare id name type with
      | none => exact reachable
      | some made => exact reachable.declare declared
  | declareFunc name params returns =>
      rw [Op.run]
      cases declared : table.declareFunc name params returns with
      | none => exact reachable
      | some made => exact reachable.declareFunc declared

theorem Reachable.after (reachable : Reachable Anywhere table) (ops : List Op) :
    Reachable Anywhere (table.after ops) := by
  induction ops generalizing table with
  | nil => exact reachable
  | cons op rest ih => exact ih (reachable.run op)

theorem Declaration.frames (makes : op.declaration? = some declaration) :
    declaration.Frames table op where
  refused taken := by rw [Op.run_eq makes, insert_eq_none taken, behind]
  accepted exists_ fresh := by
    have inside := Array.getElem?_eq_getElem exists_
    rw [symbolsIn_eq inside, ← Scope.find?_eq_none] at fresh
    have inserted : table.insert declaration.id declaration.name declaration.kind
        declaration.length = some (_, _) :=
      insert_eq_some.mpr ⟨_, inside, fresh, rfl, rfl⟩
    obtain ⟨scope, isPlaced, extends_⟩ := extends_of_insert inserted
    refine ⟨_, _, by rw [Op.run_eq makes, inserted, behind], ?_, extends_.gains⟩
    rw [scopeSize_eq inside]
    rfl

/-- Operations on the empty table lay the symbols of each scope one behind the other, in the
    order in which they hand them out. Declaring a name that a scope has changes nothing;
    another one gets a symbol behind those of its scope, which is found from there and from
    where a search comes there, while nothing else changes. The bounded search finds what
    the unbounded one finds where that ends. -/
theorem operations_frame (ops : List Op) :
    (∀ id, (empty.after ops).symbolsIn id = empty.handedOut id ops ∧
      Tiles (empty.handedOut id ops) ((empty.after ops).scopeSize id)) ∧
    (∀ op declaration, Op.declaration? op = some declaration →
      declaration.Frames (empty.after ops) op) ∧
    ∀ id name result, (empty.after ops).search id name = some result →
      (empty.after ops).lookup id name = result := by
  have reachable := Reachable.empty.after ops
  refine ⟨?_, fun op declaration makes => declaration.frames makes, ?_⟩
  · intro id
    have symbols : (empty.after ops).symbolsIn id = empty.handedOut id ops := by
      rw [symbolsIn_after]
      cases id with
      | zero => rfl
      | succ id => rfl
    exact ⟨symbols, symbols ▸ reachable.tiles id⟩
  · intro id name result ended
    exact reachable.lookup_eq ended

end Operations

/-- A scope inside a scope inside the global one, which has a function that no scope hides. -/
def hidingOps : List Op :=
  [.declareFunc "x" 2 .int, .openScope 0, .openScope 1, .declare 1 "a" (.intarray 0),
    .declare 1 "b" (.intarray 3), .declare 1 "c" .bool]

def hidingFunc : Symbol := { kind := .function 2 .int, offset := 0, length := 0 }

def hidingSymbols : List (String × Symbol) :=
  [("a", { kind := .intarray, offset := 0, length := 0 }),
    ("b", { kind := .intarray, offset := 0, length := 3 }),
    ("c", { kind := .bool, offset := 12, length := 1 })]

/-- A variable in the scope in between hides the function there and inside, and nowhere else. -/
theorem operations_frame_hiding :
    empty.handedOut 1 hidingOps = hidingSymbols ∧ Tiles hidingSymbols 16 ∧
    (Op.declare 1 "b" .int).run (empty.after hidingOps) = (none, empty.after hidingOps) ∧
    ∃ symbol table',
      (Op.declare 1 "x" .int).run (empty.after hidingOps) = (some symbol, table') ∧
      symbol = { kind := .int, offset := 16, length := 1 } ∧
      (empty.after hidingOps).search 2 "x" = some (some hidingFunc) ∧
      table'.search 2 "x" = some (some symbol) ∧ table'.search 0 "x" = some (some hidingFunc) ∧
      (empty.after hidingOps).lookup 2 "x" = some hidingFunc := by
  obtain ⟨layout, frames, bounded⟩ := operations_frame hidingOps
  have handed : empty.handedOut 1 hidingOps = hidingSymbols := by decide +kernel
  have size : (empty.after hidingOps).scopeSize 1 = 16 := by decide +kernel
  have inner : (empty.after hidingOps).Outward "x" 2 1 := outward_iff.mpr (by decide +kernel)
  have middle : (empty.after hidingOps).Outward "x" 1 0 := outward_iff.mpr (by decide +kernel)
  have outer : (empty.after hidingOps).answer? "x" 0 = some (some hidingFunc, none) := by
    decide +kernel
  have hidden : (empty.after hidingOps).search 2 "x" = some (some hidingFunc) := by
    rw [inner.search_eq, middle.search_eq, search_eq_of_answer? outer]
  obtain ⟨symbols, tiles⟩ := layout 1
  rw [handed] at symbols tiles
  have refused := (frames (.declare 1 "b" .int) _ rfl).refused (by rw [symbols]; decide)
  obtain ⟨symbol, table', ran, isPlaced, gains⟩ :=
    (frames (.declare 1 "x" .int) _ rfl).accepted (by decide +kernel) (by rw [symbols]; decide)
  have kept : table'.search 0 "x" = (empty.after hidingOps).search 0 "x" := by
    apply gains.elsewhere
    rintro ⟨_, way⟩
    cases way.cases_head with
    | inl same => cases same
    | inr further =>
        obtain ⟨parent, step, _⟩ := further
        rw [outward_iff, outer] at step
        cases step
  rw [search_eq_of_answer? outer] at kept
  refine ⟨handed, size ▸ tiles, refused, symbol, table', ran, ?_, hidden,
    gains.found 2 (.single inner), kept, bounded 2 "x" _ hidden⟩
  rw [isPlaced, size]
  rfl

end Table

end Wordlang
