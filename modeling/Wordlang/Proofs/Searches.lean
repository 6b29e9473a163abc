import Mathlib.Data.Fintype.EquivFin
import Mathlib.Data.List.Basic
import Mathlib.Data.List.Perm.Subperm
import Wordlang.Proofs.Scopes
import Wordlang.Scope.Search

/-! # Searching enclosing scopes

The way outward from a scope is the same each time a scope is asked, so a search that
comes to a scope twice never ends. That it does not come to a scope twice is no
property of all tables, only of those ways that no circle crosses
(`Table.exists_walk`). Where scopes are opened inside existing ones only, all ways
lead to smaller numbers, and every search ends.
-/

namespace Wordlang

namespace Table

section Walks

variable {table : Table} {name : String} {id : Nat}

theorem Straight.not_circles (straight : table.Straight) (name : String) (id : Nat) :
    ¬ table.Circles name id := by
  intro ⟨scope, _, circle⟩
  have inside : ∀ inner outer, table.Outward name inner outer → table.Inside inner outer :=
    fun _ _ ⟨found, at_, _, enclosed⟩ => ⟨found, at_, enclosed⟩
  exact straight scope (Relation.TransGen.mono inside _ _ circle)

/-- A search that ends has asked some scopes. -/
theorem walk_of_search {result : Option Symbol} (ended : table.search id name = some result) :
    ∃ visited, table.Walk name id visited result := by
  refine search.partial_correctness table name
    (fun id result => ∃ visited, table.Walk name id visited result) ?_ id result ended
  intro search ih id result ended
  split at ended
  · next outside =>
    obtain rfl := Option.some.inj ended
    exact ⟨_, .outside outside⟩
  · next scope inside =>
    split at ended
    · next symbol found =>
      obtain rfl := Option.some.inj ended
      exact ⟨_, .found inside found⟩
    · next missing =>
      split at ended
      · next outermost =>
        obtain rfl := Option.some.inj ended
        exact ⟨_, .outermost inside missing outermost⟩
      · next parent enclosed =>
        obtain ⟨visited, rest⟩ := ih parent result ended
        exact ⟨_, .outward inside missing enclosed rest⟩

/-- A search that goes on outward finds what it finds there. -/
theorem Outward.search_eq {parent : Nat} (step : table.Outward name id parent) :
    table.search id name = table.search parent name := by
  obtain ⟨scope, inside, missing, enclosed⟩ := step
  rw [search]
  simp only [inside, missing, enclosed]

/-- A search that has asked some scopes ends. -/
theorem Walk.search_eq_some {visited : List Nat} {result : Option Symbol}
    (walk : table.Walk name id visited result) : table.search id name = some result := by
  induction walk with
  | outside outside => rw [search, outside]
  | found inside found => simp only [search, inside, found]
  | outermost inside missing outermost => simp only [search, inside, missing, outermost]
  | outward inside missing enclosed _ ih =>
      rw [Outward.search_eq ⟨_, inside, missing, enclosed⟩]
      exact ih

theorem Outward.unique {parent other : Nat} (first : table.Outward name id parent)
    (second : table.Outward name id other) : parent = other := by
  obtain ⟨scope, inside, _, enclosed⟩ := first
  obtain ⟨scope', inside', _, enclosed'⟩ := second
  obtain rfl : scope = scope' := Option.some.inj (inside.symm.trans inside')
  exact Option.some.inj (enclosed.symm.trans enclosed')

theorem Walk.acc {visited : List Nat} {result : Option Symbol}
    (walk : table.Walk name id visited result) :
    Acc (Function.swap (table.Outward name)) id := by
  induction walk with
  | outside outside =>
      refine Acc.intro _ fun parent ⟨scope, inside, _⟩ => ?_
      cases outside.symm.trans inside
  | found inside found =>
      refine Acc.intro _ fun parent ⟨scope, inside', missing, _⟩ => ?_
      obtain rfl := Option.some.inj (inside.symm.trans inside')
      cases found.symm.trans missing
  | outermost inside _ outermost =>
      refine Acc.intro _ fun parent ⟨scope, inside', _, enclosed⟩ => ?_
      obtain rfl := Option.some.inj (inside.symm.trans inside')
      cases outermost.symm.trans enclosed
  | outward inside missing enclosed _ ih =>
      refine Acc.intro _ fun parent step => ?_
      obtain rfl := step.unique ⟨_, inside, missing, enclosed⟩
      exact ih

theorem not_transGen_self (acc : Acc (Function.swap (table.Outward name)) id) :
    ¬ Relation.TransGen (table.Outward name) id id := by
  have descent := acc.transGen
  clear acc
  induction descent with
  | intro id _ ih => exact fun circle => ih id (Relation.transGen_swap.mpr circle) circle

theorem Circles.search_eq_none (circles : table.Circles name id) : table.search id name = none := by
  cases ended : table.search id name with
  | none => rfl
  | some result =>
      obtain ⟨visited, walk⟩ := walk_of_search ended
      obtain ⟨scope, way, circle⟩ := circles
      have inner : Acc (Function.swap (table.Outward name)) scope := by
        clear circle
        induction way with
        | refl => exact walk.acc
        | tail _ step ih => exact ih.inv step
      exact absurd circle (not_transGen_self inner)

theorem Walk.reflTransGen {visited : List Nat} {result : Option Symbol}
    (walk : table.Walk name id visited result) :
    ∀ asked ∈ visited, Relation.ReflTransGen (table.Outward name) id asked := by
  induction walk with
  | outside | found | outermost => simp [Relation.ReflTransGen.refl]
  | outward inside missing enclosed _ ih =>
      intro asked mem
      obtain rfl | mem := List.mem_cons.mp mem
      · exact .refl
      · exact .head ⟨_, inside, missing, enclosed⟩ (ih asked mem)

theorem Walk.nodup {visited : List Nat} {result : Option Symbol}
    (walk : table.Walk name id visited result) : visited.Nodup := by
  induction walk with
  | outside | found | outermost => exact List.nodup_singleton _
  | outward inside missing enclosed rest ih =>
      refine List.nodup_cons.mpr ⟨fun again => ?_, ih⟩
      have whole := Walk.outward inside missing enclosed rest
      exact not_transGen_self whole.acc
        (.head' ⟨_, inside, missing, enclosed⟩ (rest.reflTransGen _ again))

theorem Walk.front {visited : List Nat} {result : Option Symbol}
    (walk : table.Walk name id visited result) : ∃ front last, visited = front ++ [last] ∧
      ∀ asked ∈ front, ∃ parent, table.Outward name asked parent := by
  induction walk with
  | outside | found | outermost => exact ⟨[], _, rfl, by simp⟩
  | outward inside missing enclosed _ ih =>
      obtain ⟨front, last, rfl, steps⟩ := ih
      exact ⟨_ :: front, last, rfl, List.forall_mem_cons.mpr
        ⟨⟨_, _, inside, missing, enclosed⟩, steps⟩⟩

/-- At most as many scopes are asked as there are, provided that the first of them has
    no enclosing one. -/
theorem Walk.length_le {visited : List Nat} {result : Option Symbol} {scope : Scope}
    (walk : table.Walk name id visited result) (first : table.scopes[globalScope]? = some scope)
    (outermost : scope.parent = none) : visited.length ≤ table.scopes.size := by
  obtain ⟨front, last, rfl, steps⟩ := walk.front
  have nodup := (List.nodup_append.mp walk.nodup).1
  have inner : front ⊆ List.range' 1 (table.scopes.size - 1) := by
    intro asked mem
    obtain ⟨parent, scope', inside, _, enclosed⟩ := steps asked mem
    have exists_ := (Array.getElem?_eq_some_iff.mp inside).1
    have notFirst : asked ≠ globalScope := by
      rintro rfl
      obtain rfl := Option.some.inj (first.symm.trans inside)
      cases outermost.symm.trans enclosed
    unfold globalScope at notFirst
    rw [List.mem_range'_1]
    omega
  have bound := (nodup.subperm inner).length_le
  have nonempty := (Array.getElem?_eq_some_iff.mp first).1
  rw [List.length_range'] at bound
  rw [List.length_append, List.length_singleton]
  omega

/-- From the start of a search there is a way to a scope, and from there to another one. -/
def Behind (table : Table) (name : String) (start : Nat)
    (outer inner : Fin table.scopes.size) : Prop :=
  Relation.ReflTransGen (table.Outward name) start inner ∧
    Relation.TransGen (table.Outward name) inner outer

private theorem wellFounded_behind (straight : ¬ table.Circles name id) :
    WellFounded (table.Behind name id) :=
  have : IsTrans _ (table.Behind name id) :=
    ⟨fun _ _ _ ⟨_, second⟩ ⟨way, first⟩ => ⟨way, first.trans second⟩⟩
  have : Std.Irrefl (table.Behind name id) :=
    ⟨fun scope ⟨way, circle⟩ => straight ⟨scope, way, circle⟩⟩
  Finite.wellFounded_of_trans_of_irrefl _

/-- A search that never comes to a circle asks some scopes and ends. -/
theorem exists_walk (straight : ¬ table.Circles name id) :
    ∃ visited result, table.Walk name id visited result := by
  have inside : ∀ start : Fin table.scopes.size,
      Relation.ReflTransGen (table.Outward name) id start →
        ∃ visited result, table.Walk name start visited result := by
    intro start
    induction start using (wellFounded_behind straight).induction with
    | _ start ih =>
      intro way
      have at_ : table.scopes[start.val]? = some table.scopes[start.val] := by simp
      cases found : table.scopes[start.val].find? name with
      | some symbol => exact ⟨_, _, .found at_ found⟩
      | none =>
          cases enclosed : table.scopes[start.val].parent with
          | none => exact ⟨_, _, .outermost at_ found enclosed⟩
          | some parent =>
              have step : table.Outward name start parent := ⟨_, at_, found, enclosed⟩
              by_cases exists_ : parent < table.scopes.size
              · obtain ⟨visited, result, rest⟩ :=
                  ih ⟨parent, exists_⟩ ⟨way, .single step⟩ (way.tail step)
                exact ⟨_, _, .outward at_ found enclosed rest⟩
              · have outside := Array.getElem?_eq_none (Nat.le_of_not_lt exists_)
                exact ⟨_, _, .outward at_ found enclosed (.outside outside)⟩
  by_cases exists_ : id < table.scopes.size
  · exact inside ⟨id, exists_⟩ .refl
  · exact ⟨_, _, .outside (Array.getElem?_eq_none (Nat.le_of_not_lt exists_))⟩

theorem Walk.findSome?_outward {visited : List Nat} {result : Option Symbol}
    (walk : table.Walk name id visited result) {fuel : Nat} (enough : visited.length ≤ fuel) :
    (table.outward fuel id).findSome? (·.find? name) = result := by
  induction walk generalizing fuel with
  | outside outside =>
      obtain ⟨fuel, rfl⟩ : ∃ more, fuel = more + 1 := ⟨fuel - 1, by simp at enough; omega⟩
      simp only [Table.outward, outside, List.findSome?_nil]
  | @found _ scope _ inside found =>
      obtain ⟨fuel, rfl⟩ : ∃ more, fuel = more + 1 := ⟨fuel - 1, by simp at enough; omega⟩
      cases enclosed : scope.parent <;> simp [Table.outward, inside, enclosed, found]
  | outermost inside missing outermost =>
      obtain ⟨fuel, rfl⟩ : ∃ more, fuel = more + 1 := ⟨fuel - 1, by simp at enough; omega⟩
      simp [Table.outward, inside, outermost, missing]
  | outward inside missing enclosed _ ih =>
      obtain ⟨fuel, rfl⟩ : ∃ more, fuel = more + 1 := ⟨fuel - 1, by simp at enough; omega⟩
      have rest := ih (Nat.le_of_succ_le_succ enough)
      simp [Table.outward, inside, enclosed, missing, rest]

end Walks

def parents (table : Table) : Array (Option Nat) := table.scopes.map Scope.parent

/-- A declaration that succeeds puts a new symbol behind those of its scope. -/
theorem insert_eq_some {table table' : Table} {id : Nat} {name : String} {kind : Symbol.Kind}
    {length : Nat} {symbol : Symbol} :
    table.insert id name kind length = some (symbol, table') ↔
      ∃ scope, table.scopes[id]? = some scope ∧ scope.find? name = none ∧
        symbol = scope.place kind length ∧
          table' = { scopes := table.scopes.setIfInBounds id (scope.add name symbol) } := by
  cases inside : table.scopes[id]? with
  | none => simp [insert, inside]
  | some scope =>
      cases found : scope.find? name with
      | some symbol => simp [insert, inside, found]
      | none =>
          simp only [insert, inside, found, Option.some.injEq, Prod.mk.injEq]
          constructor
          · rintro ⟨rfl, rfl⟩
            exact ⟨scope, rfl, found, rfl, rfl⟩
          · rintro ⟨_, rfl, _, rfl, rfl⟩
            exact ⟨rfl, rfl⟩

theorem parents_of_insert {table table' : Table} {id : Nat} {name : String} {kind : Symbol.Kind}
    {length : Nat} {symbol : Symbol}
    (h : table.insert id name kind length = some (symbol, table')) :
    table'.parents = table.parents := by
  obtain ⟨scope, inside, _, _, rfl⟩ := insert_eq_some.mp h
  obtain ⟨bound, rfl⟩ := Array.getElem?_eq_some_iff.mp inside
  have inParents : id < table.parents.size := by simpa [parents]
  have kept := Array.set_getElem_self inParents
  simpa [parents, Scope.add, Array.setIfInBounds, bound] using kept

@[simp] theorem parents_openScope (table : Table) (parent : Nat) :
    (table.openScope parent).2.parents = table.parents.push (some parent) := by
  simp [parents, openScope]

theorem parents_eq_some {table : Table} {id : Nat} {parent : Option Nat} :
    table.parents[id]? = some parent ↔
      ∃ scope, table.scopes[id]? = some scope ∧ scope.parent = parent := by
  simp [parents]

namespace Reachable

variable {allowed : Table → Nat → Prop} {table : Table}

/-- What holds of the parents of the empty table and stays when a scope is opened holds of
    all tables that arise: declaring does not touch them. -/
theorem parents_induction {p : Array (Option Nat) → Prop} (empty : p #[none])
    (opened : ∀ table parent, allowed table parent → p table.parents →
      p (table.parents.push (some parent))) (reachable : Reachable allowed table) :
    p table.parents := by
  induction reachable with
  | empty => simpa [parents, Table.empty] using empty
  | openScope _ may ih => exact parents_openScope _ _ ▸ opened _ _ may ih
  | declare _ declared ih => exact parents_of_insert declared ▸ ih
  | declareFunc _ declared ih => exact parents_of_insert declared ▸ ih

/-- The global scope lies in no other one. -/
theorem global (reachable : Reachable allowed table) :
    ∃ scope, table.scopes[globalScope]? = some scope ∧ scope.parent = none := by
  refine parents_eq_some.mp (parents_induction (p := fun parents => parents[0]? = some none)
    rfl ?_ reachable)
  intro table parent _ first
  have bound := (Array.getElem?_eq_some_iff.mp first).1
  rw [Array.getElem?_push_lt bound]
  exact congrArg some (Array.getElem?_eq_some_iff.mp first).2

theorem inside_lt (reachable : Reachable Existing table) {id parent : Nat}
    (step : table.Inside id parent) : parent < id := by
  have down := parents_induction
    (p := fun parents => ∀ id parent, parents[id]? = some (some parent) → parent < id)
    (by
      intro id parent at_
      have bound := (Array.getElem?_eq_some_iff.mp at_).1
      obtain rfl : id = 0 := by simpa using bound
      cases at_)
    (by
      intro table opened existing down id parent at_
      rw [Array.getElem?_push] at at_
      split at at_
      · next last =>
        cases at_
        simpa [last, parents, Existing] using existing
      · exact down id parent at_) reachable
  exact down id parent (parents_eq_some.mpr step)

/-- Where scopes are opened inside existing ones, none lies inside itself. -/
theorem straight (reachable : Reachable Existing table) : table.Straight := by
  intro scope circle
  have down : ∀ outer, Relation.TransGen table.Inside scope outer → outer < scope := by
    intro outer way
    induction way with
    | single step => exact reachable.inside_lt step
    | tail _ step ih => exact (reachable.inside_lt step).trans ih
  exact Nat.lt_irrefl _ (down scope circle)

theorem not_circles (reachable : Reachable Existing table) (name : String) (id : Nat) :
    ¬ table.Circles name id :=
  reachable.straight.not_circles name id

end Reachable

/-- Where a search ends, the bounded search finds the same. -/
theorem Reachable.lookup_eq {allowed : Table → Nat → Prop} {table : Table} {name : String}
    {id : Nat} {result : Option Symbol} (reachable : Reachable allowed table)
    (ended : table.search id name = some result) : table.lookup id name = result := by
  obtain ⟨visited, walk⟩ := walk_of_search ended
  obtain ⟨scope, first, outermost⟩ := reachable.global
  exact walk.findSome?_outward (walk.length_le first outermost)

theorem Reachable.ends_iff {allowed : Table → Nat → Prop} {table : Table} {name : String}
    {id : Nat} (reachable : Reachable allowed table) :
    table.Ends name id ↔ ¬ table.Circles name id := by
  constructor
  · rintro ⟨visited, result, -, -, -, ended⟩ circles
    cases ended.symm.trans circles.search_eq_none
  · intro straight
    obtain ⟨visited, result, walk⟩ := exists_walk straight
    obtain ⟨scope, first, outermost⟩ := reachable.global
    exact ⟨visited, result, walk, walk.nodup, walk.length_le first outermost, walk.search_eq_some⟩

/-- Searching a name ends, asking no scope twice and at most as many as there are, unless
    it comes to a circle of scopes that lack the name; then it does not end. It ends when
    all scopes were opened inside existing ones. A circle that one of its scopes breaks,
    because it has the name, does not matter. -/
theorem Reachable.search_ends_unless_circles {table : Table} (reachable : Reachable Anywhere table)
    (name : String) (id : Nat) :
    (table.Ends name id ↔ ¬ table.Circles name id) ∧
      (table.Circles name id → table.search id name = none) ∧
        (Reachable Existing table → table.Ends name id) :=
  ⟨reachable.ends_iff, Circles.search_eq_none,
    fun inner => inner.ends_iff.mpr (inner.not_circles name id)⟩

/-- Three scopes: one inside a scope that is opened later, one inside itself, and one
    inside the global scope. -/
def crossing : Table := (((Table.empty.openScope 3).2.openScope 2).2.openScope 0).2

theorem crossing_search_ends_unless_circles : Reachable Anywhere crossing ∧
    crossing.Ends "x" 1 ∧ crossing.Circles "x" 2 ∧ crossing.search 2 "x" = none ∧
      (Table.empty.openScope 0).2.Ends "x" 1 := by
  have reachable : Reachable Anywhere crossing :=
    .openScope (.openScope (.openScope .empty trivial) trivial) trivial
  have walk : crossing.Walk "x" 1 [1, 3, 0] none :=
    .outward rfl rfl rfl (.outward rfl rfl rfl (.outermost rfl rfl rfl))
  have straight : ¬ crossing.Circles "x" 1 := fun circles => by
    cases walk.search_eq_some.symm.trans circles.search_eq_none
  have circles : crossing.Circles "x" 2 := ⟨2, .refl, .single ⟨_, rfl, rfl, rfl⟩⟩
  have inner : Reachable Anywhere (Table.empty.openScope 0).2 := .openScope .empty trivial
  exact ⟨reachable, (reachable.search_ends_unless_circles "x" 1).1.mpr straight, circles,
    (reachable.search_ends_unless_circles "x" 2).2.1 circles,
    (inner.search_ends_unless_circles "x" 1).2.2 (.openScope .empty Nat.zero_lt_one)⟩

/-- A scope that is opened inside itself is asked again and again. -/
theorem not_all_searches_end :
    ¬ ∀ table, Reachable Anywhere table → ∀ id name, table.Ends name id := by
  intro all
  obtain ⟨visited, result, -, -, -, ended⟩ :=
    all (Table.empty.openScope 1).2 (.openScope .empty trivial) 1 "x"
  have step : (Table.empty.openScope 1).2.Outward "x" 1 1 := ⟨_, rfl, rfl, rfl⟩
  have circles : (Table.empty.openScope 1).2.Circles "x" 1 := ⟨1, .refl, .single step⟩
  cases ended.symm.trans circles.search_eq_none

namespace Reachable

variable {allowed : Table → Nat → Prop} {table table' : Table}

theorem foldlM {α : Type} {step : Table → α → Except CompileError Table}
    (each : ∀ {table item table'}, Reachable allowed table → step table item = .ok table' →
      Reachable allowed table')
    {items : List α} (reachable : Reachable allowed table)
    (done : items.foldlM step table = .ok table') : Reachable allowed table' := by
  induction items generalizing table with
  | nil =>
      obtain rfl := Except.ok.inj done
      exact reachable
  | cons item rest ih =>
      rw [List.foldlM_cons] at done
      obtain ⟨next, first, later⟩ := bind_eq_ok.mp done
      exact ih (each reachable first) later

theorem declareFuncs {program : Program} (reachable : Reachable allowed table)
    (done : table.declareFuncs program = .ok table') : Reachable allowed table' := by
  induction program generalizing table with
  | nil =>
      obtain rfl := Except.ok.inj done
      exact reachable
  | cons func rest ih =>
      rw [Table.declareFuncs] at done
      split at done
      · next declared => exact ih (reachable.declareFunc declared) done
      · exact absurd done throw_ne_ok

theorem declareVar {scope : Nat} {name : String} {type : Ty} {line : Nat}
    (reachable : Reachable allowed table)
    (done : table.declareVar scope name type line = .ok table') : Reachable allowed table' := by
  unfold Table.declareVar at done
  split at done
  · exact absurd done throw_ne_ok
  · split at done
    · next declared =>
      obtain rfl := Except.ok.inj done
      exact reachable.declare declared
    · exact absurd done throw_ne_ok

theorem declareParam {scope : Nat} {param : Param} (reachable : Reachable allowed table)
    (done : table.declareParam scope param = .ok table') : Reachable allowed table' := by
  unfold Table.declareParam at done
  split at done
  · exact absurd done throw_ne_ok
  · exact reachable.declareVar done

theorem declareLocals {func : Func} {scope : Nat} (reachable : Reachable Existing table)
    (done : table.declareLocals func = .ok (scope, table')) : Reachable Existing table' := by
  obtain ⟨_, first, _⟩ := reachable.global
  have opened := reachable.openScope (Array.getElem?_eq_some_iff.mp first).1
  obtain ⟨table₁, params, done⟩ := bind_eq_ok.mp done
  obtain ⟨table₂, decls, done⟩ := bind_eq_ok.mp done
  cases done
  exact (opened.foldlM declareParam params).foldlM (fun reachable => reachable.foldlM declareVar)
    decls

theorem checkerFuncs {funcs checked : List Func} {checker checker' : Checker}
    (reachable : Reachable Existing checker.table)
    (done : Checker.funcs funcs checker = .ok checked checker') :
    Reachable Existing checker'.table := by
  induction funcs generalizing checker checked with
  | nil =>
      obtain ⟨-, rfl⟩ := run_pure_eq_ok.mp done
      exact reachable
  | cons func rest ih =>
      obtain ⟨first, checker₁, one, done⟩ := run_bind_eq_ok.mp done
      obtain ⟨others, checker₂, more, done⟩ := run_bind_eq_ok.mp done
      obtain ⟨-, rfl⟩ := run_pure_eq_ok.mp done
      obtain ⟨scope, table, declared, _, _, next⟩ := Checker.func_eq_ok one
      exact ih (next ▸ reachable.declareLocals declared) more

end Reachable

end Table

theorem Program.ends_of_check {program checked : Program} {checker : Checker}
    (h : program.check = .ok checked checker) (name : String) (id : Nat) :
    checker.table.Ends name id := by
  obtain ⟨_, _, got, h⟩ := run_bind_eq_ok.mp h
  obtain ⟨table, _, declared, h⟩ := run_bind_eq_ok.mp h
  obtain ⟨_, _, set, h⟩ := run_bind_eq_ok.mp h
  cases got
  obtain ⟨functions, rfl⟩ := Checker.lift_eq_ok declared
  cases set
  have reachable := (Table.Reachable.empty.declareFuncs functions).checkerFuncs h
  exact reachable.ends_iff.mpr (reachable.not_circles name id)

end Wordlang
