import Wordlang.Proofs.Bounds
import Wordlang.Proofs.Propagation
import Wordlang.Proofs.Uses
import Wordlang.Proofs.Visits
import Wordlang.Proofs.WellFormed
import Mathlib.Data.List.Flatten
import Mathlib.Order.Bounds.Defs

/-! # Live nodes

The table of a program has entries for the nodes of live statements and for no others:
the analysis, which decides anew in each pass of each loop what can be reached, ends up
with what code generation decides once from the table. That nothing else is walked
follows from the table lying above every walk. That all of it is walked shows in a table
that is `bottom` wherever no walk came, for no fact of an expression is `bottom`. As the
table lies above every walk, it holds the greatest of all facts that were recorded of a
node (`Program.table_greatest`), whatever the order in which they were.
-/

namespace Wordlang

namespace FactTable

theorem mem_facts_ofList {entries : List (Nat × Fact)} {id : Nat} :
    id ∈ (ofList entries).facts ↔ id ∈ entries.map (·.1) := by
  induction entries using List.reverseRecOn with
  | nil => simp [ofList, empty]
  | append_singleton entries entry ih =>
      rw [ofList_concat, set, Std.TreeMap.mem_insert, Nat.compare_eq_eq, ih, List.map_append,
        List.mem_append, List.map_singleton, List.mem_singleton, or_comm, eq_comm]

/-- What a table says of an id with an entry is one of the entries. -/
theorem get_ofList_mem {entries : List (Nat × Fact)} {id : Nat}
    (mem : id ∈ entries.map (·.1)) : (id, (ofList entries).get id) ∈ entries := by
  induction entries using List.reverseRecOn with
  | nil => exact absurd mem List.not_mem_nil
  | append_singleton entries entry ih =>
      rw [ofList_concat, get_set, List.mem_append, List.mem_singleton]
      by_cases isLast : entry.1 = id
      · rw [if_pos isLast, ← isLast]
        exact .inr rfl
      · rw [if_neg isLast]
        rw [List.map_append, List.mem_append, List.map_singleton, List.mem_singleton] at mem
        exact .inl (ih (mem.resolve_right (Ne.symm isLast)))

theorem get_ofList_of_notMem {entries : List (Nat × Fact)} {id : Nat}
    (absent : id ∉ entries.map (·.1)) : (ofList entries).get id = .top := by
  rw [get, Std.TreeMap.getElem?_eq_none (mem_facts_ofList.not.mpr absent)]
  rfl

theorem size_eq_length {table : FactTable} {ids : List Nat} (nodup : ids.Nodup)
    (same : ∀ id, id ∈ table.facts ↔ id ∈ ids) : table.size = ids.length := by
  have perm : table.facts.keys.Perm ids := by
    apply (List.perm_ext_iff_of_nodup Std.TreeMap.nodup_keys nodup).mpr
    intro id
    rw [Std.TreeMap.mem_keys, same]
  rw [size, ← Std.TreeMap.length_keys, perm.length_eq]

/-- The table of a trail that says of the other ids that nothing was seen there. -/
def unseen (ids : List Nat) (trail : List (Nat × Fact)) : FactTable :=
  ofList (ids.map (·, .bottom) ++ trail)

section Unseen

variable {ids : List Nat} {trail : List (Nat × Fact)}

theorem unseen_holds (ids : List Nat) (trail : List (Nat × Fact)) :
    (unseen ids trail).Holds trail := by
  intro id mem
  rw [unseen, get_ofList_append, if_pos mem]

theorem get_unseen {id : Nat} (mem : id ∈ ids) (absent : id ∉ trail.map (·.1)) :
    (unseen ids trail).get id = .bottom := by
  rw [unseen, get_ofList_append, if_neg absent]
  induction ids using List.reverseRecOn with
  | nil => exact absurd mem List.not_mem_nil
  | append_singleton ids last ih =>
      rw [List.map_append, get_ofList_append]
      by_cases isLast : id = last
      · rw [if_pos (by simp [isLast]), isLast]
        exact (get_set _ _ _ _).trans (if_pos rfl)
      · rw [if_neg (by simpa using isLast)]
        exact ih ((List.mem_append.mp mem).resolve_right (by simpa using isLast))

theorem known_unseen (ids : List Nat) (trail : List (Nat × Fact)) :
    (unseen ids trail).known = (ofList trail).known := by
  funext e
  by_cases mem : e.id ∈ trail.map (·.1)
  · rw [known, known, unseen_holds ids trail e.id mem]
  · rw [known, known, get_ofList_of_notMem mem]
    by_cases inIds : e.id ∈ ids
    · rw [get_unseen inIds mem]
      rfl
    · rw [unseen, get_ofList_of_notMem (by simpa using ⟨inIds, by simpa using mem⟩)]

end Unseen

def Seen (table : FactTable) (ids : List Nat) : Prop := ∀ id ∈ ids, table.get id ≠ .bottom

section Seen

variable {table : FactTable}

@[simp] theorem seen_append {first second : List Nat} :
    table.Seen (first ++ second) ↔ table.Seen first ∧ table.Seen second :=
  List.forall_mem_append

theorem seen_ite {c : Prop} [Decidable c] {stmts : List Stmt}
    (seen : c → table.Seen (Stmt.idsAll stmts)) :
    table.Seen (Stmt.idsAll (if c then stmts else [])) := by
  by_cases holds : c
  · rw [if_pos holds]
    exact seen holds
  · rw [if_neg holds]
    exact nofun

theorem Knows.seen {state : State} {e : Expr} (knows : table.Knows state e) :
    table.Seen e.ids := by
  intro id mem
  obtain ⟨part, inside, rfl⟩ := List.mem_map.mp mem
  rw [knows part inside]
  exact part.fact_ne_bottom state

theorem seen_of_forall_knows {state : State} {es : List Expr}
    (knows : ∀ e ∈ es, table.Knows state e) : table.Seen (es.flatMap Expr.ids) := by
  intro id mem
  obtain ⟨e, inside, mem⟩ := List.mem_flatMap.mp mem
  exact (knows e inside).seen id mem

/-- A table that fits statements has seen the nodes of those that are live under it. -/
theorem Fits.seen {stmts : List Stmt} {state last : State} (fits : table.Fits stmts state last) :
    table.Seen (Stmt.idsAll (Stmt.liveAll table.known stmts)) := by
  cases stmts with
  | nil => exact nofun
  | cons stmt rest =>
      suffices both : table.Seen ((stmt.live table.known).exprs.flatMap Expr.ids) ∧
          table.Seen (Stmt.idsAll (Stmt.liveAll table.known rest)) by
        simpa [Stmt.idsAll, Stmt.liveAll, Stmt.exprsAll] using both
      cases stmt with
      | assign target value =>
          cases fits with
          | assign knows fits =>
            exact ⟨seen_of_forall_knows (by simpa [Stmt.live, Stmt.exprs] using knows), fits.seen⟩
      | assignIndex target index value =>
          cases fits with
          | assignIndex knowsIndex knows fits =>
            simp only [Stmt.live, Stmt.exprs, List.flatMap_cons, List.flatMap_nil, seen_append]
            exact ⟨⟨knowsIndex.seen, knows.seen, nofun⟩, fits.seen⟩
      | call line target callee args =>
          cases fits with
          | call knows fits => exact ⟨seen_of_forall_knows knows, fits.seen⟩
      | callIndex line target index callee args =>
          cases fits with
          | callIndex knowsIndex knows fits =>
            simp only [Stmt.live, Stmt.exprs, List.flatMap_cons, seen_append]
            exact ⟨⟨knowsIndex.seen, seen_of_forall_knows knows⟩, fits.seen⟩
      | when cond body =>
          obtain ⟨joined, knows, taken, _, fits⟩ := fits.when_cases
          simp only [Stmt.live, Stmt.exprs, List.flatMap_cons, seen_append]
          refine ⟨⟨knows.seen, seen_ite fun isOpen => ?_⟩, fits.seen⟩
          obtain ⟨after, fits, _⟩ := taken (by rwa [knows.known] at isOpen)
          exact fits.seen
      | choose cond thens elses =>
          obtain ⟨joined, knows, taken, skipped, fits⟩ := fits.choose_cases
          simp only [Stmt.live, Stmt.exprs, List.flatMap_cons, List.flatMap_append, seen_append]
          refine ⟨⟨knows.seen, seen_ite fun isOpen => ?_, seen_ite fun isOpen => ?_⟩, fits.seen⟩
          · obtain ⟨after, fits, _⟩ := taken (by rwa [knows.known] at isOpen)
            exact fits.seen
          · obtain ⟨after, fits, _⟩ := skipped (by rwa [knows.known] at isOpen)
            exact fits.seen
      | loop cond body =>
          obtain ⟨stable, _, knows, passes, fits⟩ := fits.loop_cases
          simp only [Stmt.live, Stmt.exprs, List.flatMap_cons, seen_append]
          refine ⟨⟨knows.seen, seen_ite fun isOpen => ?_⟩, fits.seen⟩
          obtain ⟨after, fits, _⟩ := passes (by rwa [knows.known] at isOpen)
          exact fits.seen
      | block body =>
          cases fits with
          | block fits fitsRest => exact ⟨fits.seen, fitsRest.seen⟩
termination_by sizeOf stmts

end Seen

end FactTable

section Sublists

variable (known : Expr → Option Word)

theorem Stmt.exprsAll_ite_sublist {c : Prop} [Decidable c] {stmts stmts' : List Stmt}
    (sub : (exprsAll stmts).Sublist (exprsAll stmts')) :
    (exprsAll (if c then stmts else [])).Sublist (exprsAll stmts') := by
  split
  · exact sub
  · exact List.nil_sublist _

mutual

theorem Stmt.exprs_live_sublist (stmt : Stmt) : (stmt.live known).exprs.Sublist stmt.exprs := by
  cases stmt with
  | assign | assignIndex | call | callIndex => exact List.Sublist.refl _
  | when cond body | loop cond body =>
      exact (exprsAll_ite_sublist (exprsAll_live_sublist body)).cons_cons cond
  | choose cond thens elses =>
      exact ((exprsAll_ite_sublist (exprsAll_live_sublist thens)).append
        (exprsAll_ite_sublist (exprsAll_live_sublist elses))).cons_cons cond
  | block body => exact exprsAll_live_sublist body

theorem Stmt.exprsAll_live_sublist (stmts : List Stmt) :
    (exprsAll (liveAll known stmts)).Sublist (exprsAll stmts) := by
  cases stmts with
  | nil => exact List.Sublist.refl _
  | cons stmt rest => exact (exprs_live_sublist stmt).append (exprsAll_live_sublist rest)

end

theorem Program.ids_live (program : Program) :
    (program.live known).ids = program.flatMap fun func =>
      (func.live known).exprs.flatMap Expr.ids := by
  rw [Program.ids, live, List.flatMap_map, List.flatMap_assoc]

theorem Program.ids_live_sublist (program : Program) :
    (program.live known).ids.Sublist program.ids := by
  rw [Program.ids, live, List.flatMap_map]
  apply List.Sublist.flatMap
  apply List.Sublist.flatMap_right
  exact fun func _ => (Stmt.exprsAll_live_sublist known func.body).append (List.Sublist.refl _)

end Sublists

section Functions

variable {table : FactTable} {program : Program} {func : Func} {ids : List Nat}

theorem Func.entryState_under (func : Func) :
    func.entryState.Under (func.typing.map (·.1)) func.entryState := by
  refine ⟨func.proper_entryState, fun name mem => ?_, State.le_refl _⟩
  by_contra absent
  have known : func.entryState.fact? name = some .top := State.fact?_foldl_assign (.inl mem)
  rw [State.fact?_eq_none.mpr absent] at known
  cases known

theorem Func.walk_ensures (fits : table.FitsFunc func) (wellFormed : func.WellFormed program)
    (sub : (func.live table.known).exprs.flatMap Expr.ids ⊆ ids) :
    func.walk.Ensures (fun _ => True) (table.Above ids) := by
  obtain ⟨last, fits, knows⟩ := fits
  obtain ⟨subBody, subResult⟩ : Stmt.idsAll (Stmt.liveAll table.known func.body) ⊆ ids ∧
      func.result.ids ⊆ ids := by
    simpa [Func.live, Func.exprs, Stmt.idsAll] using sub
  apply (fits.walk_ensures func.entryState_under wellFormed.body.names_subset subBody).bind
  intro state under
  apply (func.result.walk_ensures knows under wellFormed.result.names_subset subResult).bind
  exact fun _ _ => Walk.ensures_report _

theorem Func.seen_live (fits : table.FitsFunc func) :
    table.Seen ((func.live table.known).exprs.flatMap Expr.ids) := by
  obtain ⟨last, fits, knows⟩ := fits
  simp only [Func.exprs, List.flatMap_append, List.flatMap_singleton, FactTable.seen_append]
  exact ⟨fits.seen, knows.seen⟩

end Functions

namespace Program

variable {program : Program}

theorem walk_ensures {table : FactTable} {context : Program} {ids : List Nat}
    (fits : ∀ func ∈ program, table.FitsFunc func)
    (wellFormed : ∀ func ∈ program, func.WellFormed context)
    (sub : (program.live table.known).ids ⊆ ids) :
    (Program.walk program).Ensures (fun _ => True) (table.Above ids) := by
  rw [ids_live] at sub
  induction program with
  | nil => exact Walk.ensures_pure trivial
  | cons func rest ih =>
      obtain ⟨fitsFirst, fits⟩ := List.forall_mem_cons.mp fits
      obtain ⟨first, wellFormed⟩ := List.forall_mem_cons.mp wellFormed
      obtain ⟨subFirst, sub⟩ := List.append_subset.mp (List.flatMap_cons ▸ sub)
      exact (func.walk_ensures fitsFirst first subFirst).bind fun _ _ => ih fits wellFormed sub

/-- All that is recorded about a program whose nodes have different ids is about nodes of
    live statements, and the table lies above it. -/
theorem flow_below (nodup : program.ids.Nodup) {context : Program}
    (wellFormed : ∀ func ∈ program, func.WellFormed context) :
    ∀ entry ∈ (flow program).records,
      (flow program).table.Above program.livePart.ids entry := by
  obtain ⟨_, trail, finds, _, below⟩ :=
    walk_ensures (fun _ => fitsFunc_flow nodup) wellFormed (List.Subset.refl _)
  have records : (flow program).records.toList = trail := (finds {}).2
  intro entry mem
  exact below entry (records ▸ Array.mem_toList_iff.mpr mem)

private theorem mem_records_of_live (nodup : program.ids.Nodup) {id : Nat}
    (isLive : id ∈ program.livePart.ids) :
    id ∈ (flow program).records.toList.map (·.1) := by
  obtain ⟨_, trail, finds, _, _, fits⟩ := program.walk_settles
  have records : (flow program).records.toList = trail := (finds {}).2
  by_contra absent
  -- in this table the node is not seen, though the table fits the program
  have unseen : (FactTable.unseen program.ids trail).get id = .bottom :=
    FactTable.get_unseen ((program.ids_live_sublist _).subset isLive) (records ▸ absent)
  rw [livePart, Flow.table, records, ← FactTable.known_unseen program.ids trail, ids_live] at isLive
  obtain ⟨func, mem, inside⟩ := List.mem_flatMap.mp isLive
  have fitsFunc := fits _ nodup (FactTable.unseen_holds program.ids trail) func mem
  exact Func.seen_live fitsFunc id inside unseen

private theorem mem_facts_iff (nodup : program.ids.Nodup) {context : Program}
    (wellFormed : ∀ func ∈ program, func.WellFormed context) (id : Nat) :
    id ∈ (flow program).table.facts ↔ id ∈ program.livePart.ids := by
  rw [Flow.table, FactTable.mem_facts_ofList]
  constructor
  · intro mem
    obtain ⟨entry, recorded, rfl⟩ := List.mem_map.mp mem
    exact (flow_below nodup wellFormed entry (Array.mem_toList_iff.mp recorded)).1
  · exact mem_records_of_live nodup

/-- The table of a checked program has entries for the nodes of the statements that code
    generation visits, as many as there are such nodes, and for no others. -/
theorem live_of_check {text : String} (read : (readProgram text).result = .ok program)
    {checked : Program} {checker : Checker} (passed : program.check = .ok checked checker)
    (trace : Bool) :
    Asm.Visits { folding := true, trace } (flow checked).table checker.table checked
        checked.livePart ∧
      (∀ id, id ∈ (flow checked).table.facts ↔ id ∈ checked.livePart.ids) ∧
      (flow checked).table.size = checked.livePart.ids.length := by
  obtain ⟨_, _, made⟩ :=
    Asm.generate_succeeds passed { folding := true, trace } (flow checked).table
  have visits := Asm.visits_live rfl made
  obtain ⟨names, rfl, _, checks⟩ := check_eq_ok passed
  have nodup : program.withScopes.ids.Nodup := program.ids_withScopes ▸ ids_nodup read
  have wellFormed : ∀ func ∈ program.withScopes, func.WellFormed program := by
    intro func mem
    obtain ⟨original, inProgram, scope, rfl, _, _⟩ := mem_withScopes mem
    obtain ⟨nodup, params, arrays, body, result⟩ :=
      (Func.checks_iff names).mp (checks original inProgram)
    exact ⟨nodup, params, arrays, body, result⟩
  have entries := mem_facts_iff nodup wellFormed
  exact ⟨visits, entries, FactTable.size_eq_length ((ids_live_sublist _ _).nodup nodup) entries⟩

/-- A loop with a branch that is never taken. -/
def branchText : String :=
  "function Main(n: int): int \x7b
     while (n) \x7b if (false) \x7b n = 1; \x7d n = 2; \x7d
     return n; \x7d"

theorem branch_live : ∃ program checked checker,
    (readProgram branchText).result = .ok program ∧ program.check = .ok checked checker ∧
      checked.ids = [0, 1, 2, 3, 4] ∧ checked.livePart.ids = [0, 1, 3, 4] ∧
        (flow checked).table.size = 4 ∧ 2 ∉ (flow checked).table.facts ∧
          Asm.Visits {} (flow checked).table checker.table checked checked.livePart := by
  obtain ⟨program, read, accepted⟩ := exists_ok_of_any (x := (readProgram branchText).result)
    (p := fun program => (checkProgram program).result.toOption.any fun made =>
      made.1.ids == [0, 1, 2, 3, 4] && made.1.livePart.ids == [0, 1, 3, 4]) (by decide +kernel)
  obtain ⟨⟨checked, table⟩, made, known⟩ := exists_ok_of_any accepted
  obtain ⟨checker, passed, rfl⟩ := checkProgram_eq_ok.mp made
  rw [Bool.and_eq_true, beq_iff_eq, beq_iff_eq] at known
  obtain ⟨all, live⟩ := known
  obtain ⟨visits, entries, size⟩ := live_of_check read passed false
  rw [live] at size
  refine ⟨program, checked, checker, read, passed, all, live, size, ?_, visits⟩
  rw [entries, live]
  decide

/-- What the table of a checked program says of a node lies above all that was ever recorded
    of it. If anything was, then this was recorded, too. -/
theorem table_greatest {text : String} (read : (readProgram text).result = .ok program)
    {checked : Program} {checker : Checker} (passed : program.check = .ok checked checker)
    (id : Nat) :
    (flow checked).table.get id ∈ upperBounds {fact | (id, fact) ∈ (flow checked).records} ∧
      (id ∈ (flow checked).table.facts →
        (id, (flow checked).table.get id) ∈ (flow checked).records) := by
  have below := flow_below (ids_nodup_of_check read passed) (forall_wellFormed_of_check passed)
  constructor
  · intro fact recorded
    exact (below (id, fact) recorded).2
  · intro hasEntry
    rw [Flow.table, FactTable.mem_facts_ofList] at hasEntry
    exact Array.mem_toList_iff.mp (FactTable.get_ofList_mem hasEntry)

/-- The node that is read in the loop is zero at first, and later anything. -/
theorem table_greatest_counting : ∃ program checked checker,
    (readProgram countingText).result = .ok program ∧ program.check = .ok checked checker ∧
      (5, .const 0) ∈ (flow checked).records ∧ (flow checked).table.get 5 = .top ∧
      .top ∈ upperBounds {fact | (5, fact) ∈ (flow checked).records} ∧
        (5, .top) ∈ (flow checked).records := by
  obtain ⟨program, read, accepted⟩ := exists_ok_of_any (x := (readProgram countingText).result)
    (p := fun program => (checkProgram program).result.toOption.any fun made =>
      (flow made.1).records.contains (5, .const 0) && (flow made.1).table.get 5 == .top)
    (by decide +kernel)
  obtain ⟨⟨checked, table⟩, made, holds⟩ := exists_ok_of_any accepted
  obtain ⟨checker, passed, rfl⟩ := checkProgram_eq_ok.mp made
  rw [Bool.and_eq_true, Array.contains_iff_mem, beq_iff_eq] at holds
  obtain ⟨recorded, isTop⟩ := holds
  have hasEntry : 5 ∈ (flow checked).table.facts := by
    rw [Flow.table, FactTable.mem_facts_ofList]
    exact List.mem_map.mpr ⟨_, Array.mem_toList_iff.mpr recorded, rfl⟩
  obtain ⟨above, wasRecorded⟩ := table_greatest read passed 5
  rw [isTop] at above wasRecorded
  exact ⟨program, checked, checker, read, passed, recorded, isTop, above, wasRecorded hasEntry⟩

end Program

end Wordlang
