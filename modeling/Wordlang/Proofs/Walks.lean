import Mathlib.Data.List.Induction
import Wordlang.Fact.Effect
import Wordlang.Proofs.States

/-! # Walks

What the walk of a program leaves in the table. Each pass through a loop writes its
facts over those of the passes before, so the table holds the facts of the last one,
and that one was walked in a state which the loop does not leave any more.
-/

namespace Wordlang

open State (Grows)

namespace Walk

variable {α β : Type}

/-- Wherever a walk begins, it ends with a result and adds a trail to the records. -/
def Finds (walk : Walk α) (a : α) (trail : List (Nat × Fact)) : Prop :=
  ∀ flow, (walk.run flow).1 = a ∧
    (walk.run flow).2.records.toList = flow.records.toList ++ trail

theorem finds_pure (a : α) : Finds (pure a) a [] := by
  intro flow
  exact ⟨rfl, (List.append_nil _).symm⟩

theorem finds_record (id : Nat) (fact : Fact) : Finds (Flow.record id fact) () [(id, fact)] := by
  intro flow
  exact ⟨rfl, Array.toList_push⟩

theorem finds_report (event : Event) : Finds (Flow.report event) () [] := by
  intro flow
  exact ⟨rfl, (List.append_nil _).symm⟩

theorem Finds.bind {walk : Walk α} {next : α → Walk β} {a : α} {b : β}
    {trail trail' : List (Nat × Fact)} (first : walk.Finds a trail)
    (second : (next a).Finds b trail') : Finds (walk >>= next) b (trail ++ trail') := by
  intro flow
  obtain ⟨value, records⟩ := first flow
  obtain ⟨value', records'⟩ := second (walk.run flow).2
  have run : (walk >>= next).run flow = (next (walk.run flow).1).run (walk.run flow).2 := rfl
  rw [run, value]
  exact ⟨value', by rw [records', records, List.append_assoc]⟩

end Walk

theorem Fact.eq_const_of_const? {fact : Fact} {value : Word} (h : fact.const? = some value) :
    fact = .const value := by
  cases fact <;> simp_all [const?]

theorem Fact.exists_const_of_isConst {fact : Fact} {p : Word → Bool} (h : fact.isConst p = true) :
    ∃ value, fact = .const value ∧ p value = true := by
  cases fact <;> simp_all [isConst]

namespace Expr

/-- The facts about the nodes of an expression. -/
def trail (state : State) (e : Expr) : List (Nat × Fact) :=
  e.parts.map fun part => (part.id, part.fact state)

@[simp] theorem map_fst_trail (state : State) (e : Expr) : (e.trail state).map (·.1) = e.ids := by
  simp [trail, ids]

theorem walk_finds (state : State) (e : Expr) :
    Walk.Finds (e.walk state) (e.fact state) (e.trail state) := by
  induction e with
  | int | bool | var => exact (Walk.finds_record _ _).bind (Walk.finds_pure _)
  | index node name element ih =>
      have trail : (index node name element).trail state =
          element.trail state ++ ([(node.id, .top)] ++ []) := by
        simp [trail, parts, id, Expr.node, fact]
      rw [trail]
      exact ih.bind ((Walk.finds_record _ _).bind (Walk.finds_pure _))
  | unary node op operand ih =>
      have trail : (unary node op operand).trail state =
          operand.trail state ++ ([(node.id, op.fold (operand.fact state))] ++ []) := by
        simp [trail, parts, id, Expr.node, fact]
      rw [trail]
      exact ih.bind ((Walk.finds_record _ _).bind (Walk.finds_pure _))
  | binary node op left right ihLeft ihRight =>
      have trail : (binary node op left right).trail state = left.trail state ++
          (right.trail state ++
            ([(node.id, op.fold (left.fact state) (right.fact state))] ++ [])) := by
        simp [trail, parts, id, Expr.node, fact]
      rw [trail]
      exact ihLeft.bind (ihRight.bind ((Walk.finds_record _ _).bind (Walk.finds_pure _)))

theorem fact_ne_bottom (state : State) (e : Expr) : e.fact state ≠ .bottom := by
  cases e with
  | int | bool | index => exact nofun
  | var node name =>
      unfold fact
      split <;> exact nofun
  | unary node op operand =>
      unfold fact UnOp.fold
      split <;> exact nofun
  | binary node op left right =>
      simp only [fact, BinOp.fold]
      split
      · exact nofun
      · split <;> exact nofun

end Expr

namespace FactTable

variable {table : FactTable} {first second : List (Nat × Fact)}

theorem ofList_concat (entries : List (Nat × Fact)) (entry : Nat × Fact) :
    ofList (entries ++ [entry]) = (ofList entries).set entry.1 entry.2 := by
  rw [ofList, List.foldl_append]
  rfl

theorem get_ofList_append (first second : List (Nat × Fact)) (id : Nat) :
    (ofList (first ++ second)).get id =
      if id ∈ second.map (·.1) then (ofList second).get id else (ofList first).get id := by
  induction second using List.reverseRecOn with
  | nil => simp
  | append_singleton entries entry ih =>
      have mem : id ∈ (entries ++ [entry]).map (·.1) ↔ id ∈ entries.map (·.1) ∨ id = entry.1 := by
        rw [List.map_append, List.mem_append, List.map_singleton, List.mem_singleton]
      rw [← List.append_assoc, ofList_concat, ofList_concat, get_set, get_set, ih]
      by_cases same : entry.1 = id
      · rw [if_pos same, if_pos same, if_pos (mem.mpr (.inr same.symm))]
      · simp only [if_neg same, mem, Ne.symm same, or_false]

def Holds (table : FactTable) (trail : List (Nat × Fact)) : Prop :=
  ∀ id ∈ trail.map (·.1), table.get id = (ofList trail).get id

theorem Holds.suffix (holds : table.Holds (first ++ second)) : table.Holds second := by
  intro id mem
  have known := holds id (by simp only [List.map_append, List.mem_append, mem, or_true])
  rwa [get_ofList_append, if_pos mem] at known

theorem Holds.of_append (holds : table.Holds (first ++ second))
    (disjoint : ∀ id ∈ first.map (·.1), id ∉ second.map (·.1)) : table.Holds first := by
  intro id mem
  have known := holds id (by simp only [List.map_append, List.mem_append, mem, true_or])
  rwa [get_ofList_append, if_neg (disjoint id mem)] at known

/-- What a table says about the nodes of an expression is what is known in a state. -/
def Knows (table : FactTable) (state : State) (e : Expr) : Prop :=
  ∀ part ∈ e.parts, table.get part.id = part.fact state

theorem Holds.knows {state : State} {e : Expr} (holds : table.Holds (e.trail state))
    (nodup : e.ids.Nodup) : table.Knows state e := by
  intro part mem
  have known := holds part.id (by rw [Expr.map_fst_trail]; exact List.mem_map_of_mem mem)
  rw [known]
  obtain ⟨before, after, split_⟩ := List.append_of_mem mem
  have trail : e.trail state = (before.map fun part => (part.id, part.fact state)) ++
      ([(part.id, part.fact state)] ++ after.map fun part => (part.id, part.fact state)) := by
    simp [Expr.trail, split_]
  have unique : part.id ∉ (after.map fun part => (part.id, part.fact state)).map (·.1) := by
    rw [Expr.ids, split_, List.map_append, List.nodup_append, List.map_cons,
      List.nodup_cons] at nodup
    simpa using nodup.2.1.1
  rw [trail, get_ofList_append, if_pos (by simp), get_ofList_append, if_neg unique]
  exact (get_set _ _ _ _).trans (if_pos rfl)

end FactTable

/-- A table fits statements that lead from a state to another one: it says about each
    expression what is known where that stands. The state of a loop is one that its
    body does not leave. -/
inductive FactTable.Fits (table : FactTable) : List Stmt → State → State → Prop where
  | nil {state : State} : table.Fits [] state state
  | assign {target : String} {value : Expr} {rest : List Stmt} {state last : State} :
      table.Knows state value → table.Fits rest (state.assign target (value.fact state)) last →
      table.Fits (.assign target value :: rest) state last
  | assignIndex {target : String} {index value : Expr} {rest : List Stmt} {state last : State} :
      table.Knows state index → table.Knows state value → table.Fits rest state last →
      table.Fits (.assignIndex target index value :: rest) state last
  | call {line : Nat} {target callee : String} {args : List Expr} {rest : List Stmt}
      {state last : State} :
      (∀ arg ∈ args, table.Knows state arg) →
      table.Fits rest (state.forget.assign target .top) last →
      table.Fits (.call line target callee args :: rest) state last
  | callIndex {line : Nat} {target callee : String} {index : Expr} {args : List Expr}
      {rest : List Stmt} {state last : State} :
      table.Knows state index → (∀ arg ∈ args, table.Knows state arg) →
      table.Fits rest state.forget last →
      table.Fits (.callIndex line target index callee args :: rest) state last
  | whenTaken {cond : Expr} {body rest : List Stmt} {state after last : State} :
      table.Knows state cond → cond.fact state = .const 1 → table.Fits body state after →
      table.Fits rest after last → table.Fits (.when cond body :: rest) state last
  | whenSkipped {cond : Expr} {body rest : List Stmt} {state last : State} {value : Word} :
      table.Knows state cond → cond.fact state = .const value → value ≠ 1 →
      table.Fits rest state last → table.Fits (.when cond body :: rest) state last
  | when {cond : Expr} {body rest : List Stmt} {state after joined last : State} :
      table.Knows state cond → table.Fits body state after → after.Le joined → state.Le joined →
      table.Fits rest joined last → table.Fits (.when cond body :: rest) state last
  | chooseFirst {cond : Expr} {thens elses rest : List Stmt} {state after last : State} :
      table.Knows state cond → cond.fact state = .const 1 → table.Fits thens state after →
      table.Fits rest after last → table.Fits (.choose cond thens elses :: rest) state last
  | chooseSecond {cond : Expr} {thens elses rest : List Stmt} {state after last : State}
      {value : Word} :
      table.Knows state cond → cond.fact state = .const value → value ≠ 1 →
      table.Fits elses state after → table.Fits rest after last →
      table.Fits (.choose cond thens elses :: rest) state last
  | choose {cond : Expr} {thens elses rest : List Stmt} {state first second joined last : State} :
      table.Knows state cond → table.Fits thens state first → table.Fits elses state second →
      first.Le joined → second.Le joined → table.Fits rest joined last →
      table.Fits (.choose cond thens elses :: rest) state last
  | loopSkipped {cond : Expr} {body rest : List Stmt} {state last : State} {value : Word} :
      table.Knows state cond → cond.fact state = .const value → value ≠ 1 →
      table.Fits rest state last → table.Fits (.loop cond body :: rest) state last
  | loop {cond : Expr} {body rest : List Stmt} {state stable after last : State} :
      state.Le stable → table.Knows stable cond → table.Fits body stable after →
      after.Le stable → table.Fits rest stable last →
      table.Fits (.loop cond body :: rest) state last
  | block {body rest : List Stmt} {state after last : State} :
      table.Fits body state after → table.Fits rest after last →
      table.Fits (.block body :: rest) state last

/-- A walk reaches some result and records facts of some nodes, so that a table which holds
    its trail is settled. -/
def Walk.Settles {α : Type} (walk : Walk α) (ids : List Nat) (reaches : α → Prop)
    (settled : FactTable → α → Prop) : Prop :=
  ∃ a trail, walk.Finds a trail ∧ reaches a ∧ (∀ id ∈ trail.map (·.1), id ∈ ids) ∧
    ∀ table : FactTable, ids.Nodup → table.Holds trail → settled table a

namespace Walk

variable {α β : Type} {ids ids' : List Nat}

theorem settles_pure {reaches : α → Prop} {a : α} (h : reaches a) :
    Settles (pure a) [] reaches fun _ b => b = a :=
  ⟨a, [], finds_pure a, h, nofun, fun _ _ _ => rfl⟩

theorem Settles.bind {walk : Walk α} {next : α → Walk β} {reaches : α → Prop}
    {reaches' : β → Prop} {settled : FactTable → α → Prop} {settled' : α → FactTable → β → Prop}
    (first : walk.Settles ids reaches settled)
    (second : ∀ a, reaches a → (next a).Settles ids' reaches' (settled' a)) :
    Settles (walk >>= next) (ids ++ ids') reaches'
      fun table b => ∃ a, reaches a ∧ settled table a ∧ settled' a table b := by
  obtain ⟨a, trail, finds, reached, sub, fits⟩ := first
  obtain ⟨b, trail', finds', reached', sub', fits'⟩ := second a reached
  refine ⟨b, trail ++ trail', finds.bind finds', reached', ?_, ?_⟩
  · intro id mem
    rw [List.map_append, List.mem_append] at mem
    exact List.mem_append.mpr (mem.imp (sub id) (sub' id))
  · intro table nodup holds
    rw [List.nodup_append] at nodup
    have holdsFirst : table.Holds trail := by
      apply holds.of_append
      intro id mem mem'
      exact nodup.2.2 id (sub id mem) id (sub' id mem') rfl
    exact ⟨a, reached, fits table nodup.1 holdsFirst, fits' table nodup.2.1 holds.suffix⟩

theorem Settles.weaken {walk : Walk α} {reaches reaches' : α → Prop}
    {settled settled' : FactTable → α → Prop} (h : walk.Settles ids reaches settled)
    (more : ids.Sublist ids') (reached : ∀ a, reaches a → reaches' a)
    (fits : ∀ table a, reaches a → settled table a → settled' table a) :
    walk.Settles ids' reaches' settled' := by
  obtain ⟨a, trail, finds, here, sub, known⟩ := h
  refine ⟨a, trail, finds, reached a here, fun id mem => more.subset (sub id mem), ?_⟩
  intro table nodup holds
  exact fits table a here (known table (more.nodup nodup) holds)

theorem Settles.swap {walk : Walk α} {reaches : α → Prop} {settled : FactTable → α → Prop}
    (h : walk.Settles (ids ++ ids') reaches settled) :
    walk.Settles (ids' ++ ids) reaches settled := by
  obtain ⟨a, trail, finds, here, sub, known⟩ := h
  have same : (ids ++ ids').Perm (ids' ++ ids) := List.perm_append_comm
  exact ⟨a, trail, finds, here, fun id mem => same.subset (sub id mem),
    fun table nodup => known table (same.nodup_iff.mpr nodup)⟩

/-- A walk over nodes that the next one walks again leaves nothing in the table. -/
theorem Settles.over {walk : Walk α} {next : α → Walk β} {a : α} {trail : List (Nat × Fact)}
    {reaches : β → Prop} {settled : FactTable → β → Prop} (first : walk.Finds a trail)
    (again : ∀ id ∈ trail.map (·.1), id ∈ ids) (second : (next a).Settles ids reaches settled) :
    Settles (walk >>= next) ids reaches settled := by
  obtain ⟨b, trail', finds, reached, sub, fits⟩ := second
  refine ⟨b, trail ++ trail', first.bind finds, reached, ?_, ?_⟩
  · intro id mem
    rw [List.map_append, List.mem_append] at mem
    exact mem.elim (again id) (sub id)
  · exact fun table nodup holds => fits table nodup holds.suffix

end Walk

theorem Expr.walk_settles (state : State) (e : Expr) :
    (e.walk state).Settles e.ids (· = e.fact state) fun table _ => table.Knows state e := by
  refine ⟨_, _, e.walk_finds state, rfl, ?_, fun table nodup holds => holds.knows nodup⟩
  intro id mem
  rwa [map_fst_trail] at mem

theorem Walk.Settles.behind {β : Type} {state : State} (e : Expr) {next : Fact → Walk β}
    {ids : List Nat} {reaches : β → Prop} {settled : FactTable → β → Prop}
    (second : (next (e.fact state)).Settles ids reaches settled) :
    Settles (e.walk state >>= next) (e.ids ++ ids) reaches
      fun table b => table.Knows state e ∧ settled table b := by
  have whole := (e.walk_settles state).bind
    fun fact isFact => (isFact ▸ second : (next fact).Settles ids reaches settled)
  apply whole.weaken (.refl _) fun _ h => h
  rintro table b _ ⟨_, _, knows, fits⟩
  exact ⟨knows, fits⟩

theorem Expr.walkAll_settles (state : State) (es : List Expr) :
    (walkAll state es).Settles (es.flatMap ids) (fun _ => True)
      fun table _ => ∀ e ∈ es, table.Knows state e := by
  induction es with
  | nil =>
      apply (Walk.settles_pure trivial).weaken (.refl _) fun _ h => h
      exact fun _ _ _ _ => nofun
  | cons e rest ih =>
      apply ((e.walk_settles state).bind fun _ _ => ih).weaken (.refl _) fun _ h => h
      rintro table _ _ ⟨_, _, first, others⟩
      exact List.forall_mem_cons.mpr ⟨first, others⟩

/-- A loop is walked until its state is stable, if there is fuel for all facts to grow. -/
theorem Flow.untilStable_settles {body : State → Walk State} {cond : Expr} {targets : List String}
    {ids : List Nat} {settled : State → FactTable → State → Prop}
    (settles : ∀ state, state.Proper →
      (body state).Settles ids (Grows targets state) (settled state))
    {names : List String} (known : ∀ name ∈ targets, name ∈ names) {fuel : Nat} {state : State}
    (pass : Nat) (proper : state.Proper) (old : ∀ name ∈ state.names, name ∈ names)
    (enough : state.roomOf names < fuel) :
    (Flow.untilStable body cond fuel pass state).Settles (cond.ids ++ ids) (Grows targets state)
      fun table stable => state.Le stable ∧ table.Knows stable cond ∧
        ∃ after, settled stable table after ∧ after.Le stable := by
  induction fuel generalizing state pass with
  | zero => exact absurd enough (Nat.not_lt_zero _)
  | succ fuel ih =>
      obtain ⟨after, trail, finds, grows, sub, fits⟩ := settles state proper
      have grows' : Grows targets state (after.join state) := grows.join (.refl proper)
      have le : state.Le (after.join state) := State.le_join_right proper.nodup
      by_cases stable : after.join state = state
      -- what the last pass records is what the table keeps, for nothing behind it is recorded
      · have onePass : (body state).Settles ids (· = after) (settled state) :=
          ⟨after, trail, finds, rfl, sub, fits⟩
        have same : Grows targets state state := .refl proper
        have walked : (Flow.untilStable body cond (fuel + 1) pass state).Settles
            (ids ++ (cond.ids ++ [])) (Grows targets state) fun table last =>
              ∃ a, a = after ∧ settled state table a ∧ table.Knows state cond ∧ last = state := by
          apply onePass.bind
          intro a isAfter
          rw [isAfter]
          apply Walk.Settles.over (cond.walk_finds _) (by simp)
          apply Walk.Settles.over (Walk.finds_report _) nofun
          rw [if_pos stable]
          simp only [stable]
          apply Walk.Settles.behind cond
          exact Walk.settles_pure same
        rw [List.append_nil] at walked
        have below : after.Le (after.join state) := State.le_join_left proper.nodup
        apply walked.swap.weaken (.refl _) fun _ h => h
        rintro table _ _ ⟨_, rfl, fits, knows, rfl⟩
        exact ⟨State.le_refl _, knows, _, fits, stable ▸ below⟩
      -- a fact has changed: the records of this pass are written over by the later ones
      · have less : (after.join state).roomOf names < fuel := by
          have := grows'.roomOf_lt le stable old known
          omega
        have old' : ∀ name ∈ (after.join state).names, name ∈ names := by
          obtain ⟨new, eq, mem⟩ := grows'.names
          rw [eq]
          exact List.forall_mem_append.mpr ⟨old, fun name inNew => known name (mem name inNew)⟩
        have later := ih (pass + 1) grows'.proper old' less
        apply Walk.Settles.over finds fun id mem => List.mem_append_right _ (sub id mem)
        apply Walk.Settles.over (cond.walk_finds _) (by simp +contextual)
        apply Walk.Settles.over (Walk.finds_report _) nofun
        rw [if_neg stable]
        apply later.weaken (.refl _) fun _ => grows'.trans
        rintro table last _ ⟨below, settled⟩
        exact ⟨State.le_trans le below, settled⟩

section Bodies

open Stmt

variable {cond : Expr} {body thens elses : List Stmt} {state : State}

/-- The walk of statements leaves facts that fit them. -/
def Stmt.SettlesAll (stmts : List Stmt) (state : State) : Prop :=
  (walkAll stmts state).Settles (idsAll stmts) (Grows (targetsAll stmts) state)
    fun table => table.Fits stmts state

/-- The walk of one statement leaves facts that fit it and whatever fits behind it. -/
def Stmt.SettlesOne (stmt : Stmt) (state : State) : Prop :=
  (stmt.walk state).Settles (stmt.exprs.flatMap Expr.ids) (Grows stmt.targets state)
    fun table after => ∀ rest last, table.Fits rest after last →
      table.Fits (stmt :: rest) state last

private theorem Stmt.settlesOne_when (proper : state.Proper) (inner : SettlesAll body state) :
    SettlesOne (.when cond body) state := by
  unfold SettlesAll at inner
  cases known : (cond.fact state).const? with
  | none =>
      have joined := inner.bind fun _ grows => Walk.settles_pure (grows.join (.refl proper))
      have walked : (walk (.when cond body) state).Settles _ _ _ :=
        Walk.Settles.behind cond (by simp only [known]; exact joined)
      apply walked.weaken (by simp [exprs, idsAll]) fun _ h => h
      rintro table _ _ ⟨knows, after, _, fits, rfl⟩ rest last
      exact .when knows fits (State.le_join_left proper.nodup) (State.le_join_right proper.nodup)
  | some value =>
      have isConst := Fact.eq_const_of_const? known
      by_cases isTrue : value = 1
      · have walked : (walk (.when cond body) state).Settles _ _ _ :=
          Walk.Settles.behind cond (by simp only [known, if_pos isTrue]; exact inner)
        apply walked.weaken (.refl _) fun _ h => h
        rintro table _ _ ⟨knows, fits⟩ rest last
        exact .whenTaken knows (isTrue ▸ isConst) fits
      · have same : Grows (targetsAll body) state state := .refl proper
        have walked : (walk (.when cond body) state).Settles _ _ _ :=
          Walk.Settles.behind cond (by
            simp only [known, if_neg isTrue]; exact Walk.settles_pure same)
        apply walked.weaken (by simp [exprs, List.flatMap_cons]) fun _ h => h
        rintro table _ _ ⟨knows, rfl⟩ rest last
        exact .whenSkipped knows isConst isTrue

private theorem Stmt.settlesOne_choose (first : SettlesAll thens state)
    (second : SettlesAll elses state) : SettlesOne (.choose cond thens elses) state := by
  unfold SettlesAll at first second
  cases known : (cond.fact state).const? with
  | none =>
      have joined : ∀ after, Grows (targetsAll thens) state after →
          Walk.Settles (do return after.join (← walkAll elses state)) (idsAll elses ++ [])
            (Grows (targetsAll thens ++ targetsAll elses) state) _ :=
        fun after grows => second.bind fun _ grows' => Walk.settles_pure
          ((grows.mono fun _ => List.mem_append_left _).join
            (grows'.mono fun _ => List.mem_append_right _))
      have walked : (walk (.choose cond thens elses) state).Settles _ _ _ :=
        Walk.Settles.behind cond (by simp only [known]; exact first.bind joined)
      apply walked.weaken (by simp [exprs, idsAll]) fun _ h => h
      rintro table _ _ ⟨knows, one, _, fits, two, grows, fits', rfl⟩ rest last
      have nodup := grows.proper.nodup
      exact .choose knows fits fits' (State.le_join_left nodup) (State.le_join_right nodup)
  | some value =>
      have isConst := Fact.eq_const_of_const? known
      by_cases isTrue : value = 1
      · have walked : (walk (.choose cond thens elses) state).Settles _ _ _ :=
          Walk.Settles.behind cond (by simp only [known, if_pos isTrue]; exact first)
        apply walked.weaken (by simp [exprs, idsAll]) fun _ grows =>
          grows.mono fun _ => List.mem_append_left _
        rintro table _ _ ⟨knows, fits⟩ rest last
        exact .chooseFirst knows (isTrue ▸ isConst) fits
      · have walked : (walk (.choose cond thens elses) state).Settles _ _ _ :=
          Walk.Settles.behind cond (by simp only [known, if_neg isTrue]; exact second)
        apply walked.weaken (by simp [exprs, idsAll]) fun _ grows =>
          grows.mono fun _ => List.mem_append_right _
        rintro table _ _ ⟨knows, fits⟩ rest last
        exact .chooseSecond knows isConst isTrue fits

/-- The passes that a loop is given are more than its state and some new names have room. -/
theorem State.roomOf_lt_passes (state : State) {names targets : List String}
    (few : names.length ≤ targets.length) :
    state.roomOf (state.names ++ names) < Flow.passes state targets := by
  have bound := state.roomOf_le (state.names ++ names)
  rw [List.length_append, State.names, List.length_map, ← State.names] at bound
  unfold Flow.passes
  omega

private theorem Stmt.settlesOne_loop (proper : state.Proper)
    (inner : ∀ state : State, state.Proper → SettlesAll body state) :
    SettlesOne (.loop cond body) state := by
  by_cases skipped : (cond.fact state).isConst (· != 1) = true
  · have same : Grows (targetsAll body) state state := .refl proper
    have walked : (walk (.loop cond body) state).Settles _ _ _ :=
      Walk.Settles.behind cond (by
        simp only [if_pos skipped]; exact Walk.settles_pure same)
    apply walked.weaken (by simp [exprs]) fun _ h => h
    rintro table _ _ ⟨knows, rfl⟩ rest last
    obtain ⟨value, isConst, isFalse⟩ := Fact.exists_const_of_isConst skipped
    exact .loopSkipped knows isConst (bne_iff_ne.mp isFalse)
  · have stable : (Flow.untilStable (walkAll body) cond _ 1 state).Settles _ _ _ :=
      Flow.untilStable_settles inner (fun _ => List.mem_append_right _) 1 proper
        (fun _ => List.mem_append_left _) (state.roomOf_lt_passes (Nat.le_refl _))
    apply Walk.Settles.over (cond.walk_finds state) (by simp +contextual [exprs])
    rw [if_neg skipped]
    apply stable.weaken (.refl _) fun _ h => h
    rintro table _ _ ⟨le, knows, after, fits, below⟩ rest last
    exact .loop le knows fits below

end Bodies

mutual

theorem Stmt.walk_settles (stmt : Stmt) {state : State} (proper : state.Proper) :
    (stmt.walk state).Settles (stmt.exprs.flatMap Expr.ids) (Grows stmt.targets state)
      fun table after => ∀ rest last, table.Fits rest after last →
        table.Fits (stmt :: rest) state last := by
  cases stmt with
  | assign target value =>
      have grows := proper.assign target (value.fact_ne_bottom state)
      have walked : (walk (.assign target value) state).Settles _ _ _ :=
        Walk.Settles.behind value (Walk.settles_pure grows)
      apply walked.weaken (.refl _) fun _ h => h
      rintro table _ _ ⟨knows, rfl⟩ rest last
      exact .assign knows
  | assignIndex target index value =>
      have same : Grows [] state state := .refl proper
      have walked : (walk (.assignIndex target index value) state).Settles _ _ _ :=
        Walk.Settles.behind index (Walk.Settles.behind value (Walk.settles_pure same))
      apply walked.weaken (.refl _) fun _ h => h
      rintro table _ _ ⟨knowsIndex, knows, rfl⟩ rest last
      exact .assignIndex knowsIndex knows
  | call line target callee args =>
      have forgot : Grows [target] state state.forget := proper.forget
      have grows : Grows [target] state (state.forget.assign target .top) :=
        forgot.trans (forgot.proper.assign target nofun)
      have walked := (Expr.walkAll_settles state args).bind fun _ _ => Walk.settles_pure grows
      apply walked.weaken (by simp [exprs]) fun _ h => h
      rintro table _ _ ⟨_, _, knows, rfl⟩ rest last
      exact .call knows
  | callIndex line target index callee args =>
      have forgot : Grows [] state state.forget := proper.forget
      have walked : (walk (.callIndex line target index callee args) state).Settles _ _ _ :=
        Walk.Settles.behind index
          ((Expr.walkAll_settles state args).bind fun _ _ => Walk.settles_pure forgot)
      apply walked.weaken (by simp [exprs]) fun _ h => h
      rintro table _ _ ⟨knowsIndex, _, _, knows, rfl⟩ rest last
      exact .callIndex knowsIndex knows
  | when cond body => exact settlesOne_when proper (walkAll_settles body proper)
  | choose cond thens elses =>
      exact settlesOne_choose (walkAll_settles thens proper) (walkAll_settles elses proper)
  | loop cond body => exact settlesOne_loop proper fun _ => walkAll_settles body
  | block body =>
      apply (walkAll_settles body proper).weaken (.refl _) fun _ h => h
      intro table after _ fits rest last
      exact .block fits

theorem Stmt.walkAll_settles (stmts : List Stmt) {state : State} (proper : state.Proper) :
    (Stmt.walkAll stmts state).Settles (idsAll stmts) (Grows (targetsAll stmts) state)
      fun table => table.Fits stmts state := by
  cases stmts with
  | nil =>
      apply (Walk.settles_pure (Grows.refl proper)).weaken (.refl _) fun _ h => h
      rintro table _ _ rfl
      exact .nil
  | cons stmt rest =>
      have others : ∀ after, Grows stmt.targets state after →
          (walkAll rest after).Settles (idsAll rest) (Grows (targetsAll (stmt :: rest)) state)
            fun table => table.Fits rest after := by
        intro after grows
        apply (walkAll_settles rest grows.proper).weaken (.refl _)
        · intro last grows'
          exact (grows.mono fun _ => List.mem_append_left _).trans
            (grows'.mono fun _ => List.mem_append_right _)
        · exact fun _ _ _ fits => fits
      apply ((walk_settles stmt proper).bind others).weaken (by simp [idsAll, exprsAll])
        fun _ h => h
      rintro table last _ ⟨after, _, first, fits⟩
      exact first rest last fits

end

theorem Func.entryState_eq (func : Func) : func.entryState =
    func.typing.foldl (fun state entry => State.assign state entry.1 .top) [] := rfl

theorem Func.proper_entryState (func : Func) : func.entryState.Proper := by
  have grow : ∀ (typing : Typing) (state : State), state.Proper →
      State.Proper (typing.foldl (fun state entry => state.assign entry.1 .top) state) := by
    intro typing
    induction typing with
    | nil => exact fun _ proper => proper
    | cons entry rest ih =>
        intro state proper
        have grows : Grows [entry.1] state (state.assign entry.1 .top) :=
          proper.assign entry.1 (by simp)
        exact ih _ grows.proper
  rw [entryState_eq]
  exact grow func.typing [] ⟨List.nodup_nil, nofun⟩

def FactTable.FitsFunc (table : FactTable) (func : Func) : Prop :=
  ∃ last, table.Fits func.body func.entryState last ∧ table.Knows last func.result

theorem Func.walk_settles (func : Func) :
    func.walk.Settles (func.exprs.flatMap Expr.ids) (fun _ => True)
      fun table _ => table.FitsFunc func := by
  have report : ∀ state : State, Walk.Settles (Flow.report (.propagated func.name state)) []
      (fun _ => True) fun _ _ => True :=
    fun _ => ⟨(), [], Walk.finds_report _, trivial, nofun, fun _ _ _ => trivial⟩
  have walked : func.walk.Settles _ _ _ :=
    (Stmt.walkAll_settles func.body func.proper_entryState).bind fun state _ =>
      Walk.Settles.behind func.result (report state)
  apply walked.weaken (by simp [Func.exprs, Stmt.idsAll]) fun _ h => h
  rintro table _ _ ⟨last, _, fits, knows, _⟩
  exact ⟨last, fits, knows⟩

theorem Program.walk_settles (program : Program) :
    (Program.walk program).Settles program.ids (fun _ => True)
      fun table _ => ∀ func ∈ program, table.FitsFunc func := by
  induction program with
  | nil =>
      apply (Walk.settles_pure trivial).weaken (.refl _) fun _ h => h
      exact fun _ _ _ _ => nofun
  | cons func rest ih =>
      apply (func.walk_settles.bind fun _ _ => ih).weaken (by simp [Program.ids]) fun _ h => h
      rintro table _ _ ⟨_, _, first, others⟩
      exact List.forall_mem_cons.mpr ⟨first, others⟩

/-- The table of a program fits its functions. -/
theorem Program.fitsFunc_flow {program : Program} (nodup : program.ids.Nodup) {func : Func}
    (mem : func ∈ program) : (Program.flow program).table.FitsFunc func := by
  obtain ⟨_, trail, finds, _, _, fits⟩ := program.walk_settles
  have records : (Program.flow program).records.toList = trail := (finds {}).2
  apply fits _ nodup _ func mem
  intro id _
  rw [Flow.table, records]

end Wordlang
