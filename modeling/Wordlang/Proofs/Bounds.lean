import Wordlang.Asm.Live
import Wordlang.Proofs.Acceptance
import Wordlang.Proofs.Walks

/-! # Bounds of walks

A walk that knows more finds lower facts. If a table fits statements from some state
on, then a walk from any state below finds nothing that the table does not lie above:
a body that it enters is live under the table, and a loop that it repeats stays below
the loop state. Folding respects the order as long as no fact is `bottom`, and reading a
name does as long as both states have it.
-/

namespace Wordlang

open State (Grows Proper)

namespace Fact

variable {a b : Fact} {p : Word → Bool}

theorem isConst_of_le (seen : a ≠ .bottom) (le : a ≤ b) (h : b.isConst p = true) :
    a.isConst p = true := by
  cases le with
  | bottom => exact absurd rfl seen
  | refl => exact h
  | top => exact absurd h nofun

theorem all_const?_of_le (seen : a ≠ .bottom) (le : a ≤ b) (h : a.const?.all p = true) :
    b.const?.all p = true := by
  cases le with
  | bottom => exact absurd rfl seen
  | refl => exact h
  | top => rfl

end Fact

theorem UnOp.fold_mono (op : UnOp) {a b : Fact} (seen : a ≠ .bottom) (le : a ≤ b) :
    op.fold a ≤ op.fold b := by
  cases le with
  | bottom => exact absurd rfl seen
  | refl => exact Fact.le_refl _
  | top => exact Fact.Le.top

private theorem BinOp.absorb?_of_le {op : BinOp} {a a' b b' : Fact} {value : Word}
    (seen : a ≠ .bottom)
    (seen' : b ≠ .bottom) (le : a ≤ a') (le' : b ≤ b') (h : op.absorb? a' b' = some value) :
    op.absorb? a b = some value := by
  have either : ∀ p, (a'.isConst p || b'.isConst p) = true →
      (a.isConst p || b.isConst p) = true := by
    intro p isConst
    rw [Bool.or_eq_true] at isConst ⊢
    exact isConst.imp (Fact.isConst_of_le seen le) (Fact.isConst_of_le seen' le')
  cases op <;> simp only [absorb?, Option.ite_none_right_eq_some, reduceCtorEq] at h ⊢ <;>
    exact ⟨either _ h.1, h.2⟩

theorem BinOp.fold_mono (op : BinOp) {a a' b b' : Fact} (seen : a ≠ .bottom)
    (seen' : b ≠ .bottom) (le : a ≤ a') (le' : b ≤ b') : op.fold a b ≤ op.fold a' b' := by
  cases absorbed : op.absorb? a' b' with
  | some value =>
      simp only [fold, absorbed, absorb?_of_le seen seen' le le' absorbed]
      exact Fact.le_refl _
  | none =>
      -- an operand that may have any value leaves the result open
      cases le with
      | bottom => exact absurd rfl seen
      | top =>
          have isTop : op.fold .top b' = .top := by simp only [fold, absorbed]
          rw [isTop]
          exact Fact.Le.top
      | refl =>
          cases le' with
          | bottom => exact absurd rfl seen'
          | refl => exact Fact.le_refl _
          | top =>
              have isTop : op.fold a .top = .top := by simp only [fold, absorbed]
              rw [isTop]
              exact Fact.Le.top

namespace State

variable {state other above above' : State} {names : List String}

theorem exists_fact? {name : String} (mem : name ∈ state.names) :
    ∃ fact, state.fact? name = some fact := by
  cases known : state.fact? name with
  | none => exact absurd mem (fact?_eq_none.mp known)
  | some fact => exact ⟨fact, rfl⟩

theorem join_le (nodup : other.names.Nodup) (le : state.Le above) (le' : other.Le above) :
    (state.join other).Le above := by
  intro name fact known
  rw [fact?_join _ nodup] at known
  cases first : state.fact? name with
  | none =>
      rw [first, Option.merge_none_left] at known
      exact le' name fact known
  | some a =>
      obtain ⟨c, isAbove, below⟩ := le name a first
      cases second : other.fact? name with
      | none =>
          rw [first, second, Option.merge_none_right] at known
          exact ⟨c, isAbove, Option.some.inj known ▸ below⟩
      | some b =>
          obtain ⟨c', isAbove', below'⟩ := le' name b second
          obtain rfl : c = c' := Option.some.inj (isAbove.symm.trans isAbove')
          rw [first, second] at known
          exact ⟨c, isAbove, Option.some.inj known ▸ Fact.join_le below below'⟩

theorem Proper.join (proper : state.Proper) (proper' : other.Proper) :
    (state.join other).Proper := by
  have one : Grows (state.names ++ other.names) [] state :=
    ⟨proper, state.names, rfl, fun _ => List.mem_append_left _⟩
  have two : Grows (state.names ++ other.names) [] other :=
    ⟨proper', other.names, rfl, fun _ => List.mem_append_right _⟩
  exact (one.join two).proper

/-- A state that says something about all the names, and at least what another one says. -/
structure Under (names : List String) (state above : State) : Prop where
  proper : state.Proper
  covers : names ⊆ state.names
  le : state.Le above

theorem Under.mono (under : state.Under names above) (le : above.Le above') :
    state.Under names above' :=
  ⟨under.proper, under.covers, le_trans under.le le⟩

theorem Under.assign (under : state.Under names above) (name : String) {a b : Fact}
    (seen : a ≠ .bottom) (le : a ≤ b) :
    (state.assign name a).Under names (above.assign name b) := by
  refine ⟨(under.proper.assign name seen).proper, ?_, ?_⟩
  · rw [names_assign]
    split
    · exact under.covers
    · exact List.subset_append_of_subset_left _ under.covers
  · intro x fact known
    rw [fact?_assign] at known ⊢
    by_cases same : x = name
    · rw [if_pos same] at known ⊢
      exact ⟨b, rfl, Option.some.inj known ▸ le⟩
    · rw [if_neg same] at known ⊢
      exact under.le x fact known

theorem Under.forget (under : state.Under names above) :
    state.forget.Under names above.forget := by
  have grows : Grows [] state state.forget := under.proper.forget
  refine ⟨grows.proper, (names_forget state).symm ▸ under.covers, ?_⟩
  intro x fact known
  rw [fact?_forget] at known ⊢
  obtain ⟨old, isKnown, rfl⟩ := Option.map_eq_some_iff.mp known
  obtain ⟨b, isAbove, _⟩ := under.le x old isKnown
  exact ⟨.top, by rw [isAbove]; rfl, Fact.le_refl _⟩

theorem Under.join (under : state.Under names above) (under' : other.Under names above) :
    (state.join other).Under names above := by
  refine ⟨under.proper.join under'.proper, ?_, join_le under'.proper.nodup under.le under'.le⟩
  obtain ⟨_, new, eq, _⟩ := names_join state under.proper.nodup other
  exact eq ▸ List.subset_append_of_subset_left _ under.covers

/-- An expression over names that both states have is known better in the lower one. -/
theorem Under.fact_le (under : state.Under names above) {e : Expr} (sub : e.names ⊆ names) :
    e.fact state ≤ e.fact above := by
  induction e with
  | int | bool | index => exact Fact.le_refl _
  | var node name =>
      obtain ⟨a, known⟩ := exists_fact? (under.covers (sub (List.mem_singleton.mpr rfl)))
      obtain ⟨b, known', le⟩ := under.le name a known
      simp only [Expr.fact, known, known']
      cases le with
      | bottom => exact absurd known (under.proper.seen name)
      | refl => exact Fact.le_refl _
      | top => exact Fact.Le.top
  | unary node op operand ih => exact op.fold_mono (operand.fact_ne_bottom _) (ih sub)
  | binary node op left right ihLeft ihRight =>
      obtain ⟨subLeft, subRight⟩ := List.append_subset.mp sub
      exact op.fold_mono (left.fact_ne_bottom _) (right.fact_ne_bottom _) (ihLeft subLeft)
        (ihRight subRight)

end State

def Walk.Ensures {α : Type} (walk : Walk α) (reaches : α → Prop)
    (allowed : Nat × Fact → Prop) : Prop :=
  ∃ a trail, walk.Finds a trail ∧ reaches a ∧ ∀ entry ∈ trail, allowed entry

namespace Walk

variable {α β : Type} {allowed : Nat × Fact → Prop}

theorem ensures_pure {reaches : α → Prop} {a : α} (h : reaches a) :
    Ensures (pure a) reaches allowed :=
  ⟨a, [], finds_pure a, h, List.forall_mem_nil _⟩

theorem ensures_report (event : Event) :
    Ensures (Flow.report event) (fun _ => True) allowed :=
  ⟨(), [], finds_report event, trivial, List.forall_mem_nil _⟩

theorem Ensures.bind {walk : Walk α} {next : α → Walk β} {reaches : α → Prop}
    {reaches' : β → Prop} (first : walk.Ensures reaches allowed)
    (second : ∀ a, reaches a → (next a).Ensures reaches' allowed) :
    Ensures (walk >>= next) reaches' allowed := by
  obtain ⟨a, trail, finds, reached, fine⟩ := first
  obtain ⟨b, trail', finds', reached', fine'⟩ := second a reached
  exact ⟨b, trail ++ trail', finds.bind finds', reached',
    List.forall_mem_append.mpr ⟨fine, fine'⟩⟩

theorem Ensures.mono {walk : Walk α} {reaches reaches' : α → Prop}
    (h : walk.Ensures reaches allowed) (more : ∀ a, reaches a → reaches' a) :
    walk.Ensures reaches' allowed := by
  obtain ⟨a, trail, finds, reached, fine⟩ := h
  exact ⟨a, trail, finds, more a reached, fine⟩

end Walk

def FactTable.Above (table : FactTable) (ids : List Nat) (entry : Nat × Fact) : Prop :=
  entry.1 ∈ ids ∧ entry.2 ≤ table.get entry.1

section Above

variable {table : FactTable} {ids : List Nat} {names : List String} {above state : State}

theorem Expr.names_subset_of_mem_parts {e part : Expr} (mem : part ∈ e.parts) :
    part.names ⊆ e.names := by
  induction e with
  | int | bool | var =>
      obtain rfl := List.mem_singleton.mp mem
      exact List.Subset.refl _
  | index node name element ih =>
      rcases List.mem_append.mp mem with mem | mem
      · exact List.subset_cons_of_subset _ (ih mem)
      · obtain rfl := List.mem_singleton.mp mem
        exact List.Subset.refl _
  | unary node op operand ih =>
      rcases List.mem_append.mp mem with mem | mem
      · exact ih mem
      · obtain rfl := List.mem_singleton.mp mem
        exact List.Subset.refl _
  | binary node op left right ihLeft ihRight =>
      rcases List.mem_append.mp mem with mem | mem
      · rcases List.mem_append.mp mem with mem | mem
        · exact List.subset_append_of_subset_left _ (ihLeft mem)
        · exact List.subset_append_of_subset_right _ (ihRight mem)
      · obtain rfl := List.mem_singleton.mp mem
        exact List.Subset.refl _

theorem Expr.walk_ensures {e : Expr} (knows : table.Knows above e)
    (under : state.Under names above) (named : e.names ⊆ names) (sub : e.ids ⊆ ids) :
    (e.walk state).Ensures (· = e.fact state) (table.Above ids) := by
  refine ⟨_, _, e.walk_finds state, rfl, ?_⟩
  intro entry mem
  obtain ⟨part, inside, rfl⟩ := List.mem_map.mp mem
  refine ⟨sub (List.mem_map_of_mem inside), ?_⟩
  rw [knows part inside]
  exact under.fact_le (List.Subset.trans (names_subset_of_mem_parts inside) named)

theorem Expr.walkAll_ensures {es : List Expr} (knows : ∀ e ∈ es, table.Knows above e)
    (under : state.Under names above) (named : es.flatMap Expr.names ⊆ names)
    (sub : es.flatMap Expr.ids ⊆ ids) :
    (walkAll state es).Ensures (fun _ => True) (table.Above ids) := by
  induction es with
  | nil => exact Walk.ensures_pure trivial
  | cons e rest ih =>
      obtain ⟨first, others⟩ := List.forall_mem_cons.mp knows
      obtain ⟨namedFirst, namedRest⟩ := List.append_subset.mp (List.flatMap_cons ▸ named)
      obtain ⟨subFirst, subRest⟩ := List.append_subset.mp (List.flatMap_cons ▸ sub)
      exact (walk_ensures first under namedFirst subFirst).bind
        fun _ _ => ih others namedRest subRest

end Above

section Statements

variable {allowed : Nat × Fact → Prop} {reaches : State → Prop} {state : State} {cond : Expr}
  (joins : ∀ first second, reaches first → reaches second → reaches (first.join second))

include joins

/-- A branch enters only the ways that its condition leaves open. -/
theorem Stmt.walk_when_ensures {body : List Stmt}
    (conds : (cond.walk state).Ensures (· = cond.fact state) allowed)
    (taken : (cond.fact state).const?.all (· == 1) = true →
      (walkAll body state).Ensures reaches allowed)
    (skipped : (cond.fact state).const?.all (· != 1) = true → reaches state) :
    ((Stmt.when cond body).walk state).Ensures reaches allowed := by
  rw [walk]
  apply conds.bind
  rintro _ rfl
  cases known : (cond.fact state).const? with
  | none =>
      apply (taken (by rw [known]; rfl)).bind
      intro after reached
      exact Walk.ensures_pure (joins after state reached (skipped (by rw [known]; rfl)))
  | some value =>
      by_cases isTrue : value = 1
      · simp only [if_pos isTrue]
        exact taken (by rw [known, isTrue]; rfl)
      · simp only [if_neg isTrue]
        exact Walk.ensures_pure (skipped (by simpa [known] using isTrue))

theorem Stmt.walk_choose_ensures {thens elses : List Stmt}
    (conds : (cond.walk state).Ensures (· = cond.fact state) allowed)
    (taken : (cond.fact state).const?.all (· == 1) = true →
      (walkAll thens state).Ensures reaches allowed)
    (skipped : (cond.fact state).const?.all (· != 1) = true →
      (walkAll elses state).Ensures reaches allowed) :
    ((Stmt.choose cond thens elses).walk state).Ensures reaches allowed := by
  rw [walk]
  apply conds.bind
  rintro _ rfl
  cases known : (cond.fact state).const? with
  | none =>
      apply (taken (by rw [known]; rfl)).bind
      intro first reached
      apply (skipped (by rw [known]; rfl)).bind
      intro second reached'
      exact Walk.ensures_pure (joins first second reached reached')
  | some value =>
      by_cases isTrue : value = 1
      · simp only [if_pos isTrue]
        exact taken (by rw [known, isTrue]; rfl)
      · simp only [if_neg isTrue]
        exact skipped (by simpa [known] using isTrue)

theorem Flow.untilStable_ensures {body : State → Walk State}
    (bodies : ∀ s, reaches s → (body s).Ensures reaches allowed)
    (conds : ∀ s, reaches s → (cond.walk s).Ensures (fun _ => True) allowed)
    (fuel pass : Nat) {state : State} (start : reaches state) :
    (Flow.untilStable body cond fuel pass state).Ensures reaches allowed := by
  induction fuel generalizing pass state with
  | zero => exact Walk.ensures_pure start
  | succ fuel ih =>
      rw [untilStable]
      apply (bodies state start).bind
      intro after reached
      have next : reaches (after.join state) := joins after state reached start
      apply (conds after reached).bind
      intro _ _
      apply (Walk.ensures_report _).bind
      intro _ _
      by_cases stable : after.join state = state
      · rw [if_pos stable]
        apply (conds _ next).bind
        exact fun _ _ => Walk.ensures_pure next
      · rw [if_neg stable]
        exact ih (pass + 1) next

theorem Stmt.walk_loop_ensures {body : List Stmt}
    (conds : (cond.walk state).Ensures (· = cond.fact state) allowed)
    (start : reaches state)
    (bodies : (cond.fact state).const?.all (· == 1) = true →
      ∀ s, reaches s → (walkAll body s).Ensures reaches allowed)
    (again : ∀ s, reaches s → (cond.walk s).Ensures (fun _ => True) allowed) :
    ((Stmt.loop cond body).walk state).Ensures reaches allowed := by
  rw [walk]
  apply conds.bind
  rintro _ rfl
  by_cases isFalse : (cond.fact state).isConst (· != 1) = true
  · rw [if_pos isFalse]
    exact Walk.ensures_pure start
  · rw [if_neg isFalse]
    have entered : (cond.fact state).const?.all (· == 1) = true := by
      cases known : cond.fact state <;> simp_all [Fact.isConst, Fact.const?]
    exact Flow.untilStable_ensures joins (bodies entered) again _ _ start

end Statements

namespace FactTable

variable {table : FactTable} {names : List String} {ids : List Nat}

theorem Knows.known {state : State} {e : Expr} (knows : table.Knows state e) :
    table.known e = (e.fact state).const? := by
  have self : e ∈ e.parts := by cases e <;> simp [Expr.parts]
  rw [FactTable.known, knows e self]

theorem open_of_under {above state : State} {e : Expr} (under : state.Under names above)
    (named : e.names ⊆ names) {p : Word → Bool}
    (isOpen : (e.fact state).const?.all p = true) : (e.fact above).const?.all p = true :=
  Fact.all_const?_of_le (e.fact_ne_bottom state) (under.fact_le named) isOpen

/-- A body that a walk from below enters is live, and the walk of it leads below the state
    behind it. -/
theorem Knows.enters {above state behind : State} {cond : Expr} (knows : table.Knows above cond)
    (under : state.Under names above) (named : cond.names ⊆ names) {p : Word → Bool}
    {body : List Stmt} {walk : Walk State}
    (sub : Stmt.idsAll
      (if (table.known cond).all p then Stmt.liveAll table.known body else []) ⊆ ids)
    (ends : (cond.fact above).const?.all p = true →
      ∃ after, table.Fits body above after ∧ after.Le behind)
    (inner : ∀ after, table.Fits body above after →
      Stmt.idsAll (Stmt.liveAll table.known body) ⊆ ids →
        walk.Ensures (·.Under names after) (table.Above ids))
    (isOpen : (cond.fact state).const?.all p = true) :
    walk.Ensures (·.Under names behind) (table.Above ids) := by
  have isOpen := open_of_under under named isOpen
  rw [knows.known, if_pos isOpen] at sub
  obtain ⟨after, fits, le⟩ := ends isOpen
  exact (inner after fits sub).mono fun _ under => under.mono le

section Branches

variable {cond : Expr} {body thens elses rest : List Stmt} {state last : State}

/-- What fits a branch fits its body if the condition leaves that open; either way leads
    below the state behind. -/
theorem Fits.when_cases (fits : table.Fits (.when cond body :: rest) state last) :
    ∃ joined, table.Knows state cond ∧
      ((cond.fact state).const?.all (· == 1) = true →
        ∃ after, table.Fits body state after ∧ after.Le joined) ∧
      ((cond.fact state).const?.all (· != 1) = true → state.Le joined) ∧
      table.Fits rest joined last := by
  cases fits with
  | whenTaken knows isTrue fits fitsRest =>
      refine ⟨_, knows, fun _ => ⟨_, fits, State.le_refl _⟩, ?_, fitsRest⟩
      rw [isTrue]
      exact nofun
  | whenSkipped knows isConst isFalse fitsRest =>
      refine ⟨_, knows, ?_, fun _ => State.le_refl _, fitsRest⟩
      rw [isConst]
      exact fun taken => absurd (eq_of_beq taken) isFalse
  | when knows fits le le' fitsRest =>
      exact ⟨_, knows, fun _ => ⟨_, fits, le⟩, fun _ => le', fitsRest⟩

theorem Fits.choose_cases (fits : table.Fits (.choose cond thens elses :: rest) state last) :
    ∃ joined, table.Knows state cond ∧
      ((cond.fact state).const?.all (· == 1) = true →
        ∃ after, table.Fits thens state after ∧ after.Le joined) ∧
      ((cond.fact state).const?.all (· != 1) = true →
        ∃ after, table.Fits elses state after ∧ after.Le joined) ∧
      table.Fits rest joined last := by
  cases fits with
  | chooseFirst knows isTrue fits fitsRest =>
      refine ⟨_, knows, fun _ => ⟨_, fits, State.le_refl _⟩, ?_, fitsRest⟩
      rw [isTrue]
      exact nofun
  | chooseSecond knows isConst isFalse fits fitsRest =>
      refine ⟨_, knows, ?_, fun _ => ⟨_, fits, State.le_refl _⟩, fitsRest⟩
      rw [isConst]
      exact fun taken => absurd (eq_of_beq taken) isFalse
  | choose knows fits fits' le le' fitsRest =>
      exact ⟨_, knows, fun _ => ⟨_, fits, le⟩, fun _ => ⟨_, fits', le'⟩, fitsRest⟩

theorem Fits.loop_cases (fits : table.Fits (.loop cond body :: rest) state last) :
    ∃ stable, state.Le stable ∧ table.Knows stable cond ∧
      ((cond.fact stable).const?.all (· == 1) = true →
        ∃ after, table.Fits body stable after ∧ after.Le stable) ∧
      table.Fits rest stable last := by
  cases fits with
  | loopSkipped knows isConst isFalse fitsRest =>
      refine ⟨_, State.le_refl _, knows, ?_, fitsRest⟩
      rw [isConst]
      exact fun taken => absurd (eq_of_beq taken) isFalse
  | loop le knows fits below fitsRest =>
      exact ⟨_, le, knows, fun _ => ⟨_, fits, below⟩, fitsRest⟩

end Branches

/-- Where a table fits statements from a state to another one, a walk from a state below
    leads to a state below, and the table lies above what it records about the nodes of
    live statements; it records nothing else. -/
theorem Fits.walk_ensures {stmts : List Stmt} {above last state : State}
    (fits : table.Fits stmts above last) (under : state.Under names above)
    (named : Stmt.namesAll stmts ⊆ names)
    (sub : Stmt.idsAll (Stmt.liveAll table.known stmts) ⊆ ids) :
    (Stmt.walkAll stmts state).Ensures (·.Under names last) (table.Above ids) := by
  cases stmts with
  | nil =>
      cases fits
      exact Walk.ensures_pure under
  | cons stmt rest =>
      obtain ⟨named, namedRest⟩ := List.append_subset.mp named
      obtain ⟨sub, subRest⟩ : (stmt.live table.known).exprs.flatMap Expr.ids ⊆ ids ∧
          Stmt.idsAll (Stmt.liveAll table.known rest) ⊆ ids := by
        simpa [Stmt.idsAll, Stmt.liveAll, Stmt.exprsAll] using sub
      have joins : ∀ {above} (first second : State), first.Under names above →
          second.Under names above → (first.join second).Under names above :=
        fun _ _ under under' => under.join under'
      obtain ⟨joined, walked, fitsRest⟩ : ∃ joined,
          (stmt.walk state).Ensures (·.Under names joined) (table.Above ids) ∧
            table.Fits rest joined last := by
        cases stmt with
        | assign target value =>
            obtain ⟨_, named⟩ := List.cons_subset.mp named
            have sub : value.ids ⊆ ids := by simpa [Stmt.live, Stmt.exprs] using sub
            cases fits with
            | assign knows fitsRest =>
              refine ⟨_, ?_, fitsRest⟩
              apply (value.walk_ensures knows under named sub).bind
              rintro _ rfl
              exact Walk.ensures_pure
                (under.assign target (value.fact_ne_bottom state) (under.fact_le named))
        | assignIndex target index value =>
            obtain ⟨_, named⟩ := List.cons_subset.mp named
            obtain ⟨namedIndex, named⟩ := List.append_subset.mp named
            obtain ⟨subIndex, sub⟩ : index.ids ⊆ ids ∧ value.ids ⊆ ids := by
              simpa [Stmt.live, Stmt.exprs] using sub
            cases fits with
            | assignIndex knowsIndex knows fitsRest =>
              refine ⟨_, ?_, fitsRest⟩
              apply (index.walk_ensures knowsIndex under namedIndex subIndex).bind
              intro _ _
              apply (value.walk_ensures knows under named sub).bind
              exact fun _ _ => Walk.ensures_pure under
        | call line target callee args =>
            obtain ⟨_, named⟩ := List.cons_subset.mp named
            cases fits with
            | call knows fitsRest =>
              refine ⟨_, ?_, fitsRest⟩
              apply (Expr.walkAll_ensures knows under named sub).bind
              exact fun _ _ =>
                Walk.ensures_pure (under.forget.assign target (by simp) (Fact.le_refl _))
        | callIndex line target index callee args =>
            obtain ⟨_, named⟩ := List.cons_subset.mp named
            obtain ⟨namedIndex, named⟩ := List.append_subset.mp named
            obtain ⟨subIndex, sub⟩ : index.ids ⊆ ids ∧ args.flatMap Expr.ids ⊆ ids := by
              simpa [Stmt.live, Stmt.exprs] using sub
            cases fits with
            | callIndex knowsIndex knows fitsRest =>
              refine ⟨_, ?_, fitsRest⟩
              apply (index.walk_ensures knowsIndex under namedIndex subIndex).bind
              intro _ _
              apply (Expr.walkAll_ensures knows under named sub).bind
              exact fun _ _ => Walk.ensures_pure under.forget
        | when cond body =>
            obtain ⟨namedCond, named⟩ := List.append_subset.mp named
            rw [Stmt.live, Stmt.exprs, List.flatMap_cons, List.append_subset] at sub
            obtain ⟨joined, knows, taken, skipped, fitsRest⟩ := fits.when_cases
            refine ⟨joined, ?_, fitsRest⟩
            apply Stmt.walk_when_ensures joins (cond.walk_ensures knows under namedCond sub.1)
            · exact knows.enters under namedCond sub.2 taken
                fun after fits => fits.walk_ensures under named
            · exact fun isOpen => under.mono (skipped (open_of_under under namedCond isOpen))
        | choose cond thens elses =>
            obtain ⟨namedCond, named⟩ := List.append_subset.mp named
            obtain ⟨namedThens, namedElses⟩ := List.append_subset.mp named
            rw [Stmt.live, Stmt.exprs, List.flatMap_cons, List.flatMap_append, List.append_subset,
              List.append_subset] at sub
            obtain ⟨joined, knows, taken, skipped, fitsRest⟩ := fits.choose_cases
            refine ⟨joined, ?_, fitsRest⟩
            apply Stmt.walk_choose_ensures joins (cond.walk_ensures knows under namedCond sub.1)
            · exact knows.enters under namedCond sub.2.1 taken
                fun after fits => fits.walk_ensures under namedThens
            · exact knows.enters under namedCond sub.2.2 skipped
                fun after fits => fits.walk_ensures under namedElses
        | loop cond body =>
            obtain ⟨namedCond, named⟩ := List.append_subset.mp named
            rw [Stmt.live, Stmt.exprs, List.flatMap_cons, List.append_subset] at sub
            obtain ⟨stable, le, knows, passes, fitsRest⟩ := fits.loop_cases
            refine ⟨stable, ?_, fitsRest⟩
            have start : state.Under names stable := under.mono le
            -- a condition that is open at the entry is open in the loop state, and each pass
            -- begins below that state
            apply Stmt.walk_loop_ensures joins (cond.walk_ensures knows start namedCond sub.1) start
            · intro isOpen s under
              exact knows.enters start namedCond sub.2 passes
                (fun after fits => fits.walk_ensures under named) isOpen
            · intro s under
              exact (cond.walk_ensures knows under namedCond sub.1).mono fun _ _ => trivial
        | block body =>
            cases fits with
            | block fits fitsRest => exact ⟨_, fits.walk_ensures under named sub, fitsRest⟩
      exact walked.bind fun _ under' => walk_ensures fitsRest under' namedRest subRest
termination_by sizeOf stmts

end FactTable

end Wordlang
