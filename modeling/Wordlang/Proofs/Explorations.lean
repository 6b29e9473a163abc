import Wordlang.Fact.Exploration
import Wordlang.Proofs.Live

/-! # Explorations end

A pass that changes the state of a loop raises the fact of a name, and there is little
room for that: a constant can be raised once, a name that the state does not have yet
twice. So no loop needs a bound. `Program.explore_ends` says that an exploration ends,
that it finds what the walk finds, and how many passes each visit of a loop takes. That
the walk of a body is monotone is not used, and with undeclared names it is not.
-/

namespace Wordlang

open State (Grows Proper roomOf)

namespace State

variable {state : State}

private theorem sum_room {entries : List (String × Fact)}
    (seen : ∀ entry ∈ entries, entry.2 ≠ .bottom) :
    (entries.map fun entry => room (some entry.2)).sum =
      entries.countP (·.2.const?.isSome) := by
  induction entries with
  | nil => rfl
  | cons entry rest ih =>
      have first := seen entry List.mem_cons_self
      have others := ih fun entry mem => seen entry (List.mem_cons_of_mem _ mem)
      rw [List.map_cons, List.sum_cons, others, List.countP_cons]
      cases known : entry.2 with
      | bottom => exact absurd known first
      | const value => exact Nat.add_comm _ _
      | top => exact Nat.zero_add _

theorem Proper.roomOf_names (proper : state.Proper) :
    state.roomOf state.names = state.countP (·.2.const?.isSome) := by
  have each : ∀ entry ∈ state, state.fact? entry.1 = some entry.2 := fun entry mem =>
    (lookup_eq_some_iff_mem proper.nodup).mpr mem
  have seen : ∀ entry ∈ state, entry.2 ≠ .bottom := fun entry mem isBottom =>
    proper.seen entry.1 (isBottom ▸ each entry mem)
  rw [roomOf, names, List.map_map, ← sum_room seen]
  congr 1
  apply List.map_congr_left
  intro entry mem
  rw [Function.comp, each entry mem]

theorem roomOf_append (state : State) (first second : List String) :
    state.roomOf (first ++ second) = state.roomOf first + state.roomOf second := by
  rw [roomOf, List.map_append, List.sum_append, ← roomOf, ← roomOf]

end State

namespace Visit

variable {visit : Visit} {names names' targets targets' : List String}

theorem mem_missing {name : String} :
    name ∈ visit.missing ↔ name ∈ Stmt.targetsAll visit.body ∧ name ∉ visit.entry.names := by
  simp [missing, State.names]

theorem mem_names_or_missing (visit : Visit) :
    ∀ name ∈ Stmt.targetsAll visit.body, name ∈ visit.entry.names ++ visit.missing := by
  intro name mem
  by_cases old : name ∈ visit.entry.names
  · exact List.mem_append_left _ old
  · exact List.mem_append_right _ (mem_missing.mpr ⟨mem, old⟩)

/-- The names that a loop comes to know have room for a rise of each constant and for two of
    each missing name. -/
theorem roomOf_le (visit : Visit) (proper : visit.entry.Proper) :
    visit.entry.roomOf (visit.entry.names ++ visit.missing) ≤
      visit.constants + 2 * visit.missing.length := by
  rw [State.roomOf_append, proper.roomOf_names, constants]
  exact Nat.add_le_add_left (State.roomOf_le _ _) _

theorem roomOf_lt_passes (visit : Visit) :
    visit.entry.roomOf (visit.entry.names ++ visit.missing) <
      Flow.passes visit.entry (Stmt.targetsAll visit.body) := by
  apply visit.entry.roomOf_lt_passes
  exact (List.dedup_sublist _).length_le.trans (List.length_filter_le _ _)

/-- A visit of a loop in a walk that began with some names and assigns some targets. -/
structure Bounded (names targets : List String) (visit : Visit) : Prop where
  known : names ⊆ visit.entry.names
  targets : Stmt.targetsAll visit.body ⊆ targets
  passes_le : visit.passes ≤ 1 + visit.constants + 2 * visit.missing.length

theorem Bounded.mono (bounded : visit.Bounded names targets) (known : names' ⊆ names)
    (sub : targets ⊆ targets') : visit.Bounded names' targets' :=
  ⟨List.Subset.trans known bounded.known, List.Subset.trans bounded.targets sub,
    bounded.passes_le⟩

end Visit

namespace Exploration

variable {α β γ δ : Type} {allowed : Visit → Prop}

/-- An exploration ends, leaves behind what a walk leaves behind, and agrees with its result.
    The visits that it adds are allowed. -/
def Mirrors (exploration : Exploration β) (walk : Walk α) (agrees : β → α → Prop)
    (allowed : Visit → Prop) : Prop :=
  ∀ start : Explored, ∃ b visits,
    exploration.run start =
        some (b, { flow := (walk.run start.flow).2, visits := start.visits ++ visits }) ∧
      agrees b (walk.run start.flow).1 ∧ ∀ visit ∈ visits, allowed visit

theorem mirrors_pure {agrees : β → α → Prop} {b : β} {a : α} (h : agrees b a) :
    Mirrors (pure b) (pure a) agrees allowed := by
  intro start
  exact ⟨b, [], by rw [List.append_nil]; rfl, h, nofun⟩

theorem mirrors_ofWalk (walk : Walk α) : Mirrors (ofWalk walk) walk Eq allowed := by
  intro start
  exact ⟨_, [], by rw [List.append_nil]; rfl, rfl, nofun⟩

theorem run_bind_of_eq {exploration : Exploration α} {next : α → Exploration β}
    {start behind : Explored} {a : α} (ran : exploration.run start = some (a, behind)) :
    (exploration >>= next).run start = (next a).run behind := by
  rw [StateT.run_bind, ran]
  rfl

theorem Mirrors.bind {exploration : Exploration β} {walk : Walk α} {agrees : β → α → Prop}
    {next : β → Exploration δ} {next' : α → Walk γ} {agrees' : δ → γ → Prop}
    (first : exploration.Mirrors walk agrees allowed)
    (second : ∀ flow b, agrees b (walk.run flow).1 →
      (next b).Mirrors (next' (walk.run flow).1) agrees' allowed) :
    Mirrors (exploration >>= next) (walk >>= next') agrees' allowed := by
  intro start
  obtain ⟨b, visits, ran, agreed, fine⟩ := first start
  obtain ⟨d, visits', ran', agreed', fine'⟩ := second start.flow b agreed
    { flow := (walk.run start.flow).2, visits := start.visits ++ visits }
  refine ⟨d, visits ++ visits', ?_, agreed', List.forall_mem_append.mpr ⟨fine, fine'⟩⟩
  rw [run_bind_of_eq ran, ran', List.append_assoc]
  rfl

/-- A visit that is kept has no counterpart in the walk. -/
theorem Mirrors.kept {exploration : Exploration β} {walk : Walk α} {agrees : β → α → Prop}
    {visit : Visit} (fine : allowed visit) (later : exploration.Mirrors walk agrees allowed) :
    Mirrors (do keep visit; exploration) walk agrees allowed := by
  intro start
  obtain ⟨b, visits, ran, agreed, others⟩ :=
    later { start with visits := start.visits ++ [visit] }
  refine ⟨b, visit :: visits, ?_, agreed, List.forall_mem_cons.mpr ⟨fine, others⟩⟩
  rw [StateT.run_bind]
  simpa [keep, StateT.run] using ran

theorem Mirrors.mono {exploration : Exploration β} {walk : Walk α} {agrees : β → α → Prop}
    {allowed' : Visit → Prop} (mirrors : exploration.Mirrors walk agrees allowed)
    (more : ∀ visit, allowed visit → allowed' visit) :
    exploration.Mirrors walk agrees allowed' := by
  intro start
  obtain ⟨b, visits, ran, agreed, fine⟩ := mirrors start
  exact ⟨b, visits, ran, agreed, fun visit mem => more visit (fine visit mem)⟩

end Exploration

open Exploration (Mirrors mirrors_pure mirrors_ofWalk)

theorem Walk.Settles.reached {α : Type} {walk : Walk α} {ids : List Nat} {reaches : α → Prop}
    {settled : FactTable → α → Prop} (settles : walk.Settles ids reaches settled) (flow : Flow) :
    reaches (walk.run flow).1 := by
  obtain ⟨a, _, finds, reached, _⟩ := settles
  rwa [(finds flow).1]

/-- A loop that is repeated without a bound ends where one ends that has fuel for all facts to
    grow, and takes one pass more than there is room. -/
theorem Expr.exploreLoop_mirrors {body : State → Exploration State}
    {walked : State → Walk State} (cond : Expr) {targets names : List String}
    {allowed : Visit → Prop} (known : ∀ name ∈ targets, name ∈ names) {fuel : Nat} {state : State}
    (pass : Nat) (proper : state.Proper)
    (grows : ∀ s, s.Proper → ∀ flow, Grows targets s ((walked s).run flow).1)
    (mirrors : ∀ s, Grows targets state s → (body s).Mirrors (walked s) Eq allowed)
    (old : ∀ name ∈ state.names, name ∈ names) (enough : state.roomOf names < fuel) :
    (cond.exploreLoop body pass state).Mirrors (Flow.untilStable walked cond fuel pass state)
      (fun found stable => found.2 = stable ∧ found.1 ≤ pass + state.roomOf names) allowed := by
  induction fuel generalizing state pass with
  | zero => exact absurd enough (Nat.not_lt_zero _)
  | succ fuel ih =>
      rw [exploreLoop, Flow.untilStable]
      apply (mirrors state (.refl proper)).bind
      rintro flow after rfl
      have joined : Grows targets state (State.join _ state) :=
        (grows state proper flow).join (.refl proper)
      apply (mirrors_ofWalk _).bind
      intro _ _ _
      apply (mirrors_ofWalk _).bind
      intro _ _ _
      by_cases stable : State.join ((walked state).run flow).1 state = state
      · rw [if_pos stable, if_pos stable]
        apply (mirrors_ofWalk _).bind
        intro _ _ _
        exact mirrors_pure ⟨rfl, Nat.le_add_right _ _⟩
      · rw [if_neg stable, if_neg stable]
        have less : (State.join ((walked state).run flow).1 state).roomOf names <
            state.roomOf names :=
          joined.roomOf_lt (State.le_join_right proper.nodup) stable old known
        have old' : ∀ name ∈ (State.join ((walked state).run flow).1 state).names,
            name ∈ names := by
          obtain ⟨new, eq, mem⟩ := joined.names
          rw [eq]
          exact List.forall_mem_append.mpr ⟨old, fun name inNew => known name (mem name inNew)⟩
        have later := ih (pass + 1) joined.proper (fun s grown => mirrors s (joined.trans grown))
          old' (Nat.lt_of_lt_of_le less (Nat.le_of_lt_succ enough))
        intro start
        obtain ⟨found, visits, ran, ⟨same, passes⟩, fine⟩ := later start
        exact ⟨found, visits, ran, ⟨same, by omega⟩, fine⟩

namespace Stmt

theorem mem_namesAll_of_mem_targetsAll {stmts : List Stmt} {name : String}
    (mem : name ∈ targetsAll stmts) : name ∈ namesAll stmts := by
  cases stmts with
  | nil => exact mem
  | cons stmt rest =>
      rw [targetsAll, List.mem_append] at mem
      rw [namesAll, List.mem_append]
      apply mem.imp _ mem_namesAll_of_mem_targetsAll
      intro mem
      cases stmt with
      | assign | call =>
          rw [List.mem_singleton.mp mem]
          exact List.mem_cons_self
      | assignIndex | callIndex => exact absurd mem List.not_mem_nil
      | when cond body | loop cond body =>
          exact List.mem_append_right _ (mem_namesAll_of_mem_targetsAll mem)
      | choose cond thens elses =>
          apply List.mem_append_right
          rw [List.mem_append]
          exact (List.mem_append.mp mem).imp mem_namesAll_of_mem_targetsAll
            mem_namesAll_of_mem_targetsAll
      | block body =>
          have mem : name ∈ targetsAll body := mem
          exact mem_namesAll_of_mem_targetsAll mem
termination_by sizeOf stmts

end Stmt

theorem State.Grows.subset {targets : List String} {state state' : State}
    (grows : Grows targets state state') : state.names ⊆ state'.names := by
  obtain ⟨new, eq, _⟩ := grows.names
  exact eq ▸ List.subset_append_left _ _

mutual

theorem Stmt.explore_mirrors (stmt : Stmt) {state : State} (proper : state.Proper) :
    (stmt.explore state).Mirrors (stmt.walk state) Eq (Visit.Bounded state.names stmt.targets) := by
  cases stmt with
  | assign | assignIndex | call | callIndex =>
      rw [explore]
      exact mirrors_ofWalk _
  | when cond body =>
      have inner := exploreAll_mirrors body proper
      rw [explore, walk]
      apply (mirrors_ofWalk _).bind
      intro flow fact same
      subst same
      cases ((cond.walk state).run flow).1.const? with
      | some value =>
          by_cases isTrue : value = 1
          · simp only [if_pos isTrue]
            exact inner
          · simp only [if_neg isTrue]
            exact mirrors_pure rfl
      | none =>
          apply inner.bind
          intro flow after same
          exact mirrors_pure (congrArg (State.join · state) same)
  | choose cond thens elses =>
      have first : (exploreAll thens state).Mirrors (walkAll thens state) Eq
          (Visit.Bounded state.names (targetsAll thens ++ targetsAll elses)) :=
        (exploreAll_mirrors thens proper).mono fun _ bounded =>
          bounded.mono (List.Subset.refl _) (List.subset_append_left _ _)
      have second : (exploreAll elses state).Mirrors (walkAll elses state) Eq
          (Visit.Bounded state.names (targetsAll thens ++ targetsAll elses)) :=
        (exploreAll_mirrors elses proper).mono fun _ bounded =>
          bounded.mono (List.Subset.refl _) (List.subset_append_right _ _)
      rw [explore, walk]
      apply (mirrors_ofWalk _).bind
      intro flow fact same
      subst same
      cases ((cond.walk state).run flow).1.const? with
      | some value =>
          by_cases isTrue : value = 1
          · simp only [if_pos isTrue]
            exact first
          · simp only [if_neg isTrue]
            exact second
      | none =>
          apply first.bind
          intro flow taken same
          apply second.bind
          intro flow' notTaken same'
          exact mirrors_pure (congrArg₂ State.join same same')
  | loop cond body =>
      rw [explore, walk]
      apply (mirrors_ofWalk _).bind
      intro flow fact same
      subst same
      by_cases skipped : ((cond.walk state).run flow).1.isConst (· != 1) = true
      · rw [if_pos skipped, if_pos skipped]
        apply Mirrors.kept _ (mirrors_pure rfl)
        exact ⟨List.Subset.refl _, List.Subset.refl _, Nat.zero_le _⟩
      · rw [if_neg skipped, if_neg skipped]
        -- each pass but the last lowers the room above the state, so the room bounds the passes
        let visit (passes : Nat) : Visit := { cond, body, entry := state, passes }
        have repeated := Expr.exploreLoop_mirrors cond
          (visit 0).mem_names_or_missing 1 proper
          (fun s proper flow => (walkAll_settles body proper).reached flow)
          (fun s grows => (exploreAll_mirrors body grows.proper).mono fun _ bounded =>
            bounded.mono grows.subset (List.Subset.refl _))
          (fun _ => List.mem_append_left _) (visit 0).roomOf_lt_passes
        rw [← bind_pure (Flow.untilStable _ _ _ _ _)]
        apply repeated.bind
        intro flow found agrees
        apply Mirrors.kept _ (mirrors_pure agrees.1)
        have passes : found.1 ≤ 1 + ((visit 0).constants + 2 * (visit 0).missing.length) :=
          agrees.2.trans (Nat.add_le_add_left ((visit 0).roomOf_le proper) 1)
        rw [← Nat.add_assoc] at passes
        exact ⟨List.Subset.refl _, List.Subset.refl _, passes⟩
  | block body => exact exploreAll_mirrors body proper

theorem Stmt.exploreAll_mirrors (stmts : List Stmt) {state : State} (proper : state.Proper) :
    (exploreAll stmts state).Mirrors (walkAll stmts state) Eq
      (Visit.Bounded state.names (targetsAll stmts)) := by
  cases stmts with
  | nil => exact mirrors_pure rfl
  | cons stmt rest =>
      have first := (explore_mirrors stmt proper).mono fun visit bounded =>
        bounded.mono (List.Subset.refl _)
          (List.subset_append_left stmt.targets (targetsAll rest))
      rw [exploreAll, walkAll]
      apply first.bind
      intro flow after same
      have grows := (walk_settles stmt proper).reached flow
      rw [same]
      exact (exploreAll_mirrors rest grows.proper).mono fun visit bounded =>
        bounded.mono grows.subset (List.subset_append_right _ _)

end

theorem Func.explore_mirrors (func : Func) :
    func.explore.Mirrors func.walk Eq
      (Visit.Bounded func.entryState.names (Stmt.targetsAll func.body)) := by
  apply (Stmt.exploreAll_mirrors func.body func.proper_entryState).bind
  intro flow state same
  rw [same]
  apply (mirrors_ofWalk _).bind
  intro flow' fact same'
  exact mirrors_ofWalk _

namespace Program

theorem explore_mirrors (program : Program) :
    (explore program).Mirrors (Program.walk program) Eq fun visit =>
      ∃ func ∈ program, visit.Bounded func.entryState.names (Stmt.targetsAll func.body) := by
  induction program with
  | nil => exact mirrors_pure rfl
  | cons func rest ih =>
      apply (func.explore_mirrors.mono fun visit bounded =>
        ⟨func, List.mem_cons_self, bounded⟩).bind
      intro _ _ _
      apply ih.mono
      intro visit allowed
      obtain ⟨other, mem, bounded⟩ := allowed
      exact ⟨other, List.mem_cons_of_mem _ mem, bounded⟩

private theorem missing_of_check {program checked : Program} {checker : Checker}
    (passed : program.check = .ok checked checker) {func : Func} (mem : func ∈ checked)
    {visit : Visit}
    (bounded : visit.Bounded func.entryState.names (Stmt.targetsAll func.body)) :
    visit.missing = [] := by
  apply List.eq_nil_iff_forall_not_mem.mpr
  intro name isMissing
  obtain ⟨assigned, unknown⟩ := Visit.mem_missing.mp isMissing
  have declared := (forall_wellFormed_of_check passed func mem).body.names_subset
    (Stmt.mem_namesAll_of_mem_targetsAll (bounded.targets assigned))
  exact unknown (bounded.known (func.entryState_under.covers declared))

/-- Exploring a program ends, and leaves behind what walking it leaves behind. Each visit of a
    loop takes at most one pass, one more for each constant on entry, and two more for each
    name that the body assigns and the entry state does not have; in a checked program
    there is no such name. -/
theorem explore_ends (program : Program) : ∃ visits,
    (explore program).run {} = some ((), { flow := Program.flow program, visits }) ∧
      ∀ visit ∈ visits,
        visit.passes ≤ 1 + visit.constants + 2 * visit.missing.length ∧
          ∀ original checker, Program.check original = .ok program checker →
            visit.missing = [] := by
  obtain ⟨_, visits, ran, _, allowed⟩ := explore_mirrors program {}
  refine ⟨visits, ran, fun visit mem => ?_⟩
  obtain ⟨func, inProgram, bounded⟩ := allowed visit mem
  exact ⟨bounded.passes_le, fun _ _ passed => missing_of_check passed inProgram bounded⟩

/-- A loop that assigns a name which is declared nowhere, while another one is constant. -/
def risingCond : Expr := .var ⟨1, 1⟩ "n"

def risingBody : List Stmt := [.assign "x" (.var ⟨2, 1⟩ "k"), .assign "k" (.int ⟨3, 1⟩ 1)]

def risingFunc : Func where
  name := "f"
  line := 1
  params := [⟨"n", .int, 1⟩]
  returns := .int
  decls := [⟨["k"], .int, 1⟩]
  body := [.assign "k" (.int ⟨0, 1⟩ 0), .loop risingCond risingBody]
  result := .var ⟨4, 1⟩ "k"

def rising : Program := [risingFunc]

def risingVisit : Visit where
  cond := risingCond
  body := risingBody
  entry := [("n", .top), ("k", .const 0)]
  passes := 3

private theorem explore_rising : ∃ flow,
    (explore rising).run {} = some ((), { flow, visits := [risingVisit] }) := by
  let risen : State := [("n", .top), ("k", .top), ("x", .top)]
  let Ends (pass : Nat) (state : State) : Prop := ∀ start : Explored, ∃ flow,
    (risingCond.exploreLoop (Stmt.exploreAll risingBody) pass state).run start =
      some ((3, risen), { flow, visits := start.visits })
  have third : Ends 3 risen := by
    intro start
    rw [Expr.exploreLoop]
    exact ⟨_, rfl⟩
  have second : Ends 2 [("n", .top), ("k", .top), ("x", .const 0)] := by
    intro start
    rw [Expr.exploreLoop]
    exact third _
  have first : Ends 1 risingVisit.entry := by
    intro start
    rw [Expr.exploreLoop]
    exact second _
  have loop : ∀ start : Explored, ∃ flow,
      ((Stmt.loop risingCond risingBody).explore risingVisit.entry).run start =
        some (risen, { flow, visits := start.visits ++ [risingVisit] }) := by
    intro start
    obtain ⟨flow, ended⟩ := first { start with flow := _ }
    exact ⟨flow, congrArg (Option.bind · _) ended⟩
  obtain ⟨flow₀, assigned⟩ : ∃ flow, ((Stmt.assign "k" (.int ⟨0, 1⟩ 0)).explore
      risingFunc.entryState).run {} = some (risingVisit.entry, { flow }) := ⟨_, rfl⟩
  obtain ⟨flow, looped⟩ := loop { flow := flow₀ }
  have body : (Stmt.exploreAll risingFunc.body risingFunc.entryState).run {} =
      some (risen, { flow, visits := [risingVisit] }) :=
    (Exploration.run_bind_of_eq assigned).trans (Exploration.run_bind_of_eq looped)
  have func : ∃ flow, risingFunc.explore.run {} = some ((), { flow, visits := [risingVisit] }) :=
    ⟨_, Exploration.run_bind_of_eq body⟩
  obtain ⟨flow, ran⟩ := func
  exact ⟨flow, Exploration.run_bind_of_eq ran⟩

/-- A checked program with a loop that is come to and never entered. -/
def idle : Program :=
  [{ name := "f", line := 1, params := [], returns := .int, decls := [⟨["x"], .int, 1⟩]
     body := [.loop (.bool ⟨0, 1⟩ false) [.assign "x" (.int ⟨1, 1⟩ 1)]]
     result := .var ⟨2, 1⟩ "x", scope := some 1 }]

theorem explore_ends_rising :
    ((explore rising).run {} =
        some ((), { flow := Program.flow rising, visits := [risingVisit] }) ∧
      risingVisit.constants = 1 ∧ risingVisit.missing = ["x"] ∧
        risingVisit.passes ≤ 1 + risingVisit.constants + 2 * risingVisit.missing.length) ∧
    ∃ original checker visit, Program.check original = .ok idle checker ∧
      (explore idle).run {} = some ((), { flow := Program.flow idle, visits := [visit] }) ∧
        Stmt.targetsAll visit.body = ["x"] ∧ visit.missing = [] := by
  constructor
  · obtain ⟨flow, ran⟩ := explore_rising
    obtain ⟨visits, ended, bounds⟩ := explore_ends rising
    obtain ⟨sameFlow, sameVisits⟩ : flow = Program.flow rising ∧ [risingVisit] = visits := by
      simpa using ran.symm.trans ended
    subst sameVisits
    exact ⟨ended, rfl, by decide, (bounds risingVisit List.mem_cons_self).1⟩
  · obtain ⟨checker, passed⟩ : ∃ checker, Program.check idle = .ok idle checker := ⟨_, rfl⟩
    obtain ⟨flow, visit, ran, targets⟩ : ∃ flow visit,
        (explore idle).run {} = some ((), { flow, visits := [visit] }) ∧
          Stmt.targetsAll visit.body = ["x"] := ⟨_, _, rfl, rfl⟩
    obtain ⟨visits, ended, bounds⟩ := explore_ends idle
    obtain ⟨sameFlow, sameVisits⟩ : flow = Program.flow idle ∧ [visit] = visits := by
      simpa using ran.symm.trans ended
    subst sameVisits
    have missing := (bounds visit List.mem_cons_self).2 idle checker passed
    exact ⟨idle, checker, visit, passed, ended, targets, missing⟩

end Program

end Wordlang
