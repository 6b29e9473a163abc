import Mathlib.Data.List.Lattice
import Wordlang.Fact.Route
import Wordlang.Proofs.Permutation
import Wordlang.Proofs.Success

/-! # Variables that hold one literal

A variable that is only ever assigned one literal holds that literal wherever all routes have
assigned it. The walk knows that: what it loses at a join, one of the joined ways had lost
before, and that way was part of a route without the assignment.
-/

namespace Wordlang

theorem Expr.fact_of_literal {e : Expr} {word : Word} (isLiteral : e.literal? = some word)
    (state : State) : e.fact state = .const word := by
  cases e with
  | int | bool => exact congrArg Fact.const (Option.some.inj isLiteral)
  | var | index | unary | binary => cases isLiteral

/-- A state that knows the word of a variable in some case. -/
structure State.Holds (case : Prop) (name : String) (word : Word) (state : State) : Prop where
  proper : state.Proper
  fact : case → state.fact? name = some (.const word)

namespace State.Holds

variable {case case' : Prop} {name : String} {word : Word} {state other : State}

theorem mono (holds : state.Holds case name word) (weaker : case' → case) :
    state.Holds case' name word :=
  ⟨holds.proper, fun inCase => holds.fact (weaker inCase)⟩

theorem join (first : state.Holds case name word) (second : other.Holds case name word) :
    (state.join other).Holds case name word := by
  refine ⟨first.proper.join second.proper, fun inCase => ?_⟩
  rw [State.fact?_join state second.proper.nodup, first.fact inCase, second.fact inCase]
  exact congrArg some (Fact.join_self _)

theorem assign (holds : state.Holds case name word) :
    (state.assign name (.const word)).Holds case' name word := by
  refine ⟨(holds.proper.assign name (by simp)).proper, fun _ => ?_⟩
  rw [State.fact?_assign, if_pos rfl]

theorem assign_other (holds : state.Holds case name word) {target : String} {fact : Fact}
    (seen : fact ≠ .bottom) (other : name ≠ target) :
    (state.assign target fact).Holds case name word := by
  refine ⟨(holds.proper.assign target seen).proper, fun inCase => ?_⟩
  rw [State.fact?_assign, if_neg other, holds.fact inCase]

end State.Holds

def Node.Has (node : Node) (fact : Fact) (entry : Nat × Fact) : Prop :=
  entry.1 = node.id → entry.2 = fact

section Walks

variable {node : Node} {name : String} {word : Word} {case : Prop} {state : State}

/-- An expression in which one node reads the variable is walked with its word there, if the
    variable is known in case the node is a part. -/
theorem Expr.walk_literal (holds : state.Holds case name word) {e : Expr}
    (unique : ∀ part ∈ e.parts, part.id = node.id → part = .var node name)
    (known : .var node name ∈ e.parts → case) :
    (e.walk state).Ensures (· = e.fact state) (node.Has (.const word)) := by
  refine ⟨_, _, e.walk_finds state, rfl, fun entry mem same => ?_⟩
  obtain ⟨part, inside, rfl⟩ := List.mem_map.mp mem
  obtain rfl := unique part inside same
  simp only [fact, holds.fact (known inside)]

mutual

/-- If every route to where the variable is read assigns it, unless it is known before, then the
    walk of a statement knows it there; and it knows it behind the statement if every route
    through that assigns it. -/
theorem Stmt.walk_literal (stmt : Stmt) {case : Prop} {state : State}
    (holds : state.Holds case name word) (callees : stmt.callees = [])
    (literal : ∀ value, .assign name value ∈ stmt.within → value.literal? = some word)
    (unique : ∀ e ∈ stmt.exprs, ∀ part ∈ e.parts, part.id = node.id → part = .var node name)
    (preceded : ∀ e route, stmt.RouteTo e route → .var node name ∈ e.parts →
      case ∨ name ∈ route) :
    (stmt.walk state).Ensures
      (State.Holds (case ∨ ∀ route, stmt.Route route → name ∈ route) name word)
      (node.Has (.const word)) := by
  cases stmt with
  | assign target value =>
      rw [walk]
      apply (Expr.walk_literal holds (unique value (by simp [exprs]))
        fun inside => (preceded value _ .assign inside).resolve_right List.not_mem_nil).bind
      rintro _ rfl
      apply Walk.ensures_pure
      by_cases same : name = target
      · subst same
        rw [Expr.fact_of_literal (literal value (by simp [within]))]
        exact holds.assign
      · apply (holds.assign_other (value.fact_ne_bottom state) same).mono
        rintro (inCase | assigned)
        · exact inCase
        · exact absurd (List.mem_singleton.mp (assigned _ .assign)) same
  | assignIndex target index value =>
      rw [walk]
      have known : ∀ e ∈ [index, value], .var node name ∈ e.parts → case := fun e mem inside =>
        (preceded e _ (.assignIndex mem) inside).resolve_right List.not_mem_nil
      apply (Expr.walk_literal holds (unique index (by simp [exprs])) (known index (by simp))).bind
      intro _ _
      apply (Expr.walk_literal holds (unique value (by simp [exprs])) (known value (by simp))).bind
      intro _ _
      refine Walk.ensures_pure (holds.mono fun h => h.resolve_right fun assigned => ?_)
      exact List.not_mem_nil (assigned _ .assignIndex)
  | call | callIndex => exact absurd callees (List.cons_ne_nil _ _)
  | when cond body =>
      have conds := Expr.walk_literal holds (unique cond (by simp [exprs]))
        fun inside => (preceded cond _ .when inside).resolve_right List.not_mem_nil
      have inner := walkAll_literal body holds callees
        (fun value mem => literal value (by simp [within, mem]))
        (fun e mem => unique e (by simp [exprs, mem]))
        fun e route way => preceded e route (.taken way)
      -- the route that leaves the body out assigns nothing
      have weaker : (case ∨ ∀ route, Stmt.Route (.when cond body) route → name ∈ route) → case :=
        fun h => h.resolve_right fun assigned => List.not_mem_nil (assigned _ .skipped)
      have behind := walk_when_ensures (fun _ _ first second => first.join second) conds
        (fun _ => inner.mono fun _ holds => holds.mono Or.inl) (fun _ => holds)
      exact behind.mono fun _ holds => holds.mono weaker
  | choose cond thens elses =>
      have conds := Expr.walk_literal holds (unique cond (by simp [exprs]))
        fun inside => (preceded cond _ .choose inside).resolve_right List.not_mem_nil
      obtain ⟨calleesThens, calleesElses⟩ := List.append_eq_nil_iff.mp callees
      have first := walkAll_literal thens holds calleesThens
        (fun value mem => literal value (by simp [within, mem]))
        (fun e mem => unique e (by simp [exprs, mem]))
        fun e route way => preceded e route (.first way)
      have second := walkAll_literal elses holds calleesElses
        (fun value mem => literal value (by simp [within, mem]))
        (fun e mem => unique e (by simp [exprs, mem]))
        fun e route way => preceded e route (.second way)
      apply walk_choose_ensures (fun _ _ one two => one.join two) conds
      · exact fun _ => first.mono fun _ holds => holds.mono <|
          Or.imp_right fun assigned route way => assigned route (.first way)
      · exact fun _ => second.mono fun _ holds => holds.mono <|
          Or.imp_right fun assigned route way => assigned route (.second way)
  | loop cond body =>
      have known : .var node name ∈ cond.parts → case := fun inside =>
        (preceded cond _ (.loop .done) inside).resolve_right List.not_mem_nil
      have conds := fun (state : State) (holds : state.Holds case name word) =>
        Expr.walk_literal holds (unique cond (by simp [exprs])) known
      have inner := fun (state : State) (holds : state.Holds case name word) =>
        walkAll_literal body holds callees
          (fun value mem => literal value (by simp [within, mem]))
          (fun e mem => unique e (by simp [exprs, mem]))
          fun e route way => preceded e route (.again .done way)
      have weaker : (case ∨ ∀ route, Stmt.Route (.loop cond body) route → name ∈ route) → case :=
        fun h => h.resolve_right fun assigned => List.not_mem_nil (assigned _ .done)
      have behind := walk_loop_ensures (fun _ _ first second => first.join second)
        (conds state holds) holds
        (fun _ s holds => (inner s holds).mono fun _ holds => holds.mono Or.inl)
        fun s holds => (conds s holds).mono fun _ _ => trivial
      exact behind.mono fun _ holds => holds.mono weaker
  | block body =>
      rw [walk]
      have inner := walkAll_literal body holds callees
        (fun value mem => literal value (by simp [within, mem])) unique
        fun e route way => preceded e route (.block way)
      exact inner.mono fun _ holds => holds.mono <|
        Or.imp_right fun assigned route way => assigned route (.block way)
termination_by sizeOf stmt

theorem Stmt.walkAll_literal (stmts : List Stmt) {case : Prop} {state : State}
    (holds : state.Holds case name word) (callees : calleesAll stmts = [])
    (literal : ∀ value, .assign name value ∈ withinAll stmts → value.literal? = some word)
    (unique : ∀ e ∈ exprsAll stmts, ∀ part ∈ e.parts, part.id = node.id → part = .var node name)
    (preceded : ∀ e route, RouteToAll stmts e route → .var node name ∈ e.parts →
      case ∨ name ∈ route) :
    (walkAll stmts state).Ensures
      (State.Holds (case ∨ ∀ route, RouteAll stmts route → name ∈ route) name word)
      (node.Has (.const word)) := by
  cases stmts with
  | nil =>
      rw [walkAll]
      refine Walk.ensures_pure (holds.mono fun h => h.resolve_right fun assigned => ?_)
      exact List.not_mem_nil (assigned _ .nil)
  | cons stmt rest =>
      obtain ⟨calleesFirst, calleesRest⟩ := List.append_eq_nil_iff.mp callees
      rw [walkAll]
      apply (walk_literal stmt holds calleesFirst
        (fun value mem => literal value (List.mem_append_left _ mem))
        (fun e mem => unique e (List.mem_append_left _ mem))
        fun e route way => preceded e route (.here way)).bind
      intro after holds
      have later := walkAll_literal rest holds calleesRest
        (fun value mem => literal value (List.mem_append_right _ mem))
        (fun e mem => unique e (List.mem_append_right _ mem)) ?_
      · refine later.mono fun _ holds => holds.mono ?_
        rintro (inCase | assigned)
        · exact .inl (.inl inCase)
        · refine or_iff_not_imp_right.mpr fun missed => .inr fun route way => ?_
          obtain ⟨more, last, absent⟩ : ∃ more, RouteAll rest more ∧ name ∉ more := by
            simpa using missed
          exact (List.mem_append.mp (assigned _ (.cons way last))).resolve_right absent
      · intro e more last inside
        refine or_iff_not_imp_right.mpr fun absent => or_iff_not_imp_left.mpr fun unknown => ?_
        intro route way
        have passed := (preceded e _ (.later way last) inside).resolve_left unknown
        exact (List.mem_append.mp passed).resolve_right absent
termination_by sizeOf stmts

end

/-- What a function without calls records about the node is the word of the variable, if every
    route there assigns it. -/
theorem Func.walk_literal {func : Func} (callees : func.callees = [])
    (literal : ∀ value, .assign name value ∈ Stmt.withinAll func.body → value.literal? = some word)
    (unique : ∀ e ∈ func.exprs, ∀ part ∈ e.parts, part.id = node.id → part = .var node name)
    (preceded : ∀ e route, func.RouteTo e route → .var node name ∈ e.parts → name ∈ route) :
    ∀ entry ∈ func.trail, node.Has (.const word) entry := by
  obtain ⟨uniqueBody, uniqueResult⟩ := List.forall_mem_append.mp unique
  have entry : func.entryState.Holds False name word := ⟨func.proper_entryState, False.elim⟩
  have body := Stmt.walkAll_literal func.body entry callees literal uniqueBody
    fun e route way inside => .inr (preceded e route (.body way) inside)
  have walked : func.walk.Ensures (fun _ => True) (node.Has (.const word)) := by
    apply body.bind
    intro state holds
    apply (Expr.walk_literal holds (uniqueResult _ (List.mem_singleton_self _))
      fun inside => .inr fun route way => preceded _ route (.result way) inside).bind
    exact fun _ _ => Walk.ensures_report _
  obtain ⟨_, trail, finds, -, allowed⟩ := walked
  have own : func.trail = trail := (finds {}).2
  rwa [own]

end Walks

namespace Program

variable {program : Program}

private theorem func_unique (nodup : program.ids.Nodup) {func other : Func} (mem : func ∈ program)
    (mem' : other ∈ program) {id : Nat} (inside : id ∈ func.exprs.flatMap Expr.ids)
    (inside' : id ∈ other.exprs.flatMap Expr.ids) : func = other := by
  rw [ids, List.flatMap_assoc, List.nodup_flatMap] at nodup
  by_contra different
  have symm : Std.Symm (Function.onFun List.Disjoint
      fun func : Func => func.exprs.flatMap Expr.ids) := ⟨fun _ _ => List.Disjoint.symm⟩
  exact nodup.2.forall mem mem' different inside inside'

private theorem part_unique (nodup : program.ids.Nodup) {func : Func} (mem : func ∈ program)
    {part other : Expr} (inside : part ∈ func.exprs.flatMap Expr.parts)
    (inside' : other ∈ func.exprs.flatMap Expr.parts) (same : part.id = other.id) :
    part = other := by
  rw [ids, List.flatMap_assoc, List.nodup_flatMap] at nodup
  have own : ((func.exprs.flatMap Expr.parts).map Expr.id).Nodup := by
    rw [List.map_flatMap]
    exact nodup.1 func mem
  exact List.inj_on_of_nodup_map own inside inside' same

/-- In a function of a checked program that calls nothing, a variable that is only assigned one
    literal is known to be that literal wherever the walk comes to read it and every route has
    assigned it before. -/
theorem literal_known {text : String} (read : (readProgram text).result = .ok program)
    {checked : Program} {checker : Checker} (passed : program.check = .ok checked checker)
    {func : Func} (mem : func ∈ checked) (callees : func.callees = []) {name : String}
    {word : Word}
    (literal : ∀ value, .assign name value ∈ Stmt.withinAll func.body → value.literal? = some word)
    {node : Node} (inside : .var node name ∈ func.exprs.flatMap Expr.parts)
    (reached : node.id ∈ (flow checked).table.facts)
    (preceded : ∀ e route, func.RouteTo e route → .var node name ∈ e.parts → name ∈ route) :
    (flow checked).table.get node.id = .const word := by
  have nodup := ids_nodup_of_check read passed
  rw [Flow.table, FactTable.mem_facts_ofList] at reached
  have recorded := FactTable.get_ofList_mem reached
  rw [records_flow] at recorded
  obtain ⟨other, mem', recorded⟩ := List.mem_flatMap.mp recorded
  obtain ⟨e, whole, isPart⟩ := List.mem_flatMap.mp inside
  have owned : node.id ∈ func.exprs.flatMap Expr.ids :=
    List.mem_flatMap.mpr ⟨e, whole, List.mem_map_of_mem isPart⟩
  obtain rfl := func_unique nodup mem mem' owned
    (other.walk_finds.2 _ (List.mem_map_of_mem recorded))
  have walked := Func.walk_literal callees literal
    (fun e mem'' part isPart same => part_unique nodup mem
      (List.mem_flatMap.mpr ⟨e, mem'', isPart⟩) inside same) preceded
  rw [Flow.table, records_flow]
  exact walked _ recorded rfl

/-- A program that assigns a literal in both bodies of a choice and reads it behind them. -/
def holdingText : String :=
  "function f(n: int): int \x7b
     var v: int;
     if (n > 0) \x7b v = 7; \x7d else \x7b v = 7; \x7d
     n = n - v;
     return v; \x7d"

/-- The function of the text. -/
def holding : Func where
  name := "f"
  line := 1
  params := [⟨"n", .int, 1⟩]
  returns := .int
  decls := [⟨["v"], .int, 2⟩]
  body := [
    .choose (.binary ⟨2, 3⟩ .greater (.var ⟨0, 3⟩ "n") (.int ⟨1, 3⟩ 0))
      [.assign "v" (.int ⟨3, 3⟩ 7)] [.assign "v" (.int ⟨4, 3⟩ 7)],
    .assign "n" (.binary ⟨7, 4⟩ .minus (.var ⟨5, 4⟩ "n") (.var ⟨6, 4⟩ "v"))]
  result := .var ⟨8, 5⟩ "v"

def isAssignment (body : List Stmt) : Bool :=
  body.length == 1 && body.all fun
    | .assign .. => true
    | _ => false

theorem exists_of_isAssignment {body : List Stmt} (one : isAssignment body = true) :
    ∃ target value, body = [.assign target value] := by
  obtain ⟨length, all⟩ := Bool.and_eq_true_iff.mp one
  obtain ⟨stmt, rfl⟩ := List.length_eq_one_iff.mp (beq_iff_eq.mp length)
  cases stmt with
  | assign target value => exact ⟨target, value, rfl⟩
  | _ => cases all

theorem holdingText_read : (readProgram holdingText).result = .ok [holding] := by
  obtain ⟨program, read, same⟩ := exists_ok_of_any (x := (readProgram holdingText).result)
    (p := fun program => program.length == 1 && program.all fun func =>
      (func.name, func.line, func.params, func.returns, func.decls, func.scope) ==
          (holding.name, holding.line, holding.params, holding.returns, holding.decls, none) &&
        func.exprs == holding.exprs && Stmt.targetsAll func.body == ["v", "v", "n"] &&
        isAssignment (func.body.drop 1) && func.body.head?.any fun
          | .choose _ thens elses => isAssignment thens && isAssignment elses
          | _ => false) (by decide +kernel)
  simp only [Bool.and_eq_true, beq_iff_eq] at same
  obtain ⟨one, all⟩ := same
  obtain ⟨⟨name, line, params, returns, decls, body, result, scope⟩, rfl⟩ :=
    List.length_eq_one_iff.mp one
  simp only [List.all_cons, List.all_nil, Bool.and_true, Bool.and_eq_true, beq_iff_eq] at all
  obtain ⟨⟨⟨⟨heads, exprs⟩, targets⟩, last⟩, first⟩ := all
  cases body with
  | nil => cases first
  | cons stmt rest =>
      obtain ⟨u, z, rfl⟩ := exists_of_isAssignment last
      cases stmt with
      | choose cond thens elses =>
          obtain ⟨first, second⟩ := Bool.and_eq_true_iff.mp first
          obtain ⟨v, x, rfl⟩ := exists_of_isAssignment first
          obtain ⟨w, y, rfl⟩ := exists_of_isAssignment second
          simp [holding, Func.exprs, Stmt.exprs, Stmt.exprsAll] at heads exprs
          simp [Stmt.targets, Stmt.targetsAll] at targets
          simp [read, holding, heads, exprs, targets]
      | _ => cases first

theorem literal_known_holding : ∃ program checked checker,
    (readProgram holdingText).result = .ok program ∧ program.check = .ok checked checker ∧
      ∃ func ∈ checked, func.callees = [] ∧
        (∀ value, .assign "v" value ∈ Stmt.withinAll func.body → value.literal? = some 7) ∧
        .var ⟨6, 4⟩ "v" ∈ func.exprs.flatMap Expr.parts ∧ 6 ∈ (flow checked).table.facts ∧
        (∀ e route, func.RouteTo e route → .var ⟨6, 4⟩ "v" ∈ e.parts → "v" ∈ route) ∧
        (flow checked).table.get 6 = .const 7 := by
  have literal : ∀ value, .assign "v" value ∈ Stmt.withinAll holding.body →
      value.literal? = some 7 := by
    simp [holding, Stmt.withinAll, Stmt.within, Expr.literal?]
  have inside : .var ⟨6, 4⟩ "v" ∈ holding.exprs.flatMap Expr.parts := by decide
  have reached : 6 ∈ (flow [{ holding with scope := some 1 }]).table.facts := by decide +kernel
  have preceded : ∀ e route, Func.RouteTo { holding with scope := some 1 } e route →
      .var ⟨6, 4⟩ "v" ∈ e.parts → "v" ∈ route := by
    have chosen : ∀ {cond x y : Expr} {route : List String},
        Stmt.Route (.choose cond [.assign "v" x] [.assign "v" y]) route → "v" ∈ route :=
      Stmt.Route.mem_choose (fun _ => Stmt.RouteAll.mem_assign) (fun _ => Stmt.RouteAll.mem_assign)
    intro e route way isPart
    cases way with
    | body way =>
      cases way with
      | here way =>
        have mem := way.mem_exprs
        simp [Stmt.exprs, Stmt.exprsAll] at mem
        rcases mem with rfl | rfl | rfl <;> simp [Expr.parts] at isPart
      | later first _ => exact List.mem_append_left _ (chosen first)
    | result way =>
      cases way with
      | cons first _ => exact List.mem_append_left _ (chosen first)
  have passed : Program.check [holding] = .ok [{ holding with scope := some 1 }] ⟨_, _⟩ := rfl
  exact ⟨_, _, _, holdingText_read, passed, _, List.mem_cons_self, rfl, literal, inside, reached,
    preceded, literal_known holdingText_read passed List.mem_cons_self rfl literal inside reached
      preceded⟩

end Program

end Wordlang
