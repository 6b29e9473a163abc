import Wordlang.Proofs.Numbering
import Wordlang.Proofs.Scopes
import Wordlang.Proofs.Walks
import Wordlang.Semantics.Eval

/-! # Propagation of facts

What the table of a program says is true of every execution. A state stands for the
stores whose words it allows. Running statements keeps the store among those of the
state behind them, and the loop states are the invariants of the loops. An execution
may be of any length and need not end.
-/

namespace Wordlang

theorem Fact.Allows.of_isConst {a : Fact} {x : Word} (h : a.Allows x) {p : Word → Bool}
    (isConst : a.isConst p = true) : p x = true := by
  cases h with
  | const => exact isConst
  | top => exact absurd isConst nofun

theorem UnOp.fold_allows (op : UnOp) {a : Fact} {x : Word} (h : a.Allows x) :
    (op.fold a).Allows (op.eval x) := by
  cases h with
  | const => exact .const
  | top => exact .top

theorem BinOp.absorb?_eval {op : BinOp} {a b : Fact} {x y value : Word} (ha : a.Allows x)
    (hb : b.Allows y) (defined : ¬ (op = .div ∧ y = 0)) (h : op.absorb? a b = some value) :
    op.eval x y = value := by
  -- the operand that absorbs has its property on this side or on that
  have either : ∀ {p : Word → Bool}, (a.isConst p || b.isConst p) = true →
      p x = true ∨ p y = true := by
    intro p isConst
    rcases (Bool.or_eq_true _ _).mp isConst with left | right
    · exact .inl (ha.of_isConst left)
    · exact .inr (hb.of_isConst right)
  cases op <;>
    simp only [absorb?, Option.ite_none_right_eq_some, reduceCtorEq, Option.some.injEq] at h
  case times =>
      obtain ⟨absorbs, rfl⟩ := h
      rcases either absorbs with zero | zero
      · rw [eq_of_beq zero]
        exact BitVec.zero_mul
      · rw [eq_of_beq zero]
        exact BitVec.mul_zero
  case div =>
      obtain ⟨absorbs, rfl⟩ := h
      rcases either absorbs with zero | zero
      · rw [eq_of_beq zero]
        exact BitVec.zero_sdiv
      · exact absurd ⟨rfl, eq_of_beq zero⟩ defined
  case and =>
      obtain ⟨absorbs, rfl⟩ := h
      rcases either absorbs with zero | zero
      · simp [eval, Word.isTrue, eq_of_beq zero, Word.ofBool]
      · simp [eval, Word.isTrue, eq_of_beq zero, Word.ofBool]
  case or =>
      obtain ⟨absorbs, rfl⟩ := h
      rcases either absorbs with isTrue | isTrue
      · simp [eval, isTrue, Word.ofBool]
      · simp [eval, isTrue, Word.ofBool]

theorem BinOp.fold_allows {op : BinOp} {a b : Fact} {x y : Word} (ha : a.Allows x)
    (hb : b.Allows y) (defined : ¬ (op = .div ∧ y = 0)) :
    (op.fold a b).Allows (op.eval x y) := by
  unfold fold
  cases absorbed : op.absorb? a b with
  | some value =>
      rw [absorb?_eval ha hb defined absorbed]
      exact .const
  | none =>
      cases ha with
      | top => exact .top
      | const =>
          cases hb with
          | top => exact .top
          | const => exact .const

namespace State

variable {state state' : State} {store store' : Store}

def Admits (state : State) (store : Store) : Prop :=
  ∀ name value, store.word? name = some value →
    ∃ fact, state.fact? name = some fact ∧ fact.Allows value

theorem Admits.mono (admits : state.Admits store) (le : state.Le state') :
    state'.Admits store := by
  intro name value assigned
  obtain ⟨fact, known, allows⟩ := admits name value assigned
  obtain ⟨above, known', below⟩ := le name fact known
  exact ⟨above, known', allows.mono below⟩

theorem Admits.forget (admits : state.Admits store) : state.forget.Admits store := by
  intro name value assigned
  obtain ⟨fact, known, _⟩ := admits name value assigned
  exact ⟨.top, by rw [fact?_forget, known, Option.map_some], .top⟩

theorem Admits.put (admits : state.Admits store) {target : String} {value : Word}
    (put : store.put target value = some store') {fact : Fact} (allows : fact.Allows value) :
    (state.assign target fact).Admits store' := by
  intro name word assigned
  rw [Store.word?_put put] at assigned
  rw [fact?_assign]
  by_cases isTarget : name = target
  · rw [if_pos isTarget] at assigned ⊢
    exact ⟨fact, rfl, Option.some.inj assigned ▸ allows⟩
  · rw [if_neg isTarget] at assigned ⊢
    exact admits name word assigned

theorem Admits.putItem (admits : state.Admits store) {target : String} {index value : Word}
    (put : store.putItem target index value = some store') : state.Admits store' := by
  intro name word assigned
  rw [Store.word?_putItem put] at assigned
  exact admits name word assigned

end State

theorem State.fact?_foldl_assign {typing : Typing} {state : State} {name : String}
    (h : name ∈ typing.map (·.1) ∨ state.fact? name = some .top) :
    State.fact? (typing.foldl (fun state entry => state.assign entry.1 .top) state) name =
      some .top := by
  induction typing generalizing state with
  | nil => exact h.resolve_left List.not_mem_nil
  | cons entry rest ih =>
      apply ih
      rw [State.fact?_assign]
      by_cases isFirst : name = entry.1
      · exact .inr (if_pos isFirst)
      · rw [if_neg isFirst]
        exact h.imp_left fun mem => (List.mem_cons.mp mem).resolve_left isFirst

theorem Func.admits_entry (func : Func) (args : List Word) :
    func.entryState.Admits (func.entryStore args) := by
  intro name value assigned
  unfold Store.word? entryStore at assigned
  cases given : ((func.params.map (·.name)).zip args).lookup name with
  | some arg =>
      have isParam : name ∈ func.params.map (·.name) := by
        obtain ⟨before, after, split_, _⟩ := List.lookup_eq_some_iff.mp given
        have mem : (name, arg) ∈ (func.params.map (·.name)).zip args := by simp [split_]
        exact (List.of_mem_zip mem).1
      have declared : name ∈ func.typing.map (·.1) := by
        rw [Func.typing, List.map_append, List.map_map]
        exact List.mem_append_left _ isParam
      rw [entryState_eq]
      exact ⟨.top, State.fact?_foldl_assign (.inl declared), .top⟩
  | none =>
      -- a variable starts with an empty cell
      cases declared : func.typing.lookup name with
      | none =>
          rw [given, declared] at assigned
          cases assigned
      | some type =>
          rw [given, declared] at assigned
          cases type <;> cases assigned

theorem Expr.fact_allows {state : State} {store : Store} (admits : state.Admits store) {e : Expr}
    {value : Word} (evaluated : e.eval? store = some value) : (e.fact state).Allows value := by
  induction e generalizing value with
  | int node n =>
      obtain rfl := Option.some.inj evaluated
      exact .const
  | bool node b =>
      obtain rfl := Option.some.inj evaluated
      exact .const
  | var node name =>
      obtain ⟨known, isKnown, allows⟩ := admits name value evaluated
      simp only [fact, isKnown]
      cases allows with
      | const => exact .const
      | top => exact .top
  | index node name element _ => exact .top
  | unary node op operand ih =>
      obtain ⟨x, evalOperand, result⟩ := Option.bind_eq_some_iff.mp evaluated
      obtain rfl := Option.some.inj result
      exact op.fold_allows (ih evalOperand)
  | binary node op left right ihLeft ihRight =>
      obtain ⟨x, evalLeft, evaluated⟩ := Option.bind_eq_some_iff.mp evaluated
      obtain ⟨y, evalRight, evaluated⟩ := Option.bind_eq_some_iff.mp evaluated
      split at evaluated
      · cases evaluated
      · next defined =>
        obtain rfl := Option.some.inj evaluated
        exact BinOp.fold_allows (ihLeft evalLeft) (ihRight evalRight) defined

namespace FactTable

variable {table : FactTable} {program : Program}

/-- A table is right about an expression when it allows the values of all of its nodes. -/
def Right (table : FactTable) (visit : Expr × Store) : Prop :=
  ∀ part ∈ visit.1.parts, ∀ value, part.eval? visit.2 = some value →
    (table.get part.id).Allows value

theorem Knows.right {state : State} {store : Store} {e : Expr} (knows : table.Knows state e)
    (admits : state.Admits store) : table.Right (e, store) := by
  intro part mem value evaluated
  rw [knows part mem]
  exact Expr.fact_allows admits evaluated

private theorem right_args {state : State} {store : Store} {args : List Expr}
    (knows : ∀ arg ∈ args, table.Knows state arg) (admits : state.Admits store) :
    ∀ visit ∈ args.map (·, store), table.Right visit := by
  intro visit mem
  obtain ⟨arg, inArgs, rfl⟩ := List.mem_map.mp mem
  exact (knows arg inArgs).right admits

private theorem eq_of_fact_const {state : State} {store : Store} (admits : state.Admits store)
    {e : Expr}
    {known value : Word} (isConst : e.fact state = .const known)
    (evaluated : e.eval? store = some value) : value = known := by
  have allows := Expr.fact_allows admits evaluated
  rw [isConst] at allows
  cases allows
  rfl

/-- An execution that comes to evaluate some expressions and may end in a store agrees
    with a table and with the state behind it. -/
def Sound (table : FactTable) (last : State) (visits : List (Expr × Store))
    (ran : Option Store) : Prop :=
  (∀ visit ∈ visits, table.Right visit) ∧ ∀ store, ran = some store → last.Admits store

section Sound

variable {last : State} {visits : List (Expr × Store)} {ran : Option Store}

theorem Sound.visit {visit : Expr × Store} (right : table.Right visit)
    (sound : table.Sound last visits ran) : table.Sound last (visit :: visits) ran :=
  ⟨List.forall_mem_cons.mpr ⟨right, sound.1⟩, sound.2⟩

theorem Sound.visitAll {more : List (Expr × Store)} (right : ∀ visit ∈ more, table.Right visit)
    (sound : table.Sound last visits ran) : table.Sound last (more ++ visits) ran :=
  ⟨List.forall_mem_append.mpr ⟨right, sound.1⟩, sound.2⟩

theorem Sound.after {α : Type} {o : Option α} {later : α → List (Expr × Store)}
    {next : α → Option Store} (sound : ∀ a, o = some a → table.Sound last (later a) (next a)) :
    table.Sound last (o.elim [] later) (o.bind next) := by
  cases o with
  | none => exact ⟨nofun, nofun⟩
  | some a => exact sound a rfl

theorem Sound.write {o : Option Word} {put : Word → Option Store}
    {later : Store → List (Expr × Store)} {next : Store → Option Store}
    (sound : ∀ word store, o = some word → put word = some store →
      table.Sound last (later store) (next store)) :
    table.Sound last ((o.bind put).elim [] later) (o.bind fun word => (put word).bind next) := by
  cases o with
  | none => exact ⟨nofun, nofun⟩
  | some word => exact .after fun store assigned => sound word store rfl assigned

theorem Sound.andThen {state : State} {later : Store → List (Expr × Store)}
    {next : Store → Option Store} (first : table.Sound state visits ran)
    (second : ∀ store, state.Admits store → table.Sound last (later store) (next store)) :
    table.Sound last (visits ++ ran.elim [] later) (ran.bind next) :=
  .visitAll first.1 (.after fun store ended => second store (first.2 store ended))

/-- Behind the arguments of a call the function runs to its result, and its value is stored. -/
theorem Sound.call {fuel : Nat} (functions : ∀ func ∈ program, table.FitsFunc func)
    {state : State} {store : Store} {callee : String} {args : List Expr}
    (knows : ∀ arg ∈ args, table.Knows state arg) (admits : state.Admits store)
    (body : ∀ {func : Func} {values : List Word} {after : State},
      table.Fits func.body func.entryState after →
        table.Sound after (program.visits fuel func.body (func.entryStore values))
          (program.run fuel func.body (func.entryStore values)))
    {put : Word → Option Store} {later : Store → List (Expr × Store)}
    {next : Store → Option Store}
    (sound : ∀ word store, put word = some store → table.Sound last (later store) (next store)) :
    table.Sound last
      (args.map (·, store) ++ (program.entry? store callee args).elim [] fun (func, inner) =>
        program.visits fuel func.body inner ++ (program.run fuel func.body inner).elim []
          fun last => (func.result, last) :: ((func.result.eval? last).bind put).elim [] later)
      ((program.entry? store callee args).bind fun (func, inner) =>
        (program.run fuel func.body inner).bind fun last =>
          (func.result.eval? last).bind fun word => (put word).bind next) := by
  apply Sound.visitAll (right_args knows admits)
  apply Sound.after
  rintro ⟨func, inner⟩ entered
  obtain ⟨values, mem, rfl, _, _, rfl⟩ := Program.entry?_eq_some entered
  obtain ⟨after, fitsBody, knowsResult⟩ := functions func mem
  apply (body fitsBody).andThen
  intro inner admits
  apply Sound.visit (knowsResult.right admits)
  apply Sound.write
  exact fun word store _ written => sound word store written

/-- Behind a condition with a constant fact goes on what follows for that constant. -/
theorem Sound.decided {state : State} {store : Store} {cond : Expr} {value : Word}
    (knows : table.Knows state cond) (admits : state.Admits store)
    (isConst : cond.fact state = .const value) {later : Word → List (Expr × Store)}
    {next : Word → Option Store} (sound : table.Sound last (later value) (next value)) :
    table.Sound last ((cond, store) :: (cond.eval? store).elim [] later)
      ((cond.eval? store).bind next) := by
  apply Sound.visit (knows.right admits)
  apply Sound.after
  intro test evaluated
  rwa [eq_of_fact_const admits isConst evaluated]

/-- Behind a condition one of two executions follows. -/
theorem Sound.branch {state : State} {store : Store} {cond : Expr}
    (knows : table.Knows state cond) (admits : state.Admits store)
    {first second : List (Expr × Store)} {ran₁ ran₂ : Option Store}
    (taken : cond.eval? store = some 1 → table.Sound last first ran₁)
    (skipped : ∀ test, cond.eval? store = some test → test ≠ 1 → table.Sound last second ran₂) :
    table.Sound last
      ((cond, store) :: (cond.eval? store).elim [] fun test => if test = 1 then first else second)
      ((cond.eval? store).bind fun test => if test = 1 then ran₁ else ran₂) := by
  apply Sound.visit (knows.right admits)
  apply Sound.after
  intro test evaluated
  by_cases isTrue : test = 1
  · rw [if_pos isTrue, if_pos isTrue]
    exact taken (isTrue ▸ evaluated)
  · rw [if_neg isTrue, if_neg isTrue]
    exact skipped test evaluated isTrue

end Sound

/-- Where a table fits, every execution agrees with it. -/
theorem Fits.sound (functions : ∀ func ∈ program, table.FitsFunc func) {fuel : Nat}
    {stmts : List Stmt} {state last : State} {store : Store}
    (fits : table.Fits stmts state last) (admits : state.Admits store) :
    table.Sound last (program.visits fuel stmts store) (program.run fuel stmts store) := by
  induction fuel generalizing stmts state last store with
  | zero => exact ⟨nofun, nofun⟩
  | succ fuel ih =>
      cases fits with
      | nil =>
          apply And.intro nofun
          rintro _ ⟨⟩
          exact admits
      | assign knows fits =>
          rw [Program.visits, Program.run]
          apply Sound.visit (knows.right admits)
          apply Sound.write
          intro word store' evaluated put
          exact ih fits (admits.put put (Expr.fact_allows admits evaluated))
      | assignIndex knowsIndex knows fits =>
          rw [Program.visits, Program.run]
          apply Sound.visit (knowsIndex.right admits)
          apply Sound.visit (knows.right admits)
          apply Sound.after
          intro i _
          apply Sound.write
          intro word store' _ put
          exact ih fits (admits.putItem put)
      | call knows fits =>
          rw [Program.visits, Program.run]
          apply Sound.call functions knows admits fun body => ih body (Func.admits_entry _ _)
          exact fun word store' put => ih fits (admits.forget.put put .top)
      | callIndex knowsIndex knows fits =>
          rw [Program.visits, Program.run]
          apply Sound.visit (knowsIndex.right admits)
          apply Sound.after
          intro i _
          apply Sound.call functions knows admits fun body => ih body (Func.admits_entry _ _)
          exact fun word store' put => ih fits (admits.forget.putItem put)
      | whenTaken knows isTrue fitsBody fits =>
          rw [Program.visits, Program.run]
          apply Sound.decided knows admits isTrue
          rw [if_pos rfl, if_pos rfl]
          exact (ih fitsBody admits).andThen fun _ admits' => ih fits admits'
      | whenSkipped knows isConst isFalse fits =>
          rw [Program.visits, Program.run]
          apply Sound.decided knows admits isConst
          rw [if_neg isFalse, if_neg isFalse]
          exact ih fits admits
      | when knows fitsBody below le fits =>
          rw [Program.visits, Program.run]
          apply Sound.branch knows admits
          · intro _
            exact (ih fitsBody admits).andThen fun _ admits' => ih fits (admits'.mono below)
          · exact fun _ _ _ => ih fits (admits.mono le)
      | chooseFirst knows isTrue fitsBody fits =>
          rw [Program.visits, Program.run]
          apply Sound.decided knows admits isTrue
          rw [if_pos rfl, if_pos rfl]
          exact (ih fitsBody admits).andThen fun _ admits' => ih fits admits'
      | chooseSecond knows isConst isFalse fitsBody fits =>
          rw [Program.visits, Program.run]
          apply Sound.decided knows admits isConst
          rw [if_neg isFalse, if_neg isFalse]
          exact (ih fitsBody admits).andThen fun _ admits' => ih fits admits'
      | choose knows fitsThens fitsElses belowFirst belowSecond fits =>
          rw [Program.visits, Program.run]
          apply Sound.visit (knows.right admits)
          apply Sound.after
          intro test _
          by_cases isTrue : test = 1
          · rw [if_pos isTrue, if_pos isTrue]
            apply (ih fitsThens admits).andThen
            exact fun store' admits' => ih fits (admits'.mono belowFirst)
          · rw [if_neg isTrue, if_neg isTrue]
            apply (ih fitsElses admits).andThen
            exact fun store' admits' => ih fits (admits'.mono belowSecond)
      | loopSkipped knows isConst isFalse fits =>
          rw [Program.visits, Program.run]
          apply Sound.decided knows admits isConst
          rw [if_neg isFalse, if_neg isFalse]
          exact ih fits admits
      | @loop _ _ _ _ stable _ _ le knows fitsBody below fits =>
          -- the stable state is the invariant: each pass leads back to it
          have inside := admits.mono le
          have again := FactTable.Fits.loop (State.le_refl stable) knows fitsBody below fits
          rw [Program.visits, Program.run]
          apply Sound.branch knows inside
          · intro _
            exact (ih fitsBody inside).andThen fun _ admits' => ih again (admits'.mono below)
          · exact fun _ _ _ => ih fits inside
      | block fitsBody fits =>
          rw [Program.visits, Program.run]
          apply (ih fitsBody admits).andThen
          exact fun store' admits' => ih fits admits'

/-- A table that fits the functions of a program is right about all that a call of one of
    them comes to evaluate. -/
theorem right_of_fitsFunc (functions : ∀ func ∈ program, table.FitsFunc func) {func : Func}
    (mem : func ∈ program) (fuel : Nat) (args : List Word) :
    ∀ visit ∈ program.activity fuel func args, table.Right visit := by
  obtain ⟨last, fits, knows⟩ := functions func mem
  have body : table.Sound last (program.visits fuel func.body (func.entryStore args))
      (program.run fuel func.body (func.entryStore args)) :=
    fits.sound functions (func.admits_entry args)
  rw [Program.activity, List.forall_mem_append]
  apply And.intro body.1
  cases ran : program.run fuel func.body (func.entryStore args) with
  | none => exact nofun
  | some store =>
      intro visit isResult
      obtain rfl := List.mem_singleton.mp isResult
      exact knows.right (body.2 store ran)

end FactTable

namespace Program

variable {program : Program}

/-- The scopes of functions change nothing about what a walk finds. -/
theorem flow_withScopes (program : Program) :
    Program.flow program.withScopes = Program.flow program := by
  have walks : ∀ (funcs : List Func) (scope : Nat),
      Program.walk (Func.scopedFrom funcs scope) = Program.walk funcs := by
    intro funcs
    induction funcs with
    | nil => exact fun _ => rfl
    | cons func rest ih =>
        intro scope
        simp only [Func.scopedFrom_cons, Program.walk, ih]
        rfl
  rw [Program.flow, withScopes, walks, Program.flow]

theorem ids_withScopes (program : Program) : program.withScopes.ids = program.ids := by
  have exprs : ∀ (funcs : List Func) (scope : Nat),
      (Func.scopedFrom funcs scope).flatMap Func.exprs = funcs.flatMap Func.exprs := by
    intro funcs
    induction funcs with
    | nil => exact fun _ => rfl
    | cons func rest ih =>
        intro scope
        rw [Func.scopedFrom_cons, List.flatMap_cons, List.flatMap_cons, ih]
        rfl
  rw [Program.ids, withScopes, exprs, Program.ids]

/-- The nodes of a checked program that was read have different ids. -/
theorem ids_nodup_of_check {text : String} (read : (readProgram text).result = .ok program)
    {checked : Program} {checker : Checker} (passed : program.check = .ok checked checker) :
    checked.ids.Nodup := by
  obtain ⟨_, rfl, _, _⟩ := check_eq_ok passed
  rw [ids_withScopes]
  exact ids_nodup read

/-- The table of a program whose nodes have different ids is right about all that a call
    comes to evaluate. -/
theorem right_flow (nodup : program.ids.Nodup) {func : Func} (mem : func ∈ program) (fuel : Nat)
    (args : List Word) : ∀ visit ∈ program.activity fuel func args,
      (Program.flow program).table.Right visit :=
  FactTable.right_of_fitsFunc (fun _ => fitsFunc_flow nodup) mem fuel args

/-- In every execution of a function of a checked program, an expression that the table
    takes for a constant has that value whenever it is evaluated. -/
theorem flow_const_sound {text : String} (read : (readProgram text).result = .ok program)
    {checked : Program} {checker : Checker} (passed : program.check = .ok checked checker)
    {func : Func} (mem : func ∈ checked) {fuel : Nat} {args : List Word} {e : Expr} {store : Store}
    (visited : (e, store) ∈ checked.activity fuel func args) {part : Expr} (inside : part ∈ e.parts)
    {value known : Word} (evaluated : part.eval? store = some value)
    (isConst : (Program.flow checked).table.get part.id = .const known) : value = known := by
  obtain ⟨_, rfl, _, _⟩ := Program.check_eq_ok passed
  have nodup : program.withScopes.ids.Nodup := program.ids_withScopes ▸ Program.ids_nodup read
  have allows := right_flow nodup mem fuel args _ visited part inside value evaluated
  rw [isConst] at allows
  cases allows
  rfl

/-- A loop that assigns one variable and leaves another one alone. -/
def countingText : String :=
  "function Main(n: int): int \x7b
     var k, step: int;
     k = 0;
     step = 2;
     while (k < n) \x7b k = k + step; \x7d
     return k; \x7d"

/-- The table takes an expression that a call evaluates for its value. -/
def countingCall (checked : Program) : Bool :=
  checked.any fun func => (checked.activity 20 func [5]).any fun visit =>
    visit.1.parts.any fun part => part.id == 6 && part.eval? visit.2 == some 2 &&
      (Program.flow checked).table.get part.id == .const 2

theorem flow_const_sound_counting : ∃ program checked checker func e store part value known,
    (readProgram countingText).result = .ok program ∧ program.check = .ok checked checker ∧
      func ∈ checked ∧ (e, store) ∈ checked.activity 20 func [5] ∧ part ∈ e.parts ∧
        part.eval? store = some value ∧
          (Program.flow checked).table.get part.id = .const known ∧ value = known := by
  obtain ⟨program, read, found⟩ := exists_ok_of_any (x := (readProgram countingText).result)
    (p := fun program => (checkProgram program).result.toOption.any fun checked =>
      countingCall checked.1) (by decide +kernel)
  cases passed : program.check with
  | error error checker =>
      rw [checkProgram, passed] at found
      cases found
  | ok checked checker =>
      rw [checkProgram, passed] at found
      have found : countingCall checked = true := found
      simp only [countingCall, List.any_eq_true, Bool.and_eq_true, beq_iff_eq] at found
      obtain ⟨func, mem, ⟨e, store⟩, visited, part, inside, ⟨_, evaluated⟩, isConst⟩ := found
      exact ⟨program, checked, checker, func, e, store, part, 2, 2, read, passed, mem, visited,
        inside, evaluated, isConst,
        flow_const_sound read passed mem visited inside evaluated isConst⟩

end Program

end Wordlang
