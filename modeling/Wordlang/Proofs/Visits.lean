import Wordlang.Asm.Live
import Wordlang.Proofs.Acceptance

/-! # Visits of code generation

Code generation visits the live statements: it does not look at a body that is not live, and
it comes to each live statement and to no other one. Wherever it comes to a statement, the code
of the statement stands behind the code in front of it.
-/

namespace Wordlang

@[simp] theorem Stmt.own_live (known : Expr → Option Word) (stmt : Stmt) :
    (stmt.live known).own = stmt.own := by
  cases stmt <;> rfl

mutual

theorem Stmt.mem_exprs_iff (stmt : Stmt) (e : Expr) :
    e ∈ stmt.exprs ↔ ∃ part ∈ stmt.within, e ∈ part.own := by
  cases stmt with
  | assign | assignIndex | call | callIndex => simp [exprs, within, own]
  | when cond body | loop cond body | block body => simp [exprs, within, own, mem_exprsAll_iff body]
  | choose cond thens elses =>
      simp [exprs, within, own, mem_exprsAll_iff thens, mem_exprsAll_iff elses, or_and_right,
        exists_or]

theorem Stmt.mem_exprsAll_iff (stmts : List Stmt) (e : Expr) :
    e ∈ exprsAll stmts ↔ ∃ part ∈ withinAll stmts, e ∈ part.own := by
  cases stmts with
  | nil => simp [exprsAll, withinAll]
  | cons stmt rest =>
      simp [exprsAll, withinAll, mem_exprs_iff stmt, mem_exprsAll_iff rest, or_and_right, exists_or]

end

theorem Stmt.sizeOf_body_lt {stmt : Stmt} {body : List Stmt} (mem : body ∈ stmt.bodies) :
    sizeOf body < sizeOf stmt := by
  cases stmt with
  | assign | assignIndex | call | callIndex => exact absurd mem nofun
  | when cond inner | loop cond inner | block inner =>
      obtain rfl := List.mem_singleton.mp mem
      simp
  | choose cond thens elses =>
      obtain rfl | rfl := List.mem_pair.mp mem
      · simp only [choose.sizeOf_spec]
        omega
      · simp only [choose.sizeOf_spec]
        omega

theorem Stmt.mem_within (stmt : Stmt) : stmt ∈ stmt.within := by
  cases stmt <;> simp [within]

theorem Stmt.eq_or_mem_body {stmt part : Stmt} (mem : part ∈ stmt.within) :
    part = stmt ∨ ∃ body ∈ stmt.bodies, part ∈ withinAll body := by
  cases stmt with
  | assign | assignIndex | call | callIndex => exact .inl (List.mem_singleton.mp mem)
  | when cond inner | loop cond inner | block inner =>
      rw [within, List.mem_cons] at mem
      exact mem.imp_right fun mem => ⟨inner, List.mem_singleton_self _, mem⟩
  | choose cond thens elses =>
      rw [within, List.mem_cons, List.mem_append] at mem
      obtain same | mem | mem := mem
      · exact .inl same
      · exact .inr ⟨thens, by simp [bodies], mem⟩
      · exact .inr ⟨elses, by simp [bodies], mem⟩

theorem Stmt.withinAll_subset_of_mem {stmt : Stmt} {body : List Stmt} (mem : body ∈ stmt.bodies) :
    withinAll body ⊆ stmt.within := by
  cases stmt with
  | assign | assignIndex | call | callIndex => exact absurd mem nofun
  | when cond inner | loop cond inner | block inner =>
      obtain rfl := List.mem_singleton.mp mem
      exact List.subset_cons_self _ _
  | choose cond thens elses =>
      obtain rfl | rfl := List.mem_pair.mp mem
      · exact List.subset_cons_of_subset _ (List.subset_append_left _ _)
      · exact List.subset_cons_of_subset _ (List.subset_append_right _ _)

theorem Stmt.mem_withinAll_ite {c : Prop} [Decidable c] {stmts : List Stmt} {part : Stmt}
    (mem : part ∈ withinAll (if c then stmts else [])) : c ∧ part ∈ withinAll stmts := by
  by_cases holds : c
  · exact ⟨holds, by rwa [if_pos holds] at mem⟩
  · rw [if_neg holds] at mem
    exact absurd mem nofun

namespace Asm

variable {ctx : Context} {options : Options} {facts : FactTable}

mutual

/-- Code generation does not look at a body that is not live. -/
theorem stmtCode_live (ctx : Context) (stmt : Stmt) :
    stmtCode ctx (stmt.live ctx.known) = stmtCode ctx stmt := by
  cases stmt with
  | assign | assignIndex | call | callIndex => rfl
  | when cond body =>
      rw [Stmt.live, stmtCode, stmtCode]
      cases known : ctx.known cond with
      | none => simp only [Option.all_none, if_true, stmtsCode_liveAll ctx body]
      | some value =>
          by_cases isTrue : value = 1
          · simp only [isTrue, Option.all_some, beq_self_eq_true, if_true,
              stmtsCode_liveAll ctx body]
          · simp only [if_neg isTrue]
  | choose cond thens elses =>
      rw [Stmt.live, stmtCode, stmtCode]
      cases known : ctx.known cond with
      | none =>
          simp only [Option.all_none, if_true, stmtsCode_liveAll ctx thens,
            stmtsCode_liveAll ctx elses]
      | some value =>
          by_cases isTrue : value = 1
          · simp only [isTrue, Option.all_some, beq_self_eq_true, if_true,
              stmtsCode_liveAll ctx thens]
          · simp only [if_neg isTrue, Option.all_some, bne_iff_ne.mpr isTrue, if_true,
              stmtsCode_liveAll ctx elses]
  | loop cond body =>
      rw [Stmt.live, stmtCode, stmtCode]
      cases known : ctx.known cond with
      | none => simp only [Option.all_none, if_true, stmtsCode_liveAll ctx body]
      | some value =>
          by_cases isTrue : value = 1
          · simp only [isTrue, Option.all_some, beq_self_eq_true, if_true,
              stmtsCode_liveAll ctx body]
          · simp only [if_neg isTrue]
  | block body => rw [Stmt.live, stmtCode, stmtCode, stmtsCode_liveAll ctx body]

theorem stmtsCode_liveAll (ctx : Context) (stmts : List Stmt) :
    stmtsCode ctx (Stmt.liveAll ctx.known stmts) = stmtsCode ctx stmts := by
  cases stmts with
  | nil => rfl
  | cons stmt rest =>
      rw [Stmt.liveAll, stmtsCode, stmtsCode, stmtCode_live ctx stmt, stmtsCode_liveAll ctx rest]

end

private theorem bodies_live (ctx : Context) (stmt : Stmt) : ctx.bodies (stmt.live ctx.known) =
    (ctx.bodies stmt).map fun (before, body) => (before, Stmt.liveAll ctx.known body) := by
  cases stmt with
  | assign | assignIndex | call | callIndex | block => rfl
  | when cond body | loop cond body =>
      rw [Stmt.live, Context.bodies, Context.bodies]
      cases known : ctx.known cond with
      | none => simp only [Option.all_none, if_true, List.map_cons, List.map_nil]
      | some value =>
          by_cases isTrue : value = 1
          · simp only [isTrue, Option.all_some, beq_self_eq_true, if_true, List.map_cons,
              List.map_nil]
          · simp only [if_neg isTrue, List.map_nil]
  | choose cond thens elses =>
      rw [Stmt.live, Context.bodies, Context.bodies]
      cases known : ctx.known cond with
      | none =>
          simp only [Option.all_none, if_true, stmtsCode_liveAll ctx thens, List.map_cons,
            List.map_nil]
      | some value =>
          by_cases isTrue : value = 1
          · simp only [isTrue, Option.all_some, beq_self_eq_true, if_true, List.map_cons,
              List.map_nil]
          · simp only [if_neg isTrue, Option.all_some, bne_iff_ne.mpr isTrue, if_true,
              List.map_cons, List.map_nil]

section Bodies

variable {stmt part : Stmt} {cond : Expr} {before : Gen Code} {body thens elses : List Stmt}
  {n : Nat} {code : Code} {n' : Nat}

theorem mem_bodies (inBodies : (before, body) ∈ ctx.bodies stmt) : body ∈ stmt.bodies := by
  cases stmt with
  | assign | assignIndex | call | callIndex => exact absurd inBodies List.not_mem_nil
  | when cond inner | loop cond inner =>
      rw [Context.bodies] at inBodies
      split at inBodies
      · split at inBodies
        · exact List.mem_singleton.mpr (Prod.mk.inj (List.mem_singleton.mp inBodies)).2
        · exact absurd inBodies List.not_mem_nil
      · exact List.mem_singleton.mpr (Prod.mk.inj (List.mem_singleton.mp inBodies)).2
  | choose cond thens elses =>
      rw [Context.bodies] at inBodies
      split at inBodies
      · split at inBodies
        · exact List.mem_pair.mpr (.inl (Prod.mk.inj (List.mem_singleton.mp inBodies)).2)
        · exact List.mem_pair.mpr (.inr (Prod.mk.inj (List.mem_singleton.mp inBodies)).2)
      · exact List.mem_pair.mpr ((List.mem_pair.mp inBodies).imp
          (fun same => (Prod.mk.inj same).2) fun same => (Prod.mk.inj same).2)
  | block inner => exact List.mem_singleton.mpr (Prod.mk.inj (List.mem_singleton.mp inBodies)).2

/-- The code of a body that code generation goes into stands behind the code in front of it. -/
def Goes (ctx : Context) (before : Gen Code) (body : List Stmt) (n : Nat) (code : Code) : Prop :=
  ∃ first n₁ inner n₂, before.Makes n first n₁ ∧ (stmtsCode ctx body).Makes n₁ inner n₂ ∧
    first ++ inner <+: code

private theorem goes_behind (front : Code) (made : (stmtsCode ctx body).Makes n code n') :
    Goes ctx (pure front) body n (front ++ code) :=
  ⟨front, n, code, n', (Gen.makes_pure _ _ _ _).mpr ⟨rfl, rfl⟩, made, List.prefix_rfl⟩

private theorem goes_when (inBodies : (before, body) ∈ ctx.bodies (.when cond thens))
    (made : (stmtCode ctx (.when cond thens)).Makes n code n') : Goes ctx before body n code := by
  rw [Context.bodies] at inBodies
  rw [stmtCode] at made
  cases known : ctx.known cond with
  | none =>
      simp only [known, List.mem_singleton, Prod.mk.injEq] at inBodies
      obtain ⟨rfl, rfl⟩ := inBodies
      simp only [known, Gen.makes_bind, Gen.makes_pure] at made
      obtain ⟨number, _, isNew, test, _, tested, inner, _, made, rfl, -⟩ := made
      refine ⟨_, _, inner, _, ?_, made, List.prefix_append _ _⟩
      simp only [Gen.makes_bind, Gen.makes_pure]
      exact ⟨number, _, isNew, test, _, tested, rfl, rfl⟩
  | some value =>
      by_cases isTrue : value = 1
      · simp only [known, if_pos isTrue, List.mem_singleton, Prod.mk.injEq] at inBodies
        obtain ⟨rfl, rfl⟩ := inBodies
        simp only [known, if_pos isTrue, Gen.makes_bind, Gen.makes_pure] at made
        obtain ⟨inner, _, made, rfl, -⟩ := made
        exact goes_behind _ made
      · simp only [known, if_neg isTrue, List.not_mem_nil] at inBodies

private theorem goes_loop (inBodies : (before, body) ∈ ctx.bodies (.loop cond thens))
    (made : (stmtCode ctx (.loop cond thens)).Makes n code n') : Goes ctx before body n code := by
  rw [Context.bodies] at inBodies
  rw [stmtCode] at made
  cases known : ctx.known cond with
  | none =>
      simp only [known, List.mem_singleton, Prod.mk.injEq] at inBodies
      obtain ⟨rfl, rfl⟩ := inBodies
      simp only [known, Gen.makes_bind, Gen.makes_pure] at made
      obtain ⟨number, _, isNew, test, _, tested, inner, _, made, rfl, -⟩ := made
      refine ⟨_, _, inner, _, ?_, made, List.prefix_append _ _⟩
      simp only [Gen.makes_bind, Gen.makes_pure]
      exact ⟨number, _, isNew, test, _, tested, rfl, rfl⟩
  | some value =>
      by_cases isTrue : value = 1
      · simp only [known, if_pos isTrue, List.mem_singleton, Prod.mk.injEq] at inBodies
        obtain ⟨rfl, rfl⟩ := inBodies
        simp only [known, if_pos isTrue, Gen.makes_bind, Gen.makes_pure] at made
        obtain ⟨number, _, isNew, inner, _, made, rfl, -⟩ := made
        refine ⟨_, _, inner, _, ?_, made, List.prefix_append _ _⟩
        simp only [Gen.makes_bind, Gen.makes_pure]
        exact ⟨number, _, isNew, rfl, rfl⟩
      · simp only [known, if_neg isTrue, List.not_mem_nil] at inBodies

private theorem goes_choose (inBodies : (before, body) ∈ ctx.bodies (.choose cond thens elses))
    (made : (stmtCode ctx (.choose cond thens elses)).Makes n code n') :
    Goes ctx before body n code := by
  rw [Context.bodies] at inBodies
  rw [stmtCode] at made
  cases known : ctx.known cond with
  | none =>
      simp only [known, List.mem_pair, Prod.mk.injEq] at inBodies
      simp only [known, Gen.makes_bind, Gen.makes_pure] at made
      obtain ⟨number, _, isNew, done, _, isNew', test, _, tested, first, _, madeFirst, second, _,
        madeSecond, rfl, -⟩ := made
      obtain ⟨rfl, rfl⟩ | ⟨rfl, rfl⟩ := inBodies
      · refine ⟨test ++ [.instr (.jump .notEqual (.otherwise number))], _, first, _, ?_,
          madeFirst, ?_⟩
        · simp only [Gen.makes_bind, Gen.makes_pure]
          exact ⟨number, _, isNew, done, _, isNew', test, _, tested, rfl, rfl⟩
        · simp [List.append_assoc]
      · refine ⟨_, _, second, _, ?_, madeSecond, List.prefix_append _ _⟩
        simp only [Gen.makes_bind, Gen.makes_pure]
        exact ⟨number, _, isNew, done, _, isNew', test, _, tested, first, _, madeFirst, rfl, rfl⟩
  | some value =>
      by_cases isTrue : value = 1
      · simp only [known, if_pos isTrue, List.mem_singleton, Prod.mk.injEq] at inBodies
        obtain ⟨rfl, rfl⟩ := inBodies
        simp only [known, if_pos isTrue, Gen.makes_bind, Gen.makes_pure] at made
        obtain ⟨inner, _, made, rfl, -⟩ := made
        exact goes_behind _ made
      · simp only [known, if_neg isTrue, List.mem_singleton, Prod.mk.injEq] at inBodies
        obtain ⟨rfl, rfl⟩ := inBodies
        simp only [known, if_neg isTrue, Gen.makes_bind, Gen.makes_pure] at made
        obtain ⟨inner, _, made, rfl, -⟩ := made
        exact goes_behind _ made

theorem goes_of_bodies (inBodies : (before, body) ∈ ctx.bodies stmt)
    (made : (stmtCode ctx stmt).Makes n code n') : Goes ctx before body n code := by
  cases stmt with
  | assign | assignIndex | call | callIndex => exact absurd inBodies nofun
  | when cond inner => exact goes_when inBodies made
  | choose cond thens elses => exact goes_choose inBodies made
  | loop cond inner => exact goes_loop inBodies made
  | block inner =>
      simp only [Context.bodies, List.mem_singleton, Prod.mk.injEq] at inBodies
      obtain ⟨rfl, rfl⟩ := inBodies
      rw [stmtCode] at made
      exact goes_behind [] made

end Bodies

section Statements

variable {part : Stmt} {k : Nat} {stmts : List Stmt} {n : Nat} {code front : Code} {n' : Nat}

theorem Context.HasCode.mono {code' : Code} (has : ctx.HasCode code front k part)
    (more : code <+: code') : ctx.HasCode code' front k part := by
  obtain ⟨inner, k', made, stands⟩ := has
  exact ⟨inner, k', made, stands.trans more⟩

theorem Context.HasCode.behind (has : ctx.HasCode code front k part) (first : Code) :
    ctx.HasCode (first ++ code) (first ++ front) k part := by
  obtain ⟨inner, k', made, stands⟩ := has
  exact ⟨inner, k', made, by simpa using stands⟩

theorem Context.Comes.hasCode (comes : ctx.Comes part k stmts n front)
    (made : (stmtsCode ctx stmts).Makes n code n') : ctx.HasCode code front k part := by
  induction comes generalizing code n' with
  | here =>
      simp only [stmtsCode, Gen.makes_bind, Gen.makes_pure] at made
      obtain ⟨first, n₁, made, later, _, _, rfl, _⟩ := made
      exact ⟨first, n₁, made, List.prefix_append _ _⟩
  | behind isFirst _ ih =>
      simp only [stmtsCode, Gen.makes_bind, Gen.makes_pure] at made
      obtain ⟨first, n₁, made, later, _, madeLater, rfl, _⟩ := made
      obtain ⟨rfl, rfl⟩ := Gen.Makes.unique isFirst made
      exact (ih madeLater).behind _
  | inside inBodies isBefore _ ih =>
      simp only [stmtsCode, Gen.makes_bind, Gen.makes_pure] at made
      obtain ⟨own, _, made, later, _, _, rfl, _⟩ := made
      obtain ⟨first, n₁, inner, _, madeBefore, made, stands⟩ := goes_of_bodies inBodies made
      obtain ⟨rfl, rfl⟩ := Gen.Makes.unique isBefore madeBefore
      exact ((ih made).behind _).mono (stands.trans (List.prefix_append _ _))

theorem Context.Comes.live (comes : ctx.Comes part k stmts n front) :
    ctx.Comes (part.live ctx.known) k (Stmt.liveAll ctx.known stmts) n front := by
  induction comes with
  | here => exact .here
  | behind isFirst _ ih => exact .behind ((stmtCode_live ctx _).symm ▸ isFirst) ih
  | inside inBodies isBefore _ ih =>
      refine .inside ?_ isBefore ih
      rw [bodies_live]
      exact List.mem_map_of_mem inBodies

theorem Context.Comes.mem_withinAll (comes : ctx.Comes part k stmts n front) :
    part ∈ Stmt.withinAll stmts := by
  induction comes with
  | here => exact List.mem_append_left _ part.mem_within
  | behind _ _ ih => exact List.mem_append_right _ ih
  | inside inBodies _ _ ih =>
      exact List.mem_append_left _ (Stmt.withinAll_subset_of_mem (mem_bodies inBodies) ih)

private theorem exists_bodies_of_mem_live {stmt : Stmt} {body : List Stmt}
    (isBody : body ∈ (stmt.live ctx.known).bodies) (mem : part ∈ Stmt.withinAll body) :
    ∃ entry ∈ ctx.bodies stmt, part ∈ Stmt.withinAll (Stmt.liveAll ctx.known entry.2) := by
  cases stmt with
  | assign | assignIndex | call | callIndex => exact absurd isBody nofun
  | when cond inner | loop cond inner =>
      obtain rfl := List.mem_singleton.mp isBody
      obtain ⟨isOpen, mem⟩ := Stmt.mem_withinAll_ite mem
      cases known : ctx.known cond with
      | none => simpa [Context.bodies, known] using mem
      | some value =>
          obtain rfl : value = 1 := by simpa [known] using isOpen
          simpa [Context.bodies, known] using mem
  | choose cond thens elses =>
      obtain rfl | rfl := List.mem_pair.mp isBody
      · obtain ⟨isOpen, mem⟩ := Stmt.mem_withinAll_ite mem
        cases known : ctx.known cond with
        | none => exact ⟨_, by simp only [Context.bodies, known]; exact List.mem_cons_self, mem⟩
        | some value =>
            obtain rfl : value = 1 := by simpa [known] using isOpen
            simpa [Context.bodies, known] using mem
      · obtain ⟨isOpen, mem⟩ := Stmt.mem_withinAll_ite mem
        cases known : ctx.known cond with
        | none =>
            simp only [Context.bodies, known]
            exact ⟨_, List.mem_cons_of_mem _ (List.mem_singleton_self _), mem⟩
        | some value =>
            have isFalse : value ≠ 1 := by simpa [known] using isOpen
            simp only [Context.bodies, known, if_neg isFalse]
            exact ⟨_, List.mem_singleton_self _, mem⟩
  | block inner =>
      obtain rfl := List.mem_singleton.mp isBody
      exact ⟨_, List.mem_singleton_self _, mem⟩

theorem exists_comes_of_live {stmts : List Stmt} {n : Nat} {code : Code} {n' : Nat}
    (made : (stmtsCode ctx stmts).Makes n code n') :
    ∀ part ∈ Stmt.withinAll (Stmt.liveAll ctx.known stmts), ∃ stmt k front,
      part = stmt.live ctx.known ∧ ctx.Comes stmt k stmts n front := by
  cases stmts with
  | nil => exact nofun
  | cons stmt rest =>
      simp only [stmtsCode, Gen.makes_bind, Gen.makes_pure] at made
      obtain ⟨own, n₁, madeOwn, later, _, madeLater, rfl, _⟩ := made
      refine List.forall_mem_append.mpr ⟨fun part mem => ?_, fun part mem => ?_⟩
      · obtain rfl | ⟨body, isBody, mem⟩ := Stmt.eq_or_mem_body mem
        · exact ⟨stmt, n, [], rfl, .here⟩
        -- a live body is one that code generation goes into, behind what it has made before
        · obtain ⟨⟨before, body⟩, inBodies, mem⟩ := exists_bodies_of_mem_live isBody mem
          obtain ⟨first, _, inner, _, isBefore, made, _⟩ := goes_of_bodies inBodies madeOwn
          have smaller : sizeOf body < sizeOf (stmt :: rest) :=
            (Stmt.sizeOf_body_lt (mem_bodies inBodies)).trans (by rw [List.cons.sizeOf_spec]; omega)
          obtain ⟨found, k, front, same, comes⟩ := exists_comes_of_live made part mem
          exact ⟨found, k, _, same, .inside inBodies isBefore comes⟩
      · obtain ⟨found, k, front, same, comes⟩ := exists_comes_of_live madeLater part mem
        exact ⟨found, k, _, same, .behind madeOwn comes⟩
termination_by sizeOf stmts

end Statements

section Programs

variable {symbols : Table} {scope k : Nat} {part : Stmt} {funcs : List Func} {n : Nat}
  {code front : Code} {n' : Nat}

theorem known_eq_facts (folds : ctx.options.folding = true) : ctx.known = ctx.facts.known := by
  funext e
  rw [Context.known, if_pos folds, FactTable.known]

theorem funcCode_live (folds : options.folding = true) (func : Func) :
    funcCode options facts symbols (func.live facts.known) =
      funcCode options facts symbols func := by
  unfold funcCode Func.live
  cases func.scope with
  | none => rfl
  | some scope =>
      have body := stmtsCode_liveAll (.ofScope options facts symbols scope) func.body
      rw [known_eq_facts folds] at body
      simp only [bodyCode]
      exact congrArg (· >>= _) body

theorem funcsCode_live (folds : options.folding = true) (funcs : List Func) :
    funcsCode options facts symbols (funcs.map (Func.live facts.known)) =
      funcsCode options facts symbols funcs := by
  induction funcs with
  | nil => rfl
  | cons func rest ih => rw [List.map_cons, funcsCode, funcsCode, funcCode_live folds, ih]

theorem exists_body_of_funcCode {func : Func}
    (made : (funcCode options facts symbols func).Makes n code n') : ∃ scope body n₁,
      func.scope = some scope ∧
      (stmtsCode (.ofScope options facts symbols scope) func.body).Makes n body n₁ ∧
      prologue (.ofScope options facts symbols scope) func.name
        (symbols.scopeSize scope - func.params.length * wordSize) func.params.length ++ body <+:
          code := by
  unfold funcCode at made
  split at made
  · exact absurd made (Gen.makes_throw _ _ _ _)
  · next scope known =>
    simp only [bodyCode, Gen.makes_bind, Gen.makes_pure] at made
    obtain ⟨body, n₁, madeBody, result, _, _, rfl, _⟩ := made
    exact ⟨scope, body, n₁, known, madeBody, by simp [Context.ofScope, List.append_assoc]⟩

theorem Comes.hasCode (comes : Comes options facts symbols scope part k funcs n front)
    (made : (funcsCode options facts symbols funcs).Makes n code n') :
    (Context.ofScope options facts symbols scope).HasCode code front k part := by
  induction comes generalizing code n' with
  | here known comes =>
      simp only [funcsCode, Gen.makes_bind, Gen.makes_pure] at made
      obtain ⟨first, _, made, later, _, _, rfl, _⟩ := made
      obtain ⟨scope', body, n₁, known', made, stands⟩ := exists_body_of_funcCode made
      obtain rfl := Option.some.inj (known.symm.trans known')
      exact ((comes.hasCode made).behind _).mono (stands.trans (List.prefix_append _ _))
  | behind isFirst _ ih =>
      simp only [funcsCode, Gen.makes_bind, Gen.makes_pure] at made
      obtain ⟨first, n₁, made, later, _, madeLater, rfl, _⟩ := made
      obtain ⟨rfl, rfl⟩ := Gen.Makes.unique isFirst made
      exact (ih madeLater).behind _

theorem Comes.live (folds : options.folding = true)
    (comes : Comes options facts symbols scope part k funcs n front) :
    Comes options facts symbols scope (part.live facts.known) k
      (funcs.map (Func.live facts.known)) n front := by
  induction comes with
  | @here func _ _ _ known comes =>
      have inBody := comes.live
      rw [known_eq_facts folds] at inBody
      have known' : (func.live facts.known).scope = some scope := known
      exact .here known' inBody
  | behind isFirst _ ih => exact .behind ((funcCode_live folds _).symm ▸ isFirst) ih

theorem Comes.exists_mem (comes : Comes options facts symbols scope part k funcs n front) :
    ∃ func ∈ funcs, ∃ n front,
      (Context.ofScope options facts symbols scope).Comes part k func.body n front := by
  induction comes with
  | here _ comes => exact ⟨_, List.mem_cons_self, _, _, comes⟩
  | behind _ _ ih =>
      obtain ⟨func, mem, inside⟩ := ih
      exact ⟨func, List.mem_cons_of_mem _ mem, inside⟩

private theorem exists_comes_of_mem (folds : options.folding = true)
    (made : (funcsCode options facts symbols funcs).Makes n code n') :
    ∀ func ∈ funcs, ∀ part ∈ Stmt.withinAll (Stmt.liveAll facts.known func.body),
      ∃ scope stmt k front, func.scope = some scope ∧ part = stmt.live facts.known ∧
        Comes options facts symbols scope stmt k funcs n front := by
  induction funcs generalizing n code n' with
  | nil => exact nofun
  | cons func rest ih =>
      simp only [funcsCode, Gen.makes_bind, Gen.makes_pure] at made
      obtain ⟨first, n₁, madeFirst, later, _, madeLater, rfl, _⟩ := made
      refine List.forall_mem_cons.mpr ⟨fun part mem => ?_, fun func mem part inside => ?_⟩
      · obtain ⟨scope, body, _, known, made, _⟩ := exists_body_of_funcCode madeFirst
        have comesTo := exists_comes_of_live made
        rw [known_eq_facts folds] at comesTo
        obtain ⟨stmt, k, front, same, comes⟩ := comesTo part mem
        exact ⟨scope, stmt, k, _, known, same, .here known comes⟩
      · obtain ⟨scope, stmt, k, front, known, same, comes⟩ := ih madeLater func mem part inside
        exact ⟨scope, stmt, k, _, known, same, .behind madeFirst comes⟩

/-- Code generation visits the live statements. -/
theorem visits_live (folds : options.folding = true) {program : Program} {code : Code}
    {labels : Nat} (made : generate options facts symbols program = .ok (code, labels)) :
    Visits options facts symbols program (program.live facts.known) := by
  have same : generate options facts symbols (program.live facts.known) =
      generate options facts symbols program := by
    rw [generate, generate, Program.live, funcsCode_live folds]
  obtain ⟨body, rfl, ran⟩ := generate_makes made
  have comesTo := exists_comes_of_mem folds ran
  refine ⟨same, ⟨_, labels, same.trans made, ?each⟩, fun e => ⟨?inProgram, ?inVisited⟩⟩
  case each =>
    rw [← funcsCode_live folds] at ran
    refine List.forall_mem_map.mpr fun func mem part inside => ?_
    obtain ⟨scope, stmt, k, front, known, rfl, comes⟩ := comesTo func mem part inside
    have here := comes.live folds
    exact ⟨scope, k, front, known, here, (here.hasCode ran).behind header⟩
  case inProgram =>
    rintro ⟨_, isLive, inside⟩
    obtain ⟨func, mem, rfl⟩ := List.exists_of_mem_map isLive
    rcases List.mem_append.mp inside with inside | inside
    · obtain ⟨part, within, own⟩ := (Stmt.mem_exprsAll_iff _ _).mp inside
      obtain ⟨scope, stmt, k, front, _, rfl, comes⟩ := comesTo func mem part within
      exact .inl ⟨scope, stmt, k, front, comes, Stmt.own_live _ stmt ▸ own⟩
    · exact .inr ⟨func, mem, List.mem_singleton.mp inside⟩
  case inVisited =>
    rintro (⟨scope, stmt, k, front, comes, own⟩ | ⟨func, mem, rfl⟩)
    · obtain ⟨func, mem, n, front, comes⟩ := comes.exists_mem
      have within := comes.live.mem_withinAll
      rw [known_eq_facts folds] at within
      refine ⟨func.live facts.known, List.mem_map_of_mem mem, List.mem_append_left _ ?_⟩
      exact (Stmt.mem_exprsAll_iff _ _).mpr ⟨_, within, (Stmt.own_live _ stmt).symm ▸ own⟩
    · exact ⟨func.live facts.known, List.mem_map_of_mem mem,
        List.mem_append_right _ (List.mem_singleton_self _)⟩

end Programs

end Asm

end Wordlang
