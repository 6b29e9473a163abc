import Wordlang.Proofs.Jumps

/-! # Code at other label numbers

Where code generation begins to count decides nothing but the numbers of labels: if it begins a
step further, all its labels and the number behind the code are a step further. Nothing else
matters either than the options, the meaning of names, and what is known about the nodes for
which code is generated.
-/

namespace Wordlang

/-- Two tables know the same about some nodes. -/
def FactTable.AgreesOn (facts facts' : FactTable) (ids : List Nat) : Prop :=
  ∀ id ∈ ids, facts.get id = facts'.get id

theorem FactTable.AgreesOn.mono {facts facts' : FactTable} {ids ids' : List Nat}
    (agrees : facts.AgreesOn facts' ids) (sub : ids' ⊆ ids) : facts.AgreesOn facts' ids' :=
  fun id mem => agrees id (sub mem)

theorem Expr.id_mem_ids (e : Expr) : e.id ∈ e.ids := by
  cases e <;> simp [ids, parts]

namespace Asm

@[simp] theorem map_renumber {piece : Code} {shift : Int} (plain : Plain piece) :
    piece.map (Line.renumber shift) = piece := by
  refine (List.map_congr_left fun line mem => ?_).trans (List.map_id piece)
  have plain := List.all_eq_true.mp plain line mem
  cases line with
  | instr op =>
      cases op with
      | jump | call => exact absurd plain nofun
      | _ => rfl
  | globl | label => exact absurd plain nofun
  | _ => rfl

/-- Wherever one generator succeeds, another one succeeds a number of steps further, and it makes
    what the first makes as it is moved. -/
def Gen.Moves {α : Type} (shift : Int) (move : α → α) (gen gen' : Gen α) : Prop :=
  ∀ n a n', gen.Makes n a n' → ∀ m : Nat, (m : Int) = n + shift →
    ∃ m' : Nat, (m' : Int) = n' + shift ∧ gen'.Makes m (move a) m'

namespace Gen.Moves

variable {α β : Type} {shift : Int} {move : α → α} {move' : β → β}

theorem pure {a b : α} (moved : move a = b) :
    Moves shift move (Pure.pure a) (Pure.pure b) := by
  intro n a' n' made m start
  obtain ⟨rfl, rfl⟩ := (makes_pure _ _ _ _).mp made
  exact ⟨m, start, (makes_pure _ _ _ _).mpr ⟨moved.symm, rfl⟩⟩

theorem bind {gen gen' : Gen α} {next next' : α → Gen β} (first : Moves shift move gen gen')
    (later : ∀ a, Moves shift move' (next a) (next' (move a))) :
    Moves shift move' (gen >>= next) (gen' >>= next') := by
  intro n b n' made m start
  obtain ⟨a, n₁, made, rest⟩ := (makes_bind _ _ _ _ _).mp made
  obtain ⟨m₁, middle, made'⟩ := first n a n₁ made m start
  obtain ⟨m', stop, rest'⟩ := later a n₁ b n' rest m₁ middle
  exact ⟨m', stop, (makes_bind _ _ _ _ _).mpr ⟨move a, m₁, made', rest'⟩⟩

theorem throw {error error' : CompileError} :
    Moves shift move (MonadExcept.throw error) (MonadExcept.throw error') :=
  fun n a n' made => absurd made (makes_throw error n a n')

theorem newNumber :
    Moves shift (fun number : Nat => (number + shift).toNat) Asm.newNumber Asm.newNumber := by
  intro n a n' made m start
  obtain ⟨rfl, rfl⟩ := (makes_newNumber _ _ _).mp made
  have moved : ((a : Int) + shift).toNat = m := by omega
  exact ⟨m + 1, by omega, (makes_newNumber _ _ _).mpr ⟨moved, rfl⟩⟩

end Gen.Moves

/-- Code that is generated further on has other numbers in its labels and is the same otherwise. -/
abbrev Gen.MovesCode (shift : Int) (gen gen' : Gen Code) : Prop :=
  Gen.Moves shift (List.map (Line.renumber shift)) gen gen'

def Context.withFacts (ctx : Context) (scope : Nat) (facts : FactTable) : Context :=
  { ctx with scope, facts }

section Constructs

variable {ctx : Context} {scope : Nat} {facts : FactTable} {shift : Int}

@[simp] theorem Context.note_withFacts (text : String) :
    (ctx.withFacts scope facts).note text = ctx.note text := rfl

@[simp] theorem unaryCode_withFacts (op : UnOp) :
    unaryCode (ctx.withFacts scope facts) op = unaryCode ctx op := rfl

theorem Context.known_withFacts {e : Expr} {ids : List Nat} (agrees : facts.AgreesOn ctx.facts ids)
    (mem : e.id ∈ ids) : (ctx.withFacts scope facts).known e = ctx.known e := by
  rw [known, known, withFacts, agrees e.id mem]

theorem Context.find_moves (name : String) :
    Gen.Moves shift id (ctx.find name) ((ctx.withFacts scope facts).find name) := by
  intro n symbol n' made m start
  obtain ⟨found, rfl⟩ := (Gen.makes_find _ _ _ _ _).mp made
  exact ⟨m, start, (Gen.makes_find _ _ _ _ _).mpr ⟨found, rfl⟩⟩

private theorem binaryCode_moves (op : BinOp) : Gen.MovesCode shift (binaryCode op)
    (binaryCode op) := by
  have compared : ∀ jump, Gen.MovesCode shift (comparisonCode op jump) (comparisonCode op jump) :=
    fun jump => .bind .newNumber fun number => .pure rfl
  cases op with
  | plus | minus | times | div | and | or => exact .pure rfl
  | _ => exact compared _

theorem resultCode_moves (op : BinOp) (total : Address) (place : Place) :
    Gen.MovesCode shift (resultCode op total place) (resultCode op total place) := by
  unfold resultCode
  split
  · exact .pure (by simp)
  · exact .bind (binaryCode_moves op) fun computed => .pure (by simp)

theorem exprCode_moves {e : Expr} (agrees : facts.AgreesOn ctx.facts e.ids) (place : Place) :
    Gen.MovesCode shift (exprCode ctx e place) (exprCode (ctx.withFacts scope facts) e place) := by
  have same : (ctx.withFacts scope facts).known e = ctx.known e :=
    Context.known_withFacts agrees e.id_mem_ids
  rw [exprCode.eq_def, exprCode.eq_def (ctx.withFacts scope facts), same]
  cases ctx.known e with
  | some value => exact .pure (by simp)
  | none =>
      cases e with
      | int | bool => exact .pure (by simp)
      | var _ name => exact .bind (Context.find_moves name) fun symbol => .pure (by simp)
      | index _ name element =>
          have inner : facts.AgreesOn ctx.facts element.ids :=
            agrees.mono (by simp [Expr.ids, Expr.parts])
          refine .bind (Context.find_moves name) fun symbol => ?_
          rw [id, Context.known_withFacts inner element.id_mem_ids]
          split
          · exact .pure (by simp)
          · exact .bind (exprCode_moves inner _) fun code => .pure (by simp)
      | unary _ op operand =>
          have inner : facts.AgreesOn ctx.facts operand.ids :=
            agrees.mono (by simp [Expr.ids, Expr.parts])
          exact .bind (exprCode_moves inner _) fun code => .pure (by simp)
      | binary _ op left right =>
          have first : facts.AgreesOn ctx.facts left.ids :=
            agrees.mono (by simp [Expr.ids, Expr.parts])
          have second : facts.AgreesOn ctx.facts right.ids :=
            agrees.mono (by simp [Expr.ids, Expr.parts])
          simp only [Context.known_withFacts first left.id_mem_ids,
            Context.known_withFacts second right.id_mem_ids]
          split
          · exact .bind (exprCode_moves second _) fun code =>
              .bind (resultCode_moves _ _ _) fun result => .pure (by simp)
          · exact .bind (exprCode_moves first _) fun code =>
              .bind (resultCode_moves _ _ _) fun result => .pure (by simp)
          · exact .bind (exprCode_moves second _) fun code =>
              .bind (exprCode_moves first _) fun code' =>
                .bind (resultCode_moves _ _ _) fun result => .pure (by simp [Line.renumber])
termination_by sizeOf e

theorem conditionCode_moves {cond : Expr} (agrees : facts.AgreesOn ctx.facts cond.ids) :
    Gen.MovesCode shift (conditionCode ctx cond)
      (conditionCode (ctx.withFacts scope facts) cond) :=
  .bind (exprCode_moves agrees _) fun test => .pure (by simp [Line.renumber])

private theorem argsCode_moves {args : List Expr}
    (agrees : facts.AgreesOn ctx.facts (args.flatMap Expr.ids)) :
    Gen.MovesCode shift (argsCode ctx args) (argsCode (ctx.withFacts scope facts) args) := by
  induction args with
  | nil => exact .pure rfl
  | cons arg rest ih =>
      exact .bind (ih (agrees.mono (by simp))) fun later =>
        .bind (exprCode_moves (agrees.mono (by simp)) _) fun first => .pure (by simp)

theorem callCode_moves {callee : String} {args : List Expr}
    (agrees : facts.AgreesOn ctx.facts (args.flatMap Expr.ids)) :
    Gen.MovesCode shift (callCode ctx callee args)
      (callCode (ctx.withFacts scope facts) callee args) := by
  refine .bind (Context.find_moves callee) fun symbol => ?_
  rw [id]
  split
  · exact .throw
  · exact .bind (argsCode_moves agrees) fun pushes =>
      .pure (by simp [Line.renumber, Label.renumber])

private theorem assignCode_moves {slot : Address} {value : Expr}
    (agrees : facts.AgreesOn ctx.facts value.ids) :
    Gen.MovesCode shift (assignCode ctx slot value)
      (assignCode (ctx.withFacts scope facts) slot value) := by
  unfold assignCode
  rw [Context.known_withFacts agrees value.id_mem_ids]
  split
  · exact .pure (by simp)
  · exact .bind (exprCode_moves agrees _) fun computed => .pure (by simp)

private theorem assignIndexCode_moves {symbol : Symbol} {index value : Expr}
    (agreesIndex : facts.AgreesOn ctx.facts index.ids)
    (agrees : facts.AgreesOn ctx.facts value.ids) :
    Gen.MovesCode shift (assignIndexCode ctx symbol index value)
      (assignIndexCode (ctx.withFacts scope facts) symbol index value) := by
  unfold assignIndexCode
  rw [Context.known_withFacts agreesIndex index.id_mem_ids,
    Context.known_withFacts agrees value.id_mem_ids]
  split
  · exact .pure (by simp)
  · exact .bind (exprCode_moves agrees _) fun computed => .pure (by simp)
  · exact .bind (exprCode_moves agreesIndex _) fun computed => .pure (by simp)
  · exact .bind (exprCode_moves agreesIndex _) fun place =>
      .bind (exprCode_moves agrees _) fun content => .pure (by simp [Line.renumber])

private theorem callIndexCode_moves {symbol : Symbol} {index : Expr} {callee : String}
    {args : List Expr}
    (agreesIndex : facts.AgreesOn ctx.facts index.ids)
    (agrees : facts.AgreesOn ctx.facts (args.flatMap Expr.ids)) :
    Gen.MovesCode shift (callIndexCode ctx symbol index callee args)
      (callIndexCode (ctx.withFacts scope facts) symbol index callee args) := by
  unfold callIndexCode
  rw [Context.known_withFacts agreesIndex index.id_mem_ids]
  split
  · exact .bind (callCode_moves agrees) fun call => .pure (by simp)
  · exact .bind (exprCode_moves agreesIndex _) fun place =>
      .bind (callCode_moves agrees) fun call => .pure (by simp [Line.renumber])

section Bodies

/-- The code of some statements is the same further on. -/
def MovesAll (ctx : Context) (scope : Nat) (facts : FactTable) (shift : Int)
    (stmts : List Stmt) : Prop :=
  Gen.MovesCode shift (stmtsCode ctx stmts) (stmtsCode (ctx.withFacts scope facts) stmts)

variable {cond : Expr} (agrees : facts.AgreesOn ctx.facts cond.ids)

include agrees

private theorem when_moves {body : List Stmt} (inner : MovesAll ctx scope facts shift body) :
    Gen.MovesCode shift (stmtCode ctx (.when cond body))
      (stmtCode (ctx.withFacts scope facts) (.when cond body)) := by
  rw [stmtCode, stmtCode, Context.known_withFacts agrees cond.id_mem_ids]
  split
  · split
    · exact .bind inner fun code => .pure (by simp)
    · exact .pure (by simp)
  · exact .bind .newNumber fun number => .bind (conditionCode_moves agrees) fun test =>
      .bind inner fun code => .pure (by simp [Line.renumber, Label.renumber])

private theorem choose_moves {thens elses : List Stmt}
    (first : MovesAll ctx scope facts shift thens)
    (second : MovesAll ctx scope facts shift elses) :
    Gen.MovesCode shift (stmtCode ctx (.choose cond thens elses))
      (stmtCode (ctx.withFacts scope facts) (.choose cond thens elses)) := by
  rw [stmtCode, stmtCode, Context.known_withFacts agrees cond.id_mem_ids]
  split
  · split
    · exact .bind first fun code => .pure (by simp)
    · exact .bind second fun code => .pure (by simp)
  · exact .bind .newNumber fun number => .bind .newNumber fun number' =>
      .bind (conditionCode_moves agrees) fun test => .bind first fun code =>
        .bind second fun code' => .pure (by simp [Line.renumber, Label.renumber])

private theorem loop_moves {body : List Stmt} (inner : MovesAll ctx scope facts shift body) :
    Gen.MovesCode shift (stmtCode ctx (.loop cond body))
      (stmtCode (ctx.withFacts scope facts) (.loop cond body)) := by
  rw [stmtCode, stmtCode, Context.known_withFacts agrees cond.id_mem_ids]
  split
  · split
    · exact .bind .newNumber fun number => .bind inner fun code =>
        .pure (by simp [Line.renumber, Label.renumber])
    · exact .pure (by simp)
  · exact .bind .newNumber fun number => .bind (conditionCode_moves agrees) fun test =>
      .bind inner fun code => .pure (by simp [Line.renumber, Label.renumber])

end Bodies

theorem stmtsCode_moves {stmts : List Stmt}
    (agrees : facts.AgreesOn ctx.facts (Stmt.idsAll stmts)) :
    MovesAll ctx scope facts shift stmts := by
  unfold MovesAll
  cases stmts with
  | nil =>
      rw [stmtsCode, stmtsCode]
      exact .pure rfl
  | cons stmt rest =>
      rw [stmtsCode, stmtsCode]
      have own : facts.AgreesOn ctx.facts (stmt.exprs.flatMap Expr.ids) :=
        agrees.mono (by simp [Stmt.idsAll, Stmt.exprsAll])
      have later : facts.AgreesOn ctx.facts (Stmt.idsAll rest) :=
        agrees.mono (by simp [Stmt.idsAll, Stmt.exprsAll])
      suffices head : Gen.MovesCode shift (stmtCode ctx stmt)
          (stmtCode (ctx.withFacts scope facts) stmt) from
        .bind head fun first => .bind (stmtsCode_moves later) fun code => .pure (by simp)
      cases stmt with
      | assign target value =>
          rw [stmtCode, stmtCode]
          exact .bind (Context.find_moves target) fun symbol =>
            .bind (assignCode_moves (own.mono (by simp [Stmt.exprs]))) fun stored =>
              .pure (by simp)
      | assignIndex target index value =>
          rw [stmtCode, stmtCode]
          exact .bind (Context.find_moves target) fun symbol =>
            .bind (assignIndexCode_moves (own.mono (by simp [Stmt.exprs]))
              (own.mono (by simp [Stmt.exprs]))) fun stored => .pure (by simp)
      | call line target callee args =>
          rw [stmtCode, stmtCode]
          exact .bind (Context.find_moves target) fun symbol =>
            .bind (callCode_moves (own.mono (by simp [Stmt.exprs]))) fun call => .pure (by simp)
      | callIndex line target index callee args =>
          rw [stmtCode, stmtCode]
          exact .bind (Context.find_moves target) fun symbol =>
            callIndexCode_moves (own.mono (by simp [Stmt.exprs])) (own.mono (by simp [Stmt.exprs]))
      | when cond body =>
          exact when_moves (own.mono (by simp [Stmt.exprs]))
            (stmtsCode_moves (own.mono (by simp [Stmt.exprs, Stmt.idsAll])))
      | choose cond thens elses =>
          exact choose_moves (own.mono (by simp [Stmt.exprs]))
            (stmtsCode_moves (own.mono (by simp [Stmt.exprs, Stmt.idsAll])))
            (stmtsCode_moves (own.mono (by simp [Stmt.exprs, Stmt.idsAll])))
      | loop cond body =>
          exact loop_moves (own.mono (by simp [Stmt.exprs]))
            (stmtsCode_moves (own.mono (by simp [Stmt.exprs, Stmt.idsAll])))
      | block body =>
          rw [stmtCode, stmtCode]
          exact stmtsCode_moves (own.mono (by simp [Stmt.exprs, Stmt.idsAll]))
termination_by sizeOf stmts

private theorem map_renumber_entryLabels (name : String) :
    (entryLabels name).map (Line.renumber shift) = entryLabels name := by
  unfold entryLabels
  split <;> simp [Line.renumber, Label.renumber]

private theorem map_renumber_prologue (name : String) (locals params : Nat) :
    (prologue ctx name locals params).map (Line.renumber shift) =
      prologue ctx name locals params := by
  have reserve : Plain (if locals = 0 then [] else [.instr (.arith .sub (.imm locals) .esp)]) := by
    split <;> simp
  unfold prologue
  simp [-List.map_cons, map_renumber_entryLabels, reserve]

private theorem map_renumber_epilogue (bytes : Nat) :
    (epilogue ctx bytes).map (Line.renumber shift) = epilogue ctx bytes := by
  rw [epilogue, List.map_append, List.map_append, map_renumber (plain_note _ _),
    map_renumber (plain_release _)]
  rfl

private theorem bodyCode_moves {func : Func} {size : Nat}
    (agrees : facts.AgreesOn ctx.facts (func.exprs.flatMap Expr.ids)) :
    Gen.MovesCode shift (bodyCode ctx func size)
      (bodyCode (ctx.withFacts scope facts) func size) := by
  have body : facts.AgreesOn ctx.facts (Stmt.idsAll func.body) :=
    agrees.mono (by simp [Func.exprs, Stmt.idsAll])
  have result : facts.AgreesOn ctx.facts func.result.ids := agrees.mono (by simp [Func.exprs])
  refine .bind (stmtsCode_moves body) fun code => .bind (exprCode_moves result _) fun last =>
    .pure ?_
  simp only [List.map_append, map_renumber_prologue, map_renumber_epilogue,
    map_renumber (plain_note _ _)]
  rfl

end Constructs

/-- The code of a function depends on the other functions only by the meaning of names and by
    the number from which its labels are counted. -/
theorem funcCode_moves {options : Options} {facts facts' : FactTable} {table table' : Table}
    {scope scope' : Nat} {shift : Int} {func : Func}
    (lookup : table'.lookup scope' = table.lookup scope)
    (size : table'.scopeSize scope' = table.scopeSize scope)
    (agrees : facts'.AgreesOn facts (func.exprs.flatMap Expr.ids)) :
    Gen.MovesCode shift (funcCode options facts table { func with scope := some scope })
      (funcCode options facts' table' { func with scope := some scope' }) := by
  let ctx := Context.ofScope options facts table scope
  have moves : Gen.MovesCode shift (bodyCode ctx func (table.scopeSize scope))
      (bodyCode (ctx.withFacts scope' facts') func (table.scopeSize scope)) := bodyCode_moves agrees
  have same : ctx.withFacts scope' facts' = .ofScope options facts' table' scope' := by
    rw [Context.ofScope, lookup]
    rfl
  have other : funcCode options facts' table' { func with scope := some scope' } =
      bodyCode (.ofScope options facts' table' scope') func (table.scopeSize scope) := by
    rw [← size]
    rfl
  rw [same] at moves
  rw [other]
  exact moves

end Asm

end Wordlang
