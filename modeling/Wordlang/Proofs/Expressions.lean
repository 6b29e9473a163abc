import Wordlang.Proofs.Acceptance
import Wordlang.Proofs.Evaluation
import Wordlang.Proofs.Numbers
import Wordlang.Proofs.Propagation
import Wordlang.Proofs.Relocation

/-! # Expressions in a frame

The words of a frame are a store, and the code of an expression computes its value in that
store. This is said of the lines of one expression alone, whatever stands around them: every
shape of code that an operator can have brings the value to its place that folding makes of
the operands.
-/

namespace Wordlang

open Asm

theorem BinOp.fold_const {op : BinOp} {a b : Word} (defined : op = .div → b ≠ 0) :
    op.fold (.const a) (.const b) = .const (op.eval a b) := by
  unfold fold
  cases absorbed : op.absorb? (.const a) (.const b) with
  | none => rfl
  | some value =>
      have same := absorb?_eval .const .const (fun zero => defined zero.1 zero.2) absorbed
      exact congrArg Fact.const same.symm

private theorem Expr.folded_of_eval? {store : Store} {e : Expr} {value : Word}
    (evaluated : e.eval? store = some value) : e.folded store = .const value := by
  induction e generalizing value with
  | int | bool => exact congrArg Fact.const (Option.some.inj evaluated)
  | var _ name =>
      have holds : store.word? name = some value := evaluated
      rw [folded, holds, Option.elim_some]
  | index _ name element ih =>
      obtain ⟨i, evalIndex, item⟩ := Option.bind_eq_some_iff.mp evaluated
      rw [folded, ih evalIndex, Fact.const?, Option.bind_some, item, Option.elim_some]
  | unary _ op operand ih =>
      obtain ⟨a, evalOperand, result⟩ := Option.bind_eq_some_iff.mp evaluated
      obtain rfl := Option.some.inj result
      rw [folded, ih evalOperand, UnOp.fold]
  | binary _ op left right ihl ihr =>
      obtain ⟨a, b, evalLeft, evalRight, defined, rfl⟩ := Expr.eval?_binary evaluated
      rw [folded, ihl evalLeft, ihr evalRight, BinOp.fold_const defined]

namespace Asm

namespace Machine

variable {m : Machine}

theorem Delivers.goto {m' : Machine} {place : Place} {value : Word}
    (delivered : Delivers m place value m') (line : Nat) :
    Delivers m place value (m'.goto line) := by
  obtain ⟨kept, holds⟩ := delivered
  refine ⟨⟨kept.esi, kept.edi, kept.ebp, kept.memory⟩, ?_⟩
  cases place <;> exact holds

theorem memory_of_load? {address value : Word} (loaded : m.load? address = some value) :
    m.memory address = .word value := by
  unfold load? at loaded
  split at loaded
  · next held => rw [held, Option.some.inj loaded]
  · exact absurd loaded (by simp)

theorem HasFrame.le_slotOf {size : Nat} (frame : m.HasFrame size) {symbol : Symbol}
    (within : symbol.offset + symbol.length * wordSize ≤ size) {i : Nat}
    (i_lt : i < symbol.length) : m.top ≤ (m.slotOf symbol i).toNat := by
  have below : symbol.depth i ≤ size + 12 := by
    unfold Symbol.depth frameAfter wordSize at *
    omega
  have bound := (m.regs .ebp).isLt
  unfold HasFrame at frame
  rw [slotOf, BitVec.toNat_sub, BitVec.toNat_ofNat]
  omega

private theorem shows_frameStore {program : Program} {func : Func}
    (funcs_nodup : (List.map Func.name program).Nodup) (checks : func.Checks program)
    (frame : m.HasFrame func.typing.size) :
    m.Shows (func.lookup program) (m.frameStore (func.lookup program)) := by
  have nodup := checks.distinct.names_nodup
  -- a variable of the function has the place of a declared one
  have placed : ∀ {name symbol type}, func.lookup program name = some symbol →
      (name, type) ∈ func.typing → symbol.length = type.length ∧
        symbol.offset + symbol.length * wordSize ≤ func.typing.size := by
    intro name symbol type known mem
    obtain ⟨other, known', length, -, within⟩ := checks.exists_within mem
    obtain rfl : symbol = other := Option.some.inj (known.symm.trans known')
    exact ⟨length, within⟩
  intro name cell found
  obtain ⟨symbol, known, isCell⟩ := Option.bind_eq_some_iff.mp found
  refine ⟨symbol, known, ?_⟩
  unfold cell? at isCell
  split at isCell
  · next scalar =>
    obtain rfl := Option.some.inj isCell
    obtain ⟨length, within⟩ : symbol.length = 1 ∧
        symbol.offset + symbol.length * wordSize ≤ func.typing.size := by
      rcases (Func.exists_scalar_iff funcs_nodup nodup).mp ⟨symbol, known, scalar⟩ with mem | mem
      · exact placed known mem
      · exact placed known mem
    refine ⟨length, fun i value item => ?_⟩
    obtain ⟨rfl, loaded⟩ : i = 0 ∧ m.load? (m.slotOf symbol 0) = some value := by
      simpa [Cell.item?] using item
    exact ⟨frame.le_slotOf within (by omega), memory_of_load? loaded⟩
  · split at isCell
    · next array =>
      obtain rfl := Option.some.inj isCell
      obtain ⟨length, mem⟩ := (Func.exists_array_iff funcs_nodup nodup).mp ⟨symbol, known, array⟩
      refine ⟨rfl, fun i value item => ?_⟩
      obtain ⟨i_lt, loaded⟩ : i < symbol.length ∧ m.load? (m.slotOf symbol i) = some value := by
        simpa [Cell.item?] using item
      exact ⟨frame.le_slotOf (placed known mem).2 i_lt, memory_of_load? loaded⟩
    · exact absurd isCell (by simp)

end Machine

open Machine

/-- On its own, the code of an expression needs no more of the stack than it pushes. -/
theorem ExprCode.fits {ctx e place n n'} {image : Image}
    (shape : ExprCode ctx e place n image.code n') {m : Machine} (room : m.HasRoomFor image.code) :
    Fits image (m.goto 0) := by
  have generated : ∀ label : Label, .label label ∈ image.code → label.isGenerated = true :=
    fun label mem => shape.numbered.generated label (mem_marks.mpr mem)
  refine shape.piece.annotates.fits shape.isLocal (m.regs .esp).isLt room
    (fun label _ mem _ _ => generated label mem) ?_
  have start : depthAt image.code 0 = 0 := rfl
  rw [regs_goto, line_goto, start, BitVec.add_zero, BitVec.ofNat_toNat, BitVec.setWidth_eq]

/-- Code is generated for every expression that passes the check in the scope of a function,
    and wherever its lines are loaded they bring the value that the expression has in the frame
    to its place. Folding brings out the same value. The frame may hold anything as long as the
    stack has room for what is pushed, and any true facts may replace parts of the expression. -/
theorem exprCode_correct {program checked : Program} {checker : Checker}
    (passed : program.check = .ok checked checker) {func : Func} (mem : func ∈ checked)
    {scope : Nat} (declared : func.scope = some scope) {e : Expr}
    (accepted : e.check (checker.table.lookup scope) = .ok ())
    (options : Options) (facts : FactTable) (place : Place) (n : Nat) :
    let ctx := Context.ofScope options facts checker.table scope
    ∃ piece n', (exprCode ctx e place).run n = .ok (piece, n') ∧
      ∀ (m : Machine) (value : Word), m.HasFrame (checker.table.scopeSize scope) →
        m.HasRoomFor piece → ctx.Agrees (m.frameStore ctx.lookup) e →
          e.eval? (m.frameStore ctx.lookup) = some value →
            e.folded (m.frameStore ctx.lookup) = .const value ∧
            ∀ before after image, Code.load? (before ++ piece ++ after) = some image →
              m.line = before.length → (∀ name ∈ Code.labels piece, name ∉ Code.labels after) →
                ∃ m', Reaches image m m' ∧ m'.line = m.line + piece.length ∧
                  Delivers m place value m' := by
  intro ctx
  have succeeds : (exprCode ctx e place).Succeeds :=
    exprCode_succeeds (Expr.finds_of_check accepted) place
  obtain ⟨piece, n', made⟩ := succeeds n
  refine ⟨piece, n', made, fun m value frame room agrees evaluated =>
    ⟨Expr.folded_of_eval? evaluated, fun before after image loaded stands apart => ?_⟩⟩
  have within := Code.load?_eq_some.mp loaded
  obtain ⟨part, rfl⟩ := Image.exists_part within
  have shape := exprCode_makes made
  obtain ⟨funcs_nodup, rfl, table, checks⟩ := Program.check_eq_ok passed
  obtain ⟨original, inProgram, scope', rfl, lookup, size⟩ := Program.mem_withScopes mem
  obtain rfl : scope' = scope := Option.some.inj declared
  have named : ctx.lookup = original.lookup program := by rw [← lookup, ← table]; rfl
  rw [table, size] at frame
  have shows : m.Shows ctx.lookup (m.frameStore ctx.lookup) :=
    named ▸ shows_frameStore funcs_nodup (checks original inProgram) frame
  obtain ⟨m', reached, line, delivered⟩ :=
    exprCode_leads shape.labels_nodup shape (m := m.goto 0) shows evaluated agrees
      (CodeAt.all part.code) (shape.fits room)
  have relocated : Reaches image _ _ := reaches_relocated within apart shape.isLocal reached
  have start : (m.goto 0).goto (before.length + (m.goto 0).line) = m := by
    rw [line_goto, Nat.add_zero, ← stands]
    rfl
  rw [start] at relocated
  refine ⟨_, relocated, ?_, delivered.of_goto.goto _⟩
  rw [line_goto, line, line_goto, Nat.zero_add, stands]

theorem Context.agrees_of_all {ctx : Context} {store : Store} {e : Expr}
    (h : (e.parts.all fun part => (ctx.known part).all fun known =>
      (part.eval? store).all (known == ·)) = true) : ctx.Agrees store e := by
  intro part mem known value isKnown evaluated
  have same := List.all_eq_true.mp h part mem
  rw [isKnown, Option.all_some, evaluated, Option.all_some] at same
  exact eq_of_beq same

/-- In some function of the program the result has a value in the frame, and its code is of some
    sort. -/
private def deliversResult (m : Machine) (facts : FactTable) (place : Place) (value : Word)
    (sort : Code → Bool) (program : Program) : Bool :=
  (checkProgram program).result.toOption.any fun made => List.any made.1 fun func =>
    func.scope.any fun scope =>
      let ctx := Context.ofScope {} facts made.2 scope
      let store := m.frameStore ctx.lookup
      (func.result.check (made.2.lookup scope)).toOption.isSome &&
      m.HasFrame (made.2.scopeSize scope) &&
      (func.result.parts.all fun part => (ctx.known part).all fun known =>
        (part.eval? store).all (known == ·)) &&
      func.result.eval? store == some value &&
      ((exprCode ctx func.result place).run 0).toOption.any fun made =>
        m.HasRoomFor made.1 && sort made.1

private theorem exists_of_deliversResult {m : Machine} {facts : FactTable} {place : Place}
    {value : Word} {sort : Code → Bool} {program : Program}
    (holds : deliversResult m facts place value sort program = true) :
    ∃ checked checker, ∃ func ∈ checked, ∃ scope piece n',
      program.check = .ok checked checker ∧ func.scope = some scope ∧
      func.result.check (checker.table.lookup scope) = .ok () ∧
      let ctx := Context.ofScope {} facts checker.table scope
      (exprCode ctx func.result place).run 0 = .ok (piece, n') ∧
      m.HasFrame (checker.table.scopeSize scope) ∧ m.HasRoomFor piece ∧
      ctx.Agrees (m.frameStore ctx.lookup) func.result ∧
      func.result.eval? (m.frameStore ctx.lookup) = some value ∧ sort piece = true := by
  obtain ⟨⟨checked, table⟩, made, holds⟩ := exists_ok_of_any holds
  obtain ⟨checker, passed, rfl⟩ := checkProgram_eq_ok.mp made
  obtain ⟨func, mem, holds⟩ := List.any_eq_true.mp holds
  cases declared : func.scope with
  | none => simp [declared] at holds
  | some scope =>
      simp only [declared, Option.any_some, Bool.and_eq_true, decide_eq_true_eq] at holds
      obtain ⟨⟨⟨⟨checks, frame⟩, known⟩, evaluated⟩, generated⟩ := holds
      obtain ⟨⟨piece, n'⟩, generates, fits⟩ := exists_ok_of_any generated
      rw [Bool.and_eq_true, decide_eq_true_eq] at fits
      have isChecked : func.result.check (checker.table.lookup scope) = .ok () := by
        cases checked : func.result.check (checker.table.lookup scope) with
        | error error => simp [checked, Except.toOption] at checks
        | ok => rfl
      exact ⟨checked, checker, func, mem, scope, piece, n', passed, declared, isChecked, generates,
        frame, fits.1, Context.agrees_of_all known, eq_of_beq evaluated, fits.2⟩

/-- A function with an operation on two unknown words, one on a known word, a magnitude and an
    element whose index is unknown. -/
def gaugeText : String :=
  "function f(k: int): int \x7b
     var a: intarray[2];
     return a[0] - (|a[k]| + (k < 2)); \x7d"

/-- A machine whose frame holds 1 in the parameter, and 7 and the least word in the array. -/
def gaugeMachine : Machine where
  regs
    | .ebp => 4096
    | .esp => 4072
    | _ => 0
  memory address :=
    if address = 4080 then .word 1
    else if address = 4076 then .word 0x80000000
    else if address = 4072 then .word 7
    else .word 0
  line := 0

/-- The table knows that the comparison holds, as it does in this frame. -/
def gaugeFacts : FactTable := .ofList [(7, .const 1)]

theorem gauge_delivered : ∃ program checked checker func scope ctx piece n' image m',
    (readProgram gaugeText).result = .ok program ∧ program.check = .ok checked checker ∧
    func ∈ checked ∧ func.scope = some scope ∧
    func.result.check (checker.table.lookup scope) = .ok () ∧
    ctx = Context.ofScope {} gaugeFacts checker.table scope ∧
    (exprCode ctx func.result .ebx).run 0 = .ok (piece, n') ∧
    gaugeMachine.HasFrame (checker.table.scopeSize scope) ∧ gaugeMachine.HasRoomFor piece ∧
    ctx.Agrees (gaugeMachine.frameStore ctx.lookup) func.result ∧
    func.result.eval? (gaugeMachine.frameStore ctx.lookup) = some 2147483654 ∧
    func.result.folded (gaugeMachine.frameStore ctx.lookup) = .const 2147483654 ∧
    Code.load? piece = some image ∧ Reaches image gaugeMachine m' ∧ m'.line = piece.length ∧
    Delivers gaugeMachine .ebx 2147483654 m' := by
  obtain ⟨program, read, accepted⟩ := exists_ok_of_any (x := (readProgram gaugeText).result)
    (p := deliversResult gaugeMachine gaugeFacts .ebx 2147483654 fun piece => piece.load?.isSome)
    (by decide +kernel)
  obtain ⟨checked, checker, func, mem, scope, piece, n', passed, declared, isChecked, generates,
    frame, room, agrees, evaluated, loads⟩ := exists_of_deliversResult accepted
  obtain ⟨image, loaded⟩ := Option.isSome_iff_exists.mp loads
  obtain ⟨piece', n'', generated, correct⟩ :=
    exprCode_correct passed mem declared isChecked {} gaugeFacts .ebx 0
  obtain ⟨rfl, rfl⟩ := Prod.mk.inj (Except.ok.inj (generates.symm.trans generated))
  obtain ⟨folded, runs⟩ := correct gaugeMachine _ frame room agrees evaluated
  obtain ⟨m', reached, line, delivered⟩ := runs [] [] image
    (by rwa [List.nil_append, List.append_nil]) rfl (by simp [Code.labels])
  exact ⟨program, checked, checker, func, scope, _, piece, n', image, m', read, passed, mem,
    declared, isChecked, rfl, generated, frame, room, agrees, evaluated, folded, loaded, reached,
    by rw [line]; exact Nat.zero_add _, delivered⟩

/-- A function with a variable below an array of two gigabytes. -/
def deepText : String :=
  "function f(): int \x7b var v: intarray[536870912]; var x: int; return x; \x7d"

/-- A machine whose frame holds zeros. -/
def deepMachine : Machine where
  regs
    | .ebp => 4294967292
    | .esp => 1024
    | _ => 0
  memory _ := .word 0
  line := 0

/-- The code that reads a variable cannot be loaded if it is too far from the frame pointer. -/
theorem not_all_delivered : ∃ program checked checker func scope ctx piece n',
    (readProgram deepText).result = .ok program ∧ program.check = .ok checked checker ∧
    func ∈ checked ∧ func.scope = some scope ∧
    func.result.check (checker.table.lookup scope) = .ok () ∧
    ctx = Context.ofScope {} .empty checker.table scope ∧
    (exprCode ctx func.result .eax).run 0 = .ok (piece, n') ∧
    deepMachine.HasFrame (checker.table.scopeSize scope) ∧ deepMachine.HasRoomFor piece ∧
    ctx.Agrees (deepMachine.frameStore ctx.lookup) func.result ∧
    func.result.eval? (deepMachine.frameStore ctx.lookup) = some 0 ∧
    ∀ before after, Code.load? (before ++ piece ++ after) = none := by
  obtain ⟨program, read, accepted⟩ := exists_ok_of_any (x := (readProgram deepText).result)
    (p := deliversResult deepMachine .empty .eax 0 fun piece => piece.load?.isNone)
    (by decide +kernel)
  obtain ⟨checked, checker, func, mem, scope, piece, n', passed, declared, isChecked, generates,
    frame, room, agrees, evaluated, unloadable⟩ := exists_of_deliversResult accepted
  exact ⟨program, checked, checker, func, scope, _, piece, n', read, passed, mem, declared,
    isChecked, rfl, generates, frame, room, agrees, evaluated,
    fun _ _ => Code.load?_eq_none_of_part (Option.isNone_iff_eq_none.mp unloadable)⟩

end Asm

end Wordlang
