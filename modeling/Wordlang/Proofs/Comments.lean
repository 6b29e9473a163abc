import Wordlang.Asm.Comment
import Wordlang.Asm.Program

/-! # Comments in generated code

Comments only describe the code. Whether they are wanted decides neither what else is generated,
nor the numbers of labels, nor whether and why code generation fails.
-/

namespace Wordlang.Asm

/-- A generator makes what another one makes, but changed, and fails where that one fails, with
    the same error. Both hand out the same numbers. -/
def Gen.Becomes {α β : Type} (change : α → β) (gen : Gen α) (gen' : Gen β) : Prop :=
  gen' = change <$> gen

namespace Gen.Becomes

variable {α β γ δ : Type} {change : α → β} {change' : γ → δ}

theorem refl (gen : Gen α) : Becomes id gen gen := (id_map gen).symm

theorem pure {a : α} {b : β} (changed : change a = b) :
    Becomes change (Pure.pure a) (Pure.pure b) := by
  rw [Becomes, map_pure, changed]

theorem bind {gen : Gen α} {gen' : Gen β} {next : α → Gen γ} {next' : β → Gen δ}
    (first : Becomes change gen gen')
    (later : ∀ a, Becomes change' (next a) (next' (change a))) :
    Becomes change' (gen >>= next) (gen' >>= next') := by
  rw [Becomes, first, map_bind, bind_map_left]
  exact bind_congr later

theorem throw (error : CompileError) :
    Becomes change (MonadExcept.throw error) (MonadExcept.throw error) := rfl

end Gen.Becomes

/-- A generator makes what another one makes, but for the comments. -/
abbrev Gen.Silences (gen gen' : Gen Code) : Prop := Gen.Becomes Code.uncommented gen gen'

section Pieces

variable {ctx : Context} {place : Place} {address : Address} {value : Word}

@[simp] theorem Code.uncommented_nil : Code.uncommented [] = [] := rfl

@[simp] theorem Code.uncommented_append (first second : Code) :
    Code.uncommented (first ++ second) = first.uncommented ++ second.uncommented :=
  List.filter_append ..

@[simp] theorem Code.uncommented_instr (op : Instr) (code : Code) :
    Code.uncommented (.instr op :: code) = .instr op :: code.uncommented := rfl

@[simp] theorem Code.uncommented_label (label : Label) (code : Code) :
    Code.uncommented (.label label :: code) = .label label :: code.uncommented := rfl

@[simp] theorem uncommented_note (text : String) : (ctx.note text).uncommented = [] := by
  unfold Context.note
  split <;> rfl

@[simp] theorem note_quiet (text : String) : ctx.quiet.note text = [] := rfl

@[simp] theorem known_quiet (e : Expr) : ctx.quiet.known e = ctx.known e := rfl

@[simp] theorem uncommented_immediate : (place.immediate value).uncommented =
    place.immediate value := by
  cases place <;> rfl

@[simp] theorem uncommented_load : (place.load address).uncommented = place.load address := by
  cases place <;> rfl

@[simp] theorem uncommented_store : place.store.uncommented = place.store := by
  cases place <;> rfl

@[simp] theorem uncommented_sum : (place.sum address).uncommented = place.sum address := by
  cases place <;> rfl

@[simp] theorem uncommented_unaryCode (op : UnOp) :
    (unaryCode ctx op).uncommented = unaryCode ctx.quiet op := by
  cases op <;> simp [unaryCode]

@[simp] theorem uncommented_truthValues : truthValues.uncommented = truthValues := by
  simp [truthValues]

@[simp] theorem uncommented_knownOperand (op : BinOp) (reg : Reg) :
    (knownOperand op value reg).uncommented = knownOperand op value reg := by
  unfold knownOperand
  split <;> rfl

@[simp] theorem uncommented_release (bytes : Nat) :
    (release bytes).uncommented = release bytes := by
  unfold release
  split <;> rfl

@[simp] theorem uncommented_storeEax : (storeEax address).uncommented = storeEax address := by
  simp [storeEax]

@[simp] theorem uncommented_storeWord :
    (storeWord value address).uncommented = storeWord value address := by
  simp [storeWord]

@[simp] theorem uncommented_argumentsCode (params : Nat) :
    (argumentsCode params).uncommented = argumentsCode params := by
  simp [Code.uncommented, argumentsCode, Line.isComment]

@[simp] theorem uncommented_entryLabels (name : String) :
    (entryLabels name).uncommented = entryLabels name := by
  unfold entryLabels
  split <;> rfl

@[simp] theorem uncommented_prologue (name : String) (locals params : Nat) :
    (prologue ctx name locals params).uncommented = prologue ctx.quiet name locals params := by
  unfold prologue
  split <;> simp

@[simp] theorem uncommented_epilogue (bytes : Nat) :
    (epilogue ctx bytes).uncommented = epilogue ctx.quiet bytes := by
  simp [epilogue]

end Pieces

open Gen (Silences)

section Constructs

variable (ctx : Context)

private theorem binaryCode_silences (op : BinOp) : Silences (binaryCode op) (binaryCode op) := by
  have compared : ∀ jump, Silences (comparisonCode op jump) (comparisonCode op jump) :=
    fun _ => .bind (.refl _) fun _ => .pure (by simp)
  cases op with
  | plus | minus | times | div | and | or => exact .pure (by simp)
  | _ => exact compared _

theorem resultCode_silences (op : BinOp) (total : Address) (place : Place) :
    Silences (resultCode op total place) (resultCode op total place) := by
  unfold resultCode
  split
  · exact .pure (by simp)
  · exact .bind (binaryCode_silences op) fun computed => .pure (by simp)

theorem exprCode_silences (e : Expr) (place : Place) :
    Silences (exprCode ctx e place) (exprCode ctx.quiet e place) := by
  rw [exprCode.eq_def, exprCode.eq_def ctx.quiet, known_quiet]
  cases ctx.known e with
  | some value => exact .pure (by simp)
  | none =>
      cases e with
      | int | bool => exact .pure (by simp)
      | var _ name => exact .bind (.refl _) fun symbol => .pure (by simp)
      | index _ name element =>
          refine .bind (.refl _) fun symbol => ?_
          rw [id, known_quiet]
          split
          · exact .pure (by simp)
          · exact .bind (exprCode_silences element _) fun code => .pure (by simp)
      | unary _ op operand =>
          exact .bind (exprCode_silences operand _) fun code => .pure (by simp)
      | binary _ op left right =>
          simp only [known_quiet]
          split
          · exact .bind (exprCode_silences right _) fun code =>
              .bind (resultCode_silences _ _ _) fun result => .pure (by simp)
          · exact .bind (exprCode_silences left _) fun code =>
              .bind (resultCode_silences _ _ _) fun result => .pure (by simp)
          · exact .bind (exprCode_silences right _) fun second =>
              .bind (exprCode_silences left _) fun first =>
                .bind (resultCode_silences _ _ _) fun result => .pure (by simp)
termination_by sizeOf e

theorem conditionCode_silences (cond : Expr) :
    Silences (conditionCode ctx cond) (conditionCode ctx.quiet cond) :=
  .bind (exprCode_silences ctx cond _) fun test => .pure (by simp)

private theorem argsCode_silences (args : List Expr) :
    Silences (argsCode ctx args) (argsCode ctx.quiet args) := by
  induction args with
  | nil => exact .pure rfl
  | cons arg rest ih =>
      exact .bind ih fun later => .bind (exprCode_silences ctx arg _) fun first =>
        .pure (by simp)

theorem callCode_silences (callee : String) (args : List Expr) :
    Silences (callCode ctx callee args) (callCode ctx.quiet callee args) := by
  refine .bind (.refl _) fun symbol => ?_
  rw [id]
  split
  · exact .throw _
  · exact .bind (argsCode_silences ctx args) fun pushes => .pure (by simp)

private theorem assignCode_silences (slot : Address) (value : Expr) :
    Silences (assignCode ctx slot value) (assignCode ctx.quiet slot value) := by
  unfold assignCode
  rw [known_quiet]
  split
  · exact .pure (by simp)
  · exact .bind (exprCode_silences ctx value _) fun computed => .pure (by simp)

private theorem assignIndexCode_silences (symbol : Symbol) (index value : Expr) :
    Silences (assignIndexCode ctx symbol index value)
      (assignIndexCode ctx.quiet symbol index value) := by
  unfold assignIndexCode
  simp only [known_quiet]
  split
  · exact .pure (by simp)
  · exact .bind (exprCode_silences ctx value _) fun content => .pure (by simp)
  · exact .bind (exprCode_silences ctx index _) fun place => .pure (by simp)
  · exact .bind (exprCode_silences ctx index _) fun place =>
      .bind (exprCode_silences ctx value _) fun content => .pure (by simp)

private theorem callIndexCode_silences (symbol : Symbol) (index : Expr) (callee : String)
    (args : List Expr) :
    Silences (callIndexCode ctx symbol index callee args)
      (callIndexCode ctx.quiet symbol index callee args) := by
  unfold callIndexCode
  simp only [known_quiet]
  split
  · exact .bind (callCode_silences ctx callee args) fun call => .pure (by simp)
  · exact .bind (exprCode_silences ctx index _) fun place =>
      .bind (callCode_silences ctx callee args) fun call => .pure (by simp)

mutual

theorem stmtCode_silences (stmt : Stmt) :
    Silences (stmtCode ctx stmt) (stmtCode ctx.quiet stmt) := by
  cases stmt with
  | assign target value =>
      simp only [stmtCode]
      exact .bind (.refl _) fun symbol => .bind (assignCode_silences ctx _ value) fun stored =>
        .pure (by simp)
  | assignIndex target index value =>
      simp only [stmtCode]
      exact .bind (.refl _) fun symbol =>
        .bind (assignIndexCode_silences ctx symbol index value) fun stored => .pure (by simp)
  | call line target callee args =>
      simp only [stmtCode]
      exact .bind (.refl _) fun symbol => .bind (callCode_silences ctx callee args) fun call =>
        .pure (by simp)
  | callIndex line target index callee args =>
      simp only [stmtCode]
      exact .bind (.refl _) fun symbol => callIndexCode_silences ctx symbol index callee args
  | when cond body =>
      simp only [stmtCode, known_quiet]
      split
      · split
        · exact .bind (stmtsCode_silences body) fun inner => .pure (by simp)
        · exact .pure (by simp)
      · exact .bind (.refl _) fun number => .bind (conditionCode_silences ctx cond) fun test =>
          .bind (stmtsCode_silences body) fun inner => .pure (by simp)
  | choose cond thens elses =>
      simp only [stmtCode, known_quiet]
      split
      · split
        · exact .bind (stmtsCode_silences thens) fun inner => .pure (by simp)
        · exact .bind (stmtsCode_silences elses) fun inner => .pure (by simp)
      · exact .bind (.refl _) fun elseNumber => .bind (.refl _) fun doneNumber =>
          .bind (conditionCode_silences ctx cond) fun test =>
            .bind (stmtsCode_silences thens) fun first =>
              .bind (stmtsCode_silences elses) fun second => .pure (by simp)
  | loop cond body =>
      simp only [stmtCode, known_quiet]
      split
      · split
        · exact .bind (.refl _) fun number => .bind (stmtsCode_silences body) fun inner =>
            .pure (by simp)
        · exact .pure (by simp)
      · exact .bind (.refl _) fun number => .bind (conditionCode_silences ctx cond) fun test =>
          .bind (stmtsCode_silences body) fun inner => .pure (by simp)
  | block body =>
      simp only [stmtCode]
      exact stmtsCode_silences body

theorem stmtsCode_silences (stmts : List Stmt) :
    Silences (stmtsCode ctx stmts) (stmtsCode ctx.quiet stmts) := by
  cases stmts with
  | nil =>
      simp only [stmtsCode]
      exact .pure rfl
  | cons stmt rest =>
      simp only [stmtsCode]
      exact .bind (stmtCode_silences stmt) fun first =>
        .bind (stmtsCode_silences rest) fun later => .pure (by simp)

end

private theorem bodyCode_silences (func : Func) (size : Nat) :
    Silences (bodyCode ctx func size) (bodyCode ctx.quiet func size) :=
  .bind (stmtsCode_silences ctx func.body) fun body =>
    .bind (exprCode_silences ctx func.result _) fun result => .pure (by simp)

end Constructs

section Programs

variable (folding : Bool) (facts : FactTable) (table : Table)

private theorem funcCode_silences (func : Func) :
    Silences (funcCode { folding, trace := true } facts table func)
      (funcCode { folding, trace := false } facts table func) := by
  unfold funcCode
  cases func.scope with
  | none => exact .throw _
  | some scope => exact bodyCode_silences _ func _

private theorem funcsCode_silences (funcs : List Func) :
    Silences (funcsCode { folding, trace := true } facts table funcs)
      (funcsCode { folding, trace := false } facts table funcs) := by
  induction funcs with
  | nil => exact .pure rfl
  | cons func rest ih =>
      exact .bind (funcCode_silences folding facts table func) fun first =>
        .bind ih fun later => .pure (by simp)

/-- Code without comments is the code with comments, but for the comments. -/
theorem generate_silences (program : Program) :
    generate { folding, trace := false } facts table program =
      (generate { folding, trace := true } facts table program).map
        fun (code, labels) => (code.uncommented, labels) := by
  rw [generate, generate, funcsCode_silences, StateT.run_map]
  cases (funcsCode { folding, trace := true } facts table program).run 0 with
  | error error => rfl
  | ok made => rfl

end Programs

end Wordlang.Asm
