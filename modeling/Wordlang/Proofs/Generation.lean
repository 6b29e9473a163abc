import Wordlang.Asm.Program

/-! # Shapes of generated code

Code generation hands out label numbers and may fail. `Gen.Makes` says that it
succeeds, with what, and up to which number. `ExprCode`, `StmtsCode` and the shapes
between them list what the code of expressions and statements can look like, with
everything that decides between the shapes; whoever reasons about generated code takes
them one by one and never looks at the generator again.
-/

namespace Wordlang.Asm

/-- Code generation that starts at a label number succeeds with some result, and the next
    free number is then another one. -/
def Gen.Makes {α : Type} (gen : Gen α) (n : Nat) (result : α) (n' : Nat) : Prop :=
  gen.run n = .ok (result, n')

namespace Gen

variable {α β : Type}

@[simp] theorem makes_pure (a b : α) (n n' : Nat) :
    Makes (pure a) n b n' ↔ a = b ∧ n = n' := by
  change (Except.ok (a, n) : Except CompileError (α × Nat)) = .ok (b, n') ↔ _
  simp only [Except.ok.injEq, Prod.mk.injEq]

@[simp] theorem makes_bind (gen : Gen α) (next : α → Gen β) (n : Nat) (b : β) (n'' : Nat) :
    Makes (gen >>= next) n b n'' ↔ ∃ a n', Makes gen n a n' ∧ Makes (next a) n' b n'' := by
  rw [Makes, StateT.run_bind]
  unfold Makes
  cases gen.run n with
  | error error => simp [bind, Except.bind]
  | ok made =>
      obtain ⟨a, n'⟩ := made
      simp [bind, Except.bind, and_assoc]

@[simp] theorem makes_throw (error : CompileError) (n : Nat) (a : α) (n' : Nat) :
    ¬ Makes (throw error) n a n' := by
  change ¬ (Except.error error : Except CompileError (α × Nat)) = .ok (a, n')
  simp only [reduceCtorEq, not_false_eq_true]

@[simp] theorem makes_newNumber (n number n' : Nat) :
    Makes newNumber n number n' ↔ number = n ∧ n' = n + 1 := by
  change (Except.ok (n, n + 1) : Except CompileError (Nat × Nat)) = .ok (number, n') ↔ _
  simp only [Except.ok.injEq, Prod.mk.injEq, eq_comm]

@[simp] theorem makes_find (ctx : Context) (name : String) (n : Nat) (symbol : Symbol) (n' : Nat) :
    Makes (ctx.find name) n symbol n' ↔ ctx.lookup name = some symbol ∧ n = n' := by
  unfold Context.find
  cases ctx.lookup name with
  | none => simp
  | some found => simp

theorem Makes.unique {gen : Gen α} {n : Nat} {a b : α} {m m' : Nat} (one : gen.Makes n a m)
    (other : gen.Makes n b m') : a = b ∧ m = m' :=
  Prod.mk.inj (Except.ok.inj (one.symm.trans other))

end Gen

/-- Operators on `%eax` and `%ebx` with the code that computes them, and the label numbers before
    and behind that code. -/
inductive BinaryCode : BinOp → Nat → Code → Nat → Prop where
  | plus {n} : BinaryCode .plus n [.instr (.arith .add (.reg .ebx) .eax)] n
  | minus {n} : BinaryCode .minus n [.instr (.arith .sub (.reg .ebx) .eax)] n
  | times {n} : BinaryCode .times n [.instr (.arith .imul (.reg .ebx) .eax)] n
  | div {n} : BinaryCode .div n [.instr .cdq, .instr (.idiv .ebx)] n
  | and {n} : BinaryCode .and n (truthValues ++ [.instr (.arith .and (.reg .ebx) .eax)]) n
  | or {n} : BinaryCode .or n (truthValues ++ [.instr (.arith .or (.reg .ebx) .eax)]) n
  | compared {op jump n} : op.isComparison = true →
      BinaryCode op n [.instr (.cmp (.reg .ebx) .eax), .instr (.jump jump (.holds op n)),
        .instr (.mov .plain (.imm 0) (.reg .eax)), .instr (.jump .always (.compared op n)),
        .label (.holds op n), .instr (.mov .plain (.imm 1) (.reg .eax)),
        .label (.compared op n)] (n + 1)

theorem binaryCode_makes {op n code n'} (h : (binaryCode op).Makes n code n') :
    BinaryCode op n code n' := by
  have compared : ∀ {jump : Jump}, op.isComparison = true →
      (comparisonCode op jump).Makes n code n' → BinaryCode op n code n' := by
    intro jump comparison h
    simp only [comparisonCode, Gen.makes_bind, Gen.makes_newNumber, Gen.makes_pure] at h
    obtain ⟨_, _, ⟨rfl, rfl⟩, rfl, rfl⟩ := h
    exact .compared comparison
  cases op with
  | plus | minus | times | div | and | or =>
      obtain ⟨rfl, rfl⟩ := (Gen.makes_pure _ _ _ _).mp h
      constructor
  | _ => exact compared rfl h

/-- The code of a result, whose sums are addresses, with the label numbers before and behind it. -/
inductive ResultCode (op : BinOp) (total : Address) (place : Place) (n : Nat) :
    Code → Nat → Prop where
  | sum : op = .plus → ResultCode op total place n (place.sum total) n
  | computed {code n'} : op ≠ .plus → (binaryCode op).Makes n code n' →
      ResultCode op total place n (code ++ place.store) n'

theorem resultCode_makes {op total place n code n'}
    (h : (resultCode op total place).Makes n code n') : ResultCode op total place n code n' := by
  unfold resultCode at h
  split at h
  · obtain ⟨rfl, rfl⟩ := (Gen.makes_pure _ _ _ _).mp h
    exact .sum rfl
  · next notSum =>
    simp only [Gen.makes_bind, Gen.makes_pure] at h
    obtain ⟨code, _, made, rfl, rfl⟩ := h
    exact .computed notSum made

/-- Expressions with the code that brings them to a place, and the label numbers before
    and behind that code. -/
inductive ExprCode (ctx : Context) : Expr → Place → Nat → Code → Nat → Prop where
  | known {e place n value} : ctx.known e = some value →
      ExprCode ctx e place n (place.immediate value) n
  | int {node value place n} : ctx.known (.int node value) = none →
      ExprCode ctx (.int node value) place n (place.immediate (.ofNat 32 value)) n
  | bool {node value place n} : ctx.known (.bool node value) = none →
      ExprCode ctx (.bool node value) place n (place.immediate (.ofBool value)) n
  | var {node name symbol place n} : ctx.known (.var node name) = none →
      ctx.lookup name = some symbol →
      ExprCode ctx (.var node name) place n (place.load symbol.slot) n
  | element {node name element symbol i place n} :
      ctx.known (.index node name element) = none → ctx.lookup name = some symbol →
      ctx.known element = some i →
      ExprCode ctx (.index node name element) place n (place.load (symbol.elementSlot i)) n
  | index {node name element symbol place n code n'} :
      ctx.known (.index node name element) = none → ctx.lookup name = some symbol →
      ctx.known element = none → ExprCode ctx element .ebx n code n' →
      ExprCode ctx (.index node name element) place n
        (code ++ place.load symbol.indexedSlot) n'
  | unary {node op operand place n code n'} : ctx.known (.unary node op operand) = none →
      ExprCode ctx operand .eax n code n' →
      ExprCode ctx (.unary node op operand) place n (code ++ unaryCode ctx op ++ place.store) n'
  | left {node op left right value place n code n' result n''} :
      ctx.known (.binary node op left right) = none → ctx.known left = some value →
      ExprCode ctx right .ebx n code n' →
      (resultCode op (.based value.toInt .ebx) place).Makes n' result n'' →
      ExprCode ctx (.binary node op left right) place n
        (ctx.note s!"{op.name}, left folded" ++ code ++ knownOperand op value .eax ++ result) n''
  | right {node op left right value place n code n' result n''} :
      ctx.known (.binary node op left right) = none → ctx.known left = none →
      ctx.known right = some value → ExprCode ctx left .eax n code n' →
      (resultCode op (.based value.toInt .eax) place).Makes n' result n'' →
      ExprCode ctx (.binary node op left right) place n
        (ctx.note s!"{op.name}, right folded" ++ code ++ knownOperand op value .ebx ++ result) n''
  | both {node op left right place n second n₁ first n₂ result n₃} :
      ctx.known (.binary node op left right) = none → ctx.known left = none →
      ctx.known right = none → ExprCode ctx right .stack n second n₁ →
      ExprCode ctx left .eax n₁ first n₂ →
      (resultCode op (.sum .eax .ebx) place).Makes n₂ result n₃ →
      ExprCode ctx (.binary node op left right) place n
        (ctx.note op.name ++ second ++ first ++ [.instr (.pop .ebx)] ++ result) n₃

/-- The code that is generated for an expression has one of the shapes. -/
theorem exprCode_makes {ctx e place n code n'} (h : (exprCode ctx e place).Makes n code n') :
    ExprCode ctx e place n code n' := by
  cases known : ctx.known e with
  | some value =>
      rw [exprCode.eq_def, known] at h
      obtain ⟨rfl, rfl⟩ := (Gen.makes_pure _ _ _ _).mp h
      exact .known known
  | none =>
      rw [exprCode.eq_def, known] at h
      cases e with
      | int =>
          obtain ⟨rfl, rfl⟩ := (Gen.makes_pure _ _ _ _).mp h
          exact .int known
      | bool =>
          obtain ⟨rfl, rfl⟩ := (Gen.makes_pure _ _ _ _).mp h
          exact .bool known
      | var =>
          simp only [Gen.makes_bind, Gen.makes_find, Gen.makes_pure] at h
          obtain ⟨symbol, _, ⟨found, rfl⟩, rfl, rfl⟩ := h
          exact .var known found
      | index _ _ element =>
          simp only [Gen.makes_bind, Gen.makes_find] at h
          obtain ⟨symbol, _, ⟨found, rfl⟩, h⟩ := h
          split at h
          · next knownElement =>
            obtain ⟨rfl, rfl⟩ := (Gen.makes_pure _ _ _ _).mp h
            exact .element known found knownElement
          · next unknownElement =>
            simp only [Gen.makes_bind, Gen.makes_pure] at h
            obtain ⟨inner, _, made, rfl, rfl⟩ := h
            exact .index known found unknownElement (exprCode_makes made)
      | unary _ _ operand =>
          simp only [Gen.makes_bind, Gen.makes_pure] at h
          obtain ⟨inner, _, made, rfl, rfl⟩ := h
          exact .unary known (exprCode_makes made)
      | binary _ _ left right =>
          simp only at h
          split at h
          · next knownLeft =>
            simp only [Gen.makes_bind, Gen.makes_pure] at h
            obtain ⟨operand, _, made, result, _, computed, rfl, rfl⟩ := h
            exact .left known knownLeft (exprCode_makes made) computed
          · next unknownLeft knownRight =>
            simp only [Gen.makes_bind, Gen.makes_pure] at h
            obtain ⟨operand, _, made, result, _, computed, rfl, rfl⟩ := h
            exact .right known unknownLeft knownRight (exprCode_makes made) computed
          · next unknownLeft unknownRight =>
            simp only [Gen.makes_bind, Gen.makes_pure] at h
            obtain ⟨second, _, made₂, first, _, made₁, result, _, computed, rfl, rfl⟩ := h
            exact .both known unknownLeft unknownRight (exprCode_makes made₂)
              (exprCode_makes made₁) computed
termination_by sizeOf e

/-- The code of a condition, with the label numbers before and behind it. -/
inductive ConditionCode (ctx : Context) (cond : Expr) (n : Nat) : Code → Nat → Prop where
  | compared {test n'} : ExprCode ctx cond .eax n test n' →
      ConditionCode ctx cond n (test ++ [.instr (.cmp (.imm 1) .eax)]) n'

theorem conditionCode_makes {ctx cond n code n'}
    (h : (conditionCode ctx cond).Makes n code n') : ConditionCode ctx cond n code n' := by
  simp only [conditionCode, Gen.makes_bind, Gen.makes_pure] at h
  obtain ⟨test, _, made, rfl, rfl⟩ := h
  exact .compared (exprCode_makes made)

/-- Arguments with the code that pushes them, and the label numbers before and behind it. -/
inductive ArgsCode (ctx : Context) : List Expr → Nat → Code → Nat → Prop where
  | nil {n} : ArgsCode ctx [] n [] n
  | cons {arg rest n later n₁ own n'} : ArgsCode ctx rest n later n₁ →
      ExprCode ctx arg .stack n₁ own n' → ArgsCode ctx (arg :: rest) n (later ++ own) n'

private theorem argsCode_makes {ctx args n code n'} (h : (argsCode ctx args).Makes n code n') :
    ArgsCode ctx args n code n' := by
  induction args generalizing code n' with
  | nil =>
      obtain ⟨rfl, rfl⟩ := (Gen.makes_pure _ _ _ _).mp h
      exact .nil
  | cons arg rest ih =>
      simp only [argsCode, Gen.makes_bind, Gen.makes_pure] at h
      obtain ⟨later, _, pushed, own, _, made, rfl, rfl⟩ := h
      exact .cons (ih pushed) (exprCode_makes made)

/-- The code of a call, with the label numbers before and behind it. -/
inductive CallCode (ctx : Context) (callee : String) (args : List Expr) (n : Nat) :
    Code → Nat → Prop where
  | called {symbol params pushes n'} : ctx.lookup callee = some symbol →
      symbol.params? = some params → ArgsCode ctx args n pushes n' →
      CallCode ctx callee args n
        (ctx.note s!"call {callee}" ++ pushes ++ [.instr (.call (.function callee))]) n'

theorem callCode_makes {ctx callee args n code n'}
    (h : (callCode ctx callee args).Makes n code n') : CallCode ctx callee args n code n' := by
  simp only [callCode, Gen.makes_bind, Gen.makes_find] at h
  obtain ⟨symbol, _, ⟨found, rfl⟩, h⟩ := h
  split at h
  · exact absurd h (Gen.makes_throw _ _ _ _)
  · next params isFunc =>
    simp only [Gen.makes_bind, Gen.makes_pure] at h
    obtain ⟨pushes, _, pushed, rfl, rfl⟩ := h
    exact .called found isFunc (argsCode_makes pushed)

/-- The code that stores a value in a variable, with the label numbers before and behind it. -/
inductive AssignCode (ctx : Context) (slot : Address) (value : Expr) (n : Nat) :
    Code → Nat → Prop where
  | known {v} : ctx.known value = some v → AssignCode ctx slot value n (storeWord v slot) n
  | computed {code n'} : ctx.known value = none → ExprCode ctx value .eax n code n' →
      AssignCode ctx slot value n (code ++ storeEax slot) n'

theorem assignCode_makes {ctx slot value n code n'}
    (h : (assignCode ctx slot value).Makes n code n') : AssignCode ctx slot value n code n' := by
  unfold assignCode at h
  split at h
  · next known =>
    obtain ⟨rfl, rfl⟩ := (Gen.makes_pure _ _ _ _).mp h
    exact .known known
  · next unknown =>
    simp only [Gen.makes_bind, Gen.makes_pure] at h
    obtain ⟨computed, _, made, rfl, rfl⟩ := h
    exact .computed unknown (exprCode_makes made)

/-- The code that stores a value in an element, with the label numbers before and behind it. -/
inductive AssignIndexCode (ctx : Context) (symbol : Symbol) (index value : Expr) (n : Nat) :
    Code → Nat → Prop where
  | known {i v} : ctx.known index = some i → ctx.known value = some v →
      AssignIndexCode ctx symbol index value n (storeWord v (symbol.elementSlot i)) n
  | content {i code n'} : ctx.known index = some i → ctx.known value = none →
      ExprCode ctx value .eax n code n' →
      AssignIndexCode ctx symbol index value n (code ++ storeEax (symbol.elementSlot i)) n'
  | place {v code n'} : ctx.known index = none → ctx.known value = some v →
      ExprCode ctx index .ebx n code n' →
      AssignIndexCode ctx symbol index value n (code ++ storeWord v symbol.indexedSlot) n'
  | both {place n₁ content n'} : ctx.known index = none → ctx.known value = none →
      ExprCode ctx index .stack n place n₁ → ExprCode ctx value .eax n₁ content n' →
      AssignIndexCode ctx symbol index value n
        (place ++ content ++ [.instr (.pop .ebx)] ++ storeEax symbol.indexedSlot) n'

theorem assignIndexCode_makes {ctx symbol index value n code n'}
    (h : (assignIndexCode ctx symbol index value).Makes n code n') :
    AssignIndexCode ctx symbol index value n code n' := by
  unfold assignIndexCode at h
  split at h
  · next knownIndex known =>
    obtain ⟨rfl, rfl⟩ := (Gen.makes_pure _ _ _ _).mp h
    exact .known knownIndex known
  · next knownIndex unknown =>
    simp only [Gen.makes_bind, Gen.makes_pure] at h
    obtain ⟨content, _, made, rfl, rfl⟩ := h
    exact .content knownIndex unknown (exprCode_makes made)
  · next unknownIndex known =>
    simp only [Gen.makes_bind, Gen.makes_pure] at h
    obtain ⟨place, _, made, rfl, rfl⟩ := h
    exact .place unknownIndex known (exprCode_makes made)
  · next unknownIndex unknown =>
    simp only [Gen.makes_bind, Gen.makes_pure] at h
    obtain ⟨place, _, madeIndex, content, _, made, rfl, rfl⟩ := h
    exact .both unknownIndex unknown (exprCode_makes madeIndex) (exprCode_makes made)

/-- The code that stores the result of a call in an element, with the label numbers before and
    behind it. -/
inductive CallIndexCode (ctx : Context) (symbol : Symbol) (index : Expr) (callee : String)
    (args : List Expr) (n : Nat) : Code → Nat → Prop where
  | known {i call n'} : ctx.known index = some i → (callCode ctx callee args).Makes n call n' →
      CallIndexCode ctx symbol index callee args n
        (call ++ release (args.length * wordSize) ++ storeEax (symbol.elementSlot i)) n'
  | computed {place n₁ call n'} : ctx.known index = none → ExprCode ctx index .stack n place n₁ →
      (callCode ctx callee args).Makes n₁ call n' →
      CallIndexCode ctx symbol index callee args n
        (place ++ call ++ release (args.length * wordSize) ++ [.instr (.pop .ebx)] ++
          storeEax symbol.indexedSlot) n'

theorem callIndexCode_makes {ctx symbol index callee args n code n'}
    (h : (callIndexCode ctx symbol index callee args).Makes n code n') :
    CallIndexCode ctx symbol index callee args n code n' := by
  unfold callIndexCode at h
  split at h
  · next known =>
    simp only [Gen.makes_bind, Gen.makes_pure] at h
    obtain ⟨call, _, called, rfl, rfl⟩ := h
    exact .known known called
  · next unknown =>
    simp only [Gen.makes_bind, Gen.makes_pure] at h
    obtain ⟨place, _, made, call, _, called, rfl, rfl⟩ := h
    exact .computed unknown (exprCode_makes made) called

/-- Statements with their code, and the label numbers before and behind that code. -/
inductive StmtsCode (ctx : Context) : List Stmt → Nat → Code → Nat → Prop where
  | nil {n} : StmtsCode ctx [] n [] n
  | assign {target symbol value rest n code n₁ later n'} :
      ctx.lookup target = some symbol → (assignCode ctx symbol.slot value).Makes n code n₁ →
      StmtsCode ctx rest n₁ later n' →
      StmtsCode ctx (.assign target value :: rest) n
        (ctx.note s!"assign {target}" ++ code ++ later) n'
  | assignIndex {target symbol index value rest n code n₁ later n'} :
      ctx.lookup target = some symbol →
      (assignIndexCode ctx symbol index value).Makes n code n₁ →
      StmtsCode ctx rest n₁ later n' →
      StmtsCode ctx (.assignIndex target index value :: rest) n
        (ctx.note s!"assign {target}[]" ++ code ++ later) n'
  | call {line target symbol callee args rest n code n₁ later n'} :
      ctx.lookup target = some symbol → (callCode ctx callee args).Makes n code n₁ →
      StmtsCode ctx rest n₁ later n' →
      StmtsCode ctx (.call line target callee args :: rest) n
        (code ++ storeEax symbol.slot ++ release (args.length * wordSize) ++ later) n'
  | callIndex {line target symbol index callee args rest n code n₁ later n'} :
      ctx.lookup target = some symbol →
      (callIndexCode ctx symbol index callee args).Makes n code n₁ →
      StmtsCode ctx rest n₁ later n' →
      StmtsCode ctx (.callIndex line target index callee args :: rest) n (code ++ later) n'
  | whenTrue {cond body rest n inner n₁ later n'} : ctx.known cond = some 1 →
      StmtsCode ctx body n inner n₁ → StmtsCode ctx rest n₁ later n' →
      StmtsCode ctx (.when cond body :: rest) n
        (ctx.note "if folded to true" ++ inner ++ later) n'
  | whenFalse {cond value body rest n later n'} : ctx.known cond = some value → value ≠ 1 →
      StmtsCode ctx rest n later n' →
      StmtsCode ctx (.when cond body :: rest) n
        (ctx.note "if folded to false, body eliminated" ++ later) n'
  | when {cond body rest n test n₁ inner n₂ later n'} : ctx.known cond = none →
      (conditionCode ctx cond).Makes (n + 1) test n₁ → StmtsCode ctx body n₁ inner n₂ →
      StmtsCode ctx rest n₂ later n' →
      StmtsCode ctx (.when cond body :: rest) n
        (test ++ [.instr (.jump .notEqual (.whenDone n))] ++ inner ++ [.label (.whenDone n)] ++
          later) n'
  | chooseTrue {cond thens elses rest n inner n₁ later n'} : ctx.known cond = some 1 →
      StmtsCode ctx thens n inner n₁ → StmtsCode ctx rest n₁ later n' →
      StmtsCode ctx (.choose cond thens elses :: rest) n
        (ctx.note "if/else folded to true" ++ inner ++ later) n'
  | chooseFalse {cond value thens elses rest n inner n₁ later n'} :
      ctx.known cond = some value → value ≠ 1 →
      StmtsCode ctx elses n inner n₁ → StmtsCode ctx rest n₁ later n' →
      StmtsCode ctx (.choose cond thens elses :: rest) n
        (ctx.note "if/else folded to false" ++ inner ++ later) n'
  | choose {cond thens elses rest n test n₁ first n₂ second n₃ later n'} :
      ctx.known cond = none → (conditionCode ctx cond).Makes (n + 2) test n₁ →
      StmtsCode ctx thens n₁ first n₂ → StmtsCode ctx elses n₂ second n₃ →
      StmtsCode ctx rest n₃ later n' →
      StmtsCode ctx (.choose cond thens elses :: rest) n
        (test ++ [.instr (.jump .notEqual (.otherwise n))] ++ first ++
          [.instr (.jump .always (.chooseDone (n + 1))), .label (.otherwise n)] ++ second ++
          [.label (.chooseDone (n + 1))] ++ later) n'
  | loopTrue {cond body rest n inner n₁ later n'} : ctx.known cond = some 1 →
      StmtsCode ctx body (n + 1) inner n₁ → StmtsCode ctx rest n₁ later n' →
      StmtsCode ctx (.loop cond body :: rest) n
        (ctx.note "while folded to true" ++ [.label (.loop n)] ++ inner ++
          [.instr (.jump .always (.loop n))] ++ later) n'
  | loopFalse {cond value body rest n later n'} : ctx.known cond = some value → value ≠ 1 →
      StmtsCode ctx rest n later n' →
      StmtsCode ctx (.loop cond body :: rest) n
        (ctx.note "while folded to false, loop eliminated" ++ later) n'
  | loop {cond body rest n test n₁ inner n₂ later n'} : ctx.known cond = none →
      (conditionCode ctx cond).Makes (n + 1) test n₁ → StmtsCode ctx body n₁ inner n₂ →
      StmtsCode ctx rest n₂ later n' →
      StmtsCode ctx (.loop cond body :: rest) n
        ([.label (.loop n)] ++ test ++ [.instr (.jump .notEqual (.loopDone n))] ++ inner ++
          [.instr (.jump .always (.loop n)), .label (.loopDone n)] ++ later) n'
  | block {body rest n inner n₁ later n'} :
      StmtsCode ctx body n inner n₁ → StmtsCode ctx rest n₁ later n' →
      StmtsCode ctx (.block body :: rest) n (inner ++ later) n'

/-- The code that is generated for statements has one of the shapes. -/
theorem stmtsCode_makes {ctx stmts n code n'} (h : (stmtsCode ctx stmts).Makes n code n') :
    StmtsCode ctx stmts n code n' := by
  cases stmts with
  | nil =>
      obtain ⟨rfl, rfl⟩ := (Gen.makes_pure _ _ _ _).mp (by simpa only [stmtsCode] using h)
      exact .nil
  | cons stmt rest =>
      simp only [stmtsCode, Gen.makes_bind, Gen.makes_pure] at h
      obtain ⟨first, n₁, h, later, _, made, rfl, rfl⟩ := h
      have rest := stmtsCode_makes made
      cases stmt with
      | assign target value =>
          simp only [stmtCode, Gen.makes_bind, Gen.makes_find, Gen.makes_pure] at h
          obtain ⟨symbol, _, ⟨found, rfl⟩, _, _, stored, rfl, rfl⟩ := h
          exact .assign found stored rest
      | assignIndex target index value =>
          simp only [stmtCode, Gen.makes_bind, Gen.makes_find, Gen.makes_pure] at h
          obtain ⟨symbol, _, ⟨found, rfl⟩, _, _, stored, rfl, rfl⟩ := h
          exact .assignIndex found stored rest
      | call line target callee args =>
          simp only [stmtCode, Gen.makes_bind, Gen.makes_find, Gen.makes_pure] at h
          obtain ⟨symbol, _, ⟨found, rfl⟩, _, _, called, rfl, rfl⟩ := h
          exact .call found called rest
      | callIndex line target index callee args =>
          simp only [stmtCode, Gen.makes_bind, Gen.makes_find] at h
          obtain ⟨symbol, _, ⟨found, rfl⟩, called⟩ := h
          exact .callIndex found called rest
      | when cond body =>
          simp only [stmtCode] at h
          split at h
          · next value known =>
            split at h
            · next isTrue =>
              simp only [Gen.makes_bind, Gen.makes_pure] at h
              obtain ⟨_, _, inner, rfl, rfl⟩ := h
              exact .whenTrue (isTrue ▸ known) (stmtsCode_makes inner) rest
            · next isFalse =>
              obtain ⟨rfl, rfl⟩ := (Gen.makes_pure _ _ _ _).mp h
              exact .whenFalse known isFalse rest
          · next unknown =>
            simp only [Gen.makes_bind, Gen.makes_newNumber, Gen.makes_pure] at h
            obtain ⟨_, _, ⟨rfl, rfl⟩, _, _, test, _, _, inner, rfl, rfl⟩ := h
            exact .when unknown test (stmtsCode_makes inner) rest
      | choose cond thens elses =>
          simp only [stmtCode] at h
          split at h
          · next value known =>
            split at h
            · next isTrue =>
              simp only [Gen.makes_bind, Gen.makes_pure] at h
              obtain ⟨_, _, inner, rfl, rfl⟩ := h
              exact .chooseTrue (isTrue ▸ known) (stmtsCode_makes inner) rest
            · next isFalse =>
              simp only [Gen.makes_bind, Gen.makes_pure] at h
              obtain ⟨_, _, inner, rfl, rfl⟩ := h
              exact .chooseFalse known isFalse (stmtsCode_makes inner) rest
          · next unknown =>
            simp only [Gen.makes_bind, Gen.makes_newNumber, Gen.makes_pure] at h
            obtain ⟨_, _, ⟨rfl, rfl⟩, _, _, ⟨rfl, rfl⟩, _, _, test, _, _, inner, _, _, other,
              rfl, rfl⟩ := h
            exact .choose unknown test (stmtsCode_makes inner) (stmtsCode_makes other) rest
      | loop cond body =>
          simp only [stmtCode] at h
          split at h
          · next value known =>
            split at h
            · next isTrue =>
              simp only [Gen.makes_bind, Gen.makes_newNumber, Gen.makes_pure] at h
              obtain ⟨_, _, ⟨rfl, rfl⟩, _, _, inner, rfl, rfl⟩ := h
              exact .loopTrue (isTrue ▸ known) (stmtsCode_makes inner) rest
            · next isFalse =>
              obtain ⟨rfl, rfl⟩ := (Gen.makes_pure _ _ _ _).mp h
              exact .loopFalse known isFalse rest
          · next unknown =>
            simp only [Gen.makes_bind, Gen.makes_newNumber, Gen.makes_pure] at h
            obtain ⟨_, _, ⟨rfl, rfl⟩, _, _, test, _, _, inner, rfl, rfl⟩ := h
            exact .loop unknown test (stmtsCode_makes inner) rest
      | block body =>
          simp only [stmtCode] at h
          exact .block (stmtsCode_makes h) rest
termination_by sizeOf stmts

/-- What a function does between its label and its return. -/
def innerCode (ctx : Context) (params size : Nat) (body result : Code) : Code :=
  [.instr (.push .plain (.reg .ebp)), .instr (.mov .plain (.reg .esp) (.reg .ebp)),
    .instr (.push .plain (.reg .ebx)), .instr (.push .plain (.reg .esi)),
    .instr (.push .plain (.reg .edi))] ++
    argumentsCode params ++
    (if size - params * wordSize = 0 then []
      else [.instr (.arith .sub (.imm (size - params * wordSize : Nat)) .esp)]) ++
    body ++ ctx.note "return" ++ result ++ ctx.note "epilogue" ++
    release (params * wordSize + (size - params * wordSize)) ++
    [.instr (.pop .edi), .instr (.pop .esi), .instr (.pop .ebx), .instr .leave]

/-- A function whose scope takes so many bytes, with what it does between its label and its
    return, and the label numbers before and behind that code. -/
inductive FuncCode (ctx : Context) (func : Func) (size : Nat) : Nat → Code → Nat → Prop where
  | mk {n body n₁ result n'} : StmtsCode ctx func.body n body n₁ →
      ExprCode ctx func.result .eax n₁ result n' →
      FuncCode ctx func size n (innerCode ctx func.params.length size body result) n'

/-- Functions with their code, and the label numbers before and behind that code. -/
inductive FuncsCode (options : Options) (facts : FactTable) (table : Table) :
    List Func → Nat → Code → Nat → Prop where
  | nil {n} : FuncsCode options facts table [] n [] n
  | cons (text : String) {func rest scope n inner n₁ later n'} : func.scope = some scope →
      FuncCode (.ofScope options facts table scope) func (table.scopeSize scope) n inner n₁ →
      FuncsCode options facts table rest n₁ later n' →
      FuncsCode options facts table (func :: rest) n
        (Context.note (.ofScope options facts table scope) text ++ entryLabels func.name ++ inner ++
          [.instr .ret] ++ later) n'

/-- A function starts with a comment, its labels and what it does first. -/
theorem prologue_eq (ctx : Context) (name : String) (locals params : Nat) : ∃ text,
    prologue ctx name locals params = ctx.note text ++ entryLabels name ++
      [.instr (.push .plain (.reg .ebp)), .instr (.mov .plain (.reg .esp) (.reg .ebp)),
        .instr (.push .plain (.reg .ebx)), .instr (.push .plain (.reg .esi)),
        .instr (.push .plain (.reg .edi))] ++
      argumentsCode params ++
      if locals = 0 then [] else [.instr (.arith .sub (.imm locals) .esp)] :=
  ⟨_, rfl⟩

theorem funcsCode_makes {options facts table funcs n code n'}
    (h : (funcsCode options facts table funcs).Makes n code n') :
    FuncsCode options facts table funcs n code n' := by
  induction funcs generalizing n code with
  | nil =>
      obtain ⟨rfl, rfl⟩ := (Gen.makes_pure _ _ _ _).mp h
      exact .nil
  | cons func rest ih =>
      simp only [funcsCode, Gen.makes_bind, Gen.makes_pure] at h
      obtain ⟨_, _, first, _, _, later, rfl, rfl⟩ := h
      unfold funcCode at first
      split at first
      · exact absurd first (Gen.makes_throw _ _ _ _)
      · next scope known =>
        simp only [bodyCode, Gen.makes_bind, Gen.makes_pure] at first
        obtain ⟨body, _, madeBody, result, _, madeResult, rfl, rfl⟩ := first
        obtain ⟨text, start⟩ := prologue_eq (.ofScope options facts table scope) func.name
          (table.scopeSize scope - func.params.length * wordSize) func.params.length
        have parts := FuncsCode.cons text known
          (.mk (stmtsCode_makes madeBody) (exprCode_makes madeResult)) (ih later)
        unfold Context.ofScope at *
        rw [start]
        simpa [innerCode, epilogue] using parts

/-- The code of a program is the code of its functions behind the header. -/
theorem generate_makes {options facts table program code labels}
    (h : generate options facts table program = .ok (code, labels)) :
    ∃ body, code = header ++ body ∧
      (funcsCode options facts table program).Makes 0 body labels := by
  unfold generate at h
  cases made : (funcsCode options facts table program).run 0 with
  | error error => simp [made, bind, Except.bind] at h
  | ok result =>
      obtain ⟨body, last⟩ := result
      simp only [made, bind, Except.bind, pure, Except.pure, Except.ok.injEq, Prod.mk.injEq] at h
      obtain ⟨rfl, rfl⟩ := h
      exact ⟨body, rfl, made⟩

theorem generate_eq_ok {options facts table program code labels}
    (h : generate options facts table program = .ok (code, labels)) :
    ∃ body, code = header ++ body ∧ FuncsCode options facts table program 0 body labels := by
  obtain ⟨body, rfl, made⟩ := generate_makes h
  exact ⟨body, rfl, funcsCode_makes made⟩

end Wordlang.Asm
