import Wordlang.Asm.Live
import Wordlang.Asm.Number
import Wordlang.Proofs.Jumps
import Wordlang.Proofs.Layout
import Wordlang.Proofs.Propagation

/-! # Numbers that fit

Constants of a program are words, but sizes of frames are not bounded by anything, and neither
are indices that are known. So numbers in the code fit exactly as far as frames and known
indices do: the farthest word of a frame has a displacement that fits, and the elements with
known indices are not farther away.
-/

namespace Wordlang

namespace Asm

theorem fitsWord_toInt (value : Word) : FitsWord value.toInt := by
  have low := BitVec.le_toInt value
  have high := @BitVec.toInt_lt 32 value
  unfold FitsWord
  omega

def Address.Fits (address : Address) : Prop :=
  ∀ number, address.displacement? = some number → FitsWord number

attribute [simp] Instr.operands

@[simp] def Operand.imm? : Operand → Option Int
  | imm value => some value
  | _ => none

/-- The numbers in a line that do not belong to places in memory. -/
@[simp] def Line.constants : Line → List Int
  | instr (.leal source _) => source.displacement?.toList
  | instr op => op.operands.filterMap Operand.imm?
  | _ => []

def Constant (piece : Code) : Prop := ∀ line ∈ piece, ∀ number ∈ line.constants, FitsWord number

/-- An address that an instruction names is a place that it reaches, unless only the address
    is loaded. -/
theorem Instr.mem_addresses {op : Instr} {address : Address} (mem : .mem address ∈ op.operands) :
    address ∈ (Line.instr op).addresses ∨ ∃ dest, op = .leal address dest := by
  cases op with
  | push _ source | arith _ source | cmp source =>
      obtain rfl := List.mem_singleton.mp mem
      exact .inl (by simp)
  | mov _ source dest =>
      obtain rfl | mem := List.mem_cons.mp mem
      · exact .inl (by simp)
      · obtain rfl := List.mem_singleton.mp mem
        exact .inl (by simp)
  | leal source dest =>
      cases List.mem_singleton.mp mem
      exact .inr ⟨dest, rfl⟩
  | _ => exact absurd mem List.not_mem_nil

theorem Instr.mem_constants {op : Instr} {value : Int} (mem : .imm value ∈ op.operands) :
    value ∈ (Line.instr op).constants := by
  have own : value ∈ op.operands.filterMap Operand.imm? := List.mem_filterMap.mpr ⟨_, mem, rfl⟩
  cases op with
  | leal => cases List.mem_singleton.mp mem
  | _ => exact own

theorem Line.mem_numbers {line : Line} {number : Int} (mem : number ∈ line.numbers) :
    number ∈ line.constants ∨ ∃ address ∈ line.addresses, address.displacement? = some number := by
  cases line with
  | instr op =>
      obtain ⟨operand, isOperand, found⟩ := List.mem_filterMap.mp mem
      cases operand with
      | reg => cases found
      | imm value =>
          cases found
          exact .inl (Instr.mem_constants isOperand)
      | mem address =>
          obtain reached | ⟨dest, rfl⟩ := Instr.mem_addresses isOperand
          · exact .inr ⟨address, reached, found⟩
          · exact .inl (Option.mem_toList.mpr found)
  | _ => exact absurd mem List.not_mem_nil

section Constant

variable (ctx : Context) (place : Place) (value : Word) (address : Address) (first second : Code)

@[simp] theorem constant_nil : Constant [] := List.forall_mem_nil _

@[simp] theorem constant_append :
    Constant (first ++ second) ↔ Constant first ∧ Constant second := List.forall_mem_append

@[simp] theorem constant_cons (line : Line) (rest : Code) :
    Constant (line :: rest) ↔ (∀ number ∈ line.constants, FitsWord number) ∧ Constant rest :=
  List.forall_mem_cons

@[simp] theorem constant_note (text : String) : Constant (ctx.note text) := by
  unfold Context.note
  split <;> simp

@[simp] theorem constant_immediate : Constant (place.immediate value) := by
  cases place <;>
    simp [Place.immediate, fitsWord_toInt]

@[simp] theorem constant_load : Constant (place.load address) := by
  cases place <;> simp [Place.load]

@[simp] theorem constant_store : Constant place.store := by
  cases place <;> simp [Place.store]

@[simp] theorem constant_unaryCode (op : UnOp) : Constant (unaryCode ctx op) := by
  cases op <;> simp [unaryCode]

@[simp] theorem constant_truthValues : Constant truthValues := by
  simp [truthValues]

@[simp] theorem constant_knownOperand (op : BinOp) (reg : Reg) :
    Constant (knownOperand op value reg) := by
  unfold knownOperand
  split <;> simp [fitsWord_toInt]

@[simp] theorem constant_storeEax : Constant (storeEax address) := by
  simp [storeEax]

@[simp] theorem constant_storeWord : Constant (storeWord value address) := by
  simp [storeWord, fitsWord_toInt]

@[simp] theorem constant_argumentsCode (params : Nat) : Constant (argumentsCode params) := by
  simp [Constant, argumentsCode]

@[simp] theorem constant_entryLabels (name : String) : Constant (entryLabels name) := by
  unfold entryLabels
  split <;> simp

theorem constant_release {bytes : Nat} (fits : bytes < 2 ^ 32) : Constant (release bytes) := by
  unfold release
  split
  · exact constant_nil
  · simp [FitsWord]
    omega

variable {ctx place first} {n n' : Nat}

private theorem constant_sum {total : Address} (fits : total.Fits) : Constant
    (place.sum total) := by
  cases place <;>
    simpa [Place.sum, Address.Fits] using fits

private theorem binaryCode_constant {op : BinOp} (made : (binaryCode op).Makes n first n') :
    Constant first := by
  cases binaryCode_makes made with
  | plus | minus | times | div | and | or => simp
  | compared => simp [FitsWord]

theorem resultCode_constant {op : BinOp} {total : Address} (fits : total.Fits)
    (made : (resultCode op total place).Makes n first n') : Constant first := by
  cases resultCode_makes made with
  | sum => exact constant_sum fits
  | computed _ computes => simp [binaryCode_constant computes]

theorem ExprCode.constant {e} (shape : ExprCode ctx e place n first n') : Constant first := by
  have based : ∀ (value : Word) (reg : Reg), (Address.based value.toInt reg).Fits := by
    rintro value reg _ ⟨⟩
    exact fitsWord_toInt value
  have sum : (Address.sum .eax .ebx).Fits := by simp [Address.Fits, Address.displacement?]
  induction shape with
  | known | int | bool | var | element => simp
  | index _ _ _ _ ih | unary _ _ ih => simp [ih]
  | left _ _ _ made ih | right _ _ _ _ made ih =>
      simp [ih, resultCode_constant (based _ _) made]
  | both _ _ _ _ _ made second first =>
      simp [second, first, resultCode_constant sum made]

theorem conditionCode_constant {cond : Expr} (made : (conditionCode ctx cond).Makes n first n') :
    Constant first := by
  obtain ⟨made⟩ := conditionCode_makes made
  simp [made.constant, FitsWord]

theorem ArgsCode.constant {args} (shape : ArgsCode ctx args n first n') : Constant first := by
  induction shape with
  | nil => exact constant_nil
  | cons _ made ih => simp [ih, made.constant]

theorem callCode_constant {callee : String} {args : List Expr}
    (made : (callCode ctx callee args).Makes n first n') : Constant first := by
  obtain ⟨_, _, pushed⟩ := callCode_makes made
  simp [pushed.constant]

private theorem assignCode_constant {slot : Address} {value : Expr}
    (made : (assignCode ctx slot value).Makes n first n') : Constant first := by
  cases assignCode_makes made with
  | known => simp
  | computed _ made => simp [made.constant]

private theorem assignIndexCode_constant {symbol : Symbol} {index value : Expr}
    (made : (assignIndexCode ctx symbol index value).Makes n first n') : Constant first := by
  cases assignIndexCode_makes made with
  | known => simp
  | content _ _ made | place _ _ made => simp [made.constant]
  | both _ _ madeIndex made => simp [madeIndex.constant, made.constant]

private theorem callIndexCode_constant {symbol : Symbol} {index : Expr} {callee : String}
    {args : List Expr} (fits : args.length * wordSize < 2 ^ 32)
    (made : (callIndexCode ctx symbol index callee args).Makes n first n') : Constant first := by
  cases callIndexCode_makes made with
  | known _ called => simp [callCode_constant called, constant_release fits]
  | computed _ madeIndex called =>
      simp [madeIndex.constant, callCode_constant called, constant_release fits]

theorem then_eq_ok {x : Except CompileError Unit} {next : Unit → Except CompileError Unit} :
    (x >>= next) = .ok () ↔ x = .ok () ∧ next () = .ok () :=
  bind_eq_ok.trans ⟨fun ⟨_, first, second⟩ => ⟨first, second⟩, fun both => ⟨(), both⟩⟩

/-- The constants in the code of checked statements are values of a word, and bytes of the
    arguments of functions. -/
theorem StmtsCode.constant {stmts} (shape : StmtsCode ctx stmts n first n')
    (checked : Stmt.checkAll ctx.lookup stmts = .ok ())
    (fits : ∀ name symbol params, ctx.lookup name = some symbol → symbol.params? = some params →
      params * wordSize < 2 ^ 32) : Constant first := by
  have args : ∀ {name count line}, ctx.lookup.callee name count line = .ok () →
      count * wordSize < 2 ^ 32 := by
    intro name count line called
    obtain ⟨symbol, found, isFunc⟩ := Lookup.callee_eq_ok.mp called
    exact fits name symbol count found isFunc
  induction shape with
  | nil => exact constant_nil
  | assign _ made _ ih =>
      obtain ⟨-, later⟩ := then_eq_ok.mp checked
      simp [assignCode_constant made, ih later]
  | assignIndex _ made _ ih =>
      obtain ⟨-, later⟩ := then_eq_ok.mp checked
      simp [assignIndexCode_constant made, ih later]
  | call _ made _ ih =>
      simp only [Stmt.checkAll, Stmt.check, then_eq_ok] at checked
      obtain ⟨⟨-, called, -⟩, later⟩ := checked
      simp [callCode_constant made, constant_release (args called), ih later]
  | callIndex _ made _ ih =>
      simp only [Stmt.checkAll, Stmt.check, then_eq_ok] at checked
      obtain ⟨⟨-, -, called, -⟩, later⟩ := checked
      simp [callIndexCode_constant (args called) made, ih later]
  | whenFalse _ _ _ ih | loopFalse _ _ _ ih =>
      obtain ⟨-, later⟩ := then_eq_ok.mp checked
      simp [ih later]
  | whenTrue _ _ _ inner ih | loopTrue _ _ _ inner ih =>
      simp only [Stmt.checkAll, Stmt.check, then_eq_ok] at checked
      obtain ⟨⟨-, body⟩, later⟩ := checked
      simp [inner body, ih later]
  | when _ made _ _ inner ih | loop _ made _ _ inner ih =>
      simp only [Stmt.checkAll, Stmt.check, then_eq_ok] at checked
      obtain ⟨⟨-, body⟩, later⟩ := checked
      simp [conditionCode_constant made, inner body, ih later]
  | chooseTrue _ _ _ inner ih =>
      simp only [Stmt.checkAll, Stmt.check, then_eq_ok] at checked
      obtain ⟨⟨-, thens, -⟩, later⟩ := checked
      simp [inner thens, ih later]
  | chooseFalse _ _ _ _ inner ih =>
      simp only [Stmt.checkAll, Stmt.check, then_eq_ok] at checked
      obtain ⟨⟨-, -, elses⟩, later⟩ := checked
      simp [inner elses, ih later]
  | choose _ made _ _ _ inner inner' ih =>
      simp only [Stmt.checkAll, Stmt.check, then_eq_ok] at checked
      obtain ⟨⟨-, thens, elses⟩, later⟩ := checked
      simp [conditionCode_constant made, inner thens, inner' elses, ih later]
  | block _ _ inner ih =>
      simp only [Stmt.checkAll, Stmt.check, then_eq_ok] at checked
      obtain ⟨own, later⟩ := checked
      simp [inner own, ih later]

end Constant

private theorem mem_addresses_argumentsCode {params : Nat} {address : Address}
    (mem : address ∈ Code.addresses (argumentsCode params)) :
    ∃ k < params, address = .based (frameBefore + k * wordSize : Nat) .ebp := by
  obtain ⟨line, inCode, mem⟩ := List.mem_flatMap.mp mem
  obtain ⟨k, bound, rfl⟩ := List.mem_map.mp inCode
  exact ⟨k, List.mem_range.mp bound, List.mem_singleton.mp mem⟩

@[simp] theorem addresses_entryLabels (name : String) : Code.addresses (entryLabels name) = [] := by
  unfold entryLabels
  split <;> rfl

private theorem addresses_innerCode (ctx : Context) (params size : Nat) (body result : Code) :
    Code.addresses (innerCode ctx params size body result) =
      Code.addresses (argumentsCode params) ++ (body.addresses ++ result.addresses) := by
  unfold innerCode
  split <;> simp

theorem encodable_of_addresses {code : Code} (constant : Constant code)
    (near : ∀ address ∈ code.addresses, address.Fits) : code.Encodable := by
  intro line mem number isNumber
  obtain isConstant | ⟨address, reached, found⟩ := Line.mem_numbers isNumber
  · exact constant line mem number isConstant
  · exact near address (List.mem_flatMap.mpr ⟨line, mem, reached⟩) number found

end Asm

open Asm

theorem Use.Near.mono {known known' : Expr → Option Word} {size : Nat} {use : Use}
    (near : use.Near known size) (less : ∀ e value, known' e = some value → known e = some value) :
    use.Near known' size := by
  cases use with
  | scalar => trivial
  | element _ index => exact fun value isKnown => near value (less index value isKnown)

theorem Asm.Context.facts_known {ctx : Context} {e : Expr} {value : Word}
    (known : ctx.known e = some value) : ctx.facts.known e = some value := by
  unfold Context.known at known
  split at known
  · exact known
  · cases known

namespace Func

variable {program : Program} {func : Func} (checks : func.Checks program)

include checks

theorem Checks.exists_within {name : String} {type : Ty} (mem : (name, type) ∈ func.typing) :
    ∃ symbol, func.lookup program name = some symbol ∧ symbol.length = type.length ∧
      1 ≤ symbol.length ∧ symbol.offset + symbol.length * wordSize ≤ func.typing.size := by
  obtain ⟨before, after, _, _, found⟩ := Typing.scope_find?_eq_some
    ((lookup_eq_some_iff_mem checks.distinct.names_nodup).mpr mem)
  have bounds := (Typing.layoutFrom_bounds (Typing.mem_layoutFrom_of_find? found)).2
  refine ⟨_, by rw [lookup, found]; rfl, rfl, ?_, by simpa [Symbol.size] using bounds⟩
  cases type with
  | int | bool => exact Nat.le_refl 1
  | intarray length =>
      refine Nat.one_le_iff_ne_zero.mpr ?_
      rintro rfl
      exact checks.distinct.nonempty _ mem rfl

section Uses

variable {ctx : Context} (named : ctx.lookup = func.lookup program)
  (frame : func.typing.size + 12 ≤ 2 ^ 31)

include named frame

theorem Checks.fits_scalar {name : String} (scalar : func.typing.Scalar name) {address : Address}
    (isAddress : Use.address? ctx (.scalar name) = some address) : address.Fits := by
  obtain ⟨type, mem⟩ : ∃ type, (name, type) ∈ func.typing :=
    scalar.elim (fun mem => ⟨_, mem⟩) fun mem => ⟨_, mem⟩
  obtain ⟨symbol, declared, _, nonempty, within⟩ := checks.exists_within mem
  rw [address?_scalar (named ▸ declared)] at isAddress
  obtain rfl := Option.some.inj isAddress
  rintro _ ⟨⟩
  unfold FitsWord frameAfter
  unfold wordSize at within
  omega

theorem Checks.fits_element {name : String} (array : func.typing.Array name) {index : Expr}
    (near : Use.Near ctx.known func.typing.size (.element name index)) {address : Address}
    (isAddress : Use.address? ctx (.element name index) = some address) : address.Fits := by
  obtain ⟨length, mem⟩ := array
  obtain ⟨symbol, declared, _, nonempty, within⟩ := checks.exists_within mem
  unfold wordSize at within
  cases known : ctx.known index with
  | some value =>
      rw [address?_known (named ▸ declared) known] at isAddress
      obtain rfl := Option.some.inj isAddress
      rintro _ ⟨⟩
      have := near value known
      unfold FitsWord frameAfter wordSize
      omega
  | none =>
      rw [address?_unknown (named ▸ declared) known] at isAddress
      obtain rfl := Option.some.inj isAddress
      rintro _ ⟨⟩
      unfold FitsWord frameAfter wordSize
      omega

theorem Checks.fits_of_use (funcs_nodup : (List.map Func.name program).Nodup) :
    ∀ use ∈ func.uses, use.Near ctx.known func.typing.size → ∀ address,
      use.address? ctx = some address → address.Fits := by
  have wellFormed := (checks_iff funcs_nodup).mp checks
  have scalars : ∀ name, func.typing.Scalar name →
      Use.Near ctx.known func.typing.size (.scalar name) → ∀ address,
        Use.address? ctx (.scalar name) = some address → address.Fits :=
    fun _ scalar _ _ => checks.fits_scalar named frame scalar
  have arrays : ∀ name index, func.typing.Array name →
      Use.Near ctx.known func.typing.size (.element name index) → ∀ address,
        Use.address? ctx (.element name index) = some address → address.Fits :=
    fun _ _ array near _ => checks.fits_element named frame array near
  exact List.forall_mem_append.mpr ⟨wellFormed.body.forall_uses scalars arrays,
    wellFormed.result.forall_uses scalars arrays⟩

theorem Checks.encodable (funcs_nodup : (List.map Func.name program).Nodup)
    (near : ∀ use ∈ func.uses, use.Near ctx.known func.typing.size)
    (args : ∀ callee ∈ program, callee.params.length * wordSize < 2 ^ 32) {n n' : Nat}
    {inner : Code} (shape : FuncCode ctx func func.typing.size n inner n') :
    inner.Encodable := by
  have params := checks.params_le
  have whole := Nat.add_sub_cancel' params
  obtain ⟨body, result⟩ := shape
  have arities : ∀ name symbol params, ctx.lookup name = some symbol →
      symbol.params? = some params → params * wordSize < 2 ^ 32 := by
    intro name symbol count found isFunc
    rw [named] at found
    have callable : (func.lookup program).callee name count 0 = .ok () :=
      Lookup.callee_eq_ok.mpr ⟨symbol, found, isFunc⟩
    obtain ⟨-, callee, mem, -, rfl⟩ := (callee_iff funcs_nodup).mp callable
    exact args callee mem
  obtain ⟨_, checkedBody, _⟩ := bind_eq_ok.mp checks.names
  have bodyFits := body.constant (named ▸ checkedBody) arities
  have reached := body.reaches.append result.reaches
  refine encodable_of_addresses ?_ fun address mem => ?_
  · have room : func.typing.size < 2 ^ 32 := by omega
    have reserve : Constant (if func.typing.size - func.params.length * wordSize = 0 then []
        else [.instr (.arith .sub
          (.imm (func.typing.size - func.params.length * wordSize : Nat)) .esp)]) := by
      split
      · exact constant_nil
      · simp [FitsWord]
        omega
    rw [innerCode, whole]
    simp [bodyFits, result.constant, constant_release room, reserve]
  · rw [addresses_innerCode] at mem
    obtain argument | used := List.mem_append.mp mem
    · obtain ⟨k, bound, rfl⟩ := mem_addresses_argumentsCode argument
      rintro _ ⟨⟩
      unfold FitsWord frameBefore
      unfold wordSize at params ⊢
      omega
    · obtain ⟨use, mem, same⟩ := reached address (by simpa using used)
      exact checks.fits_of_use named frame funcs_nodup use mem (near use mem) address same

end Uses

end Func

namespace Asm

theorem encodable_append {first second : Code} :
    Code.Encodable (first ++ second) ↔ first.Encodable ∧ second.Encodable :=
  List.forall_mem_append

theorem FuncsCode.encodable {options facts table funcs n code n'}
    (shape : FuncsCode options facts table funcs n code n')
    (each : ∀ func ∈ funcs, ∀ scope, func.scope = some scope → ∀ n inner n',
      FuncCode (.ofScope options facts table scope) func (table.scopeSize scope) n inner n' →
        inner.Encodable) : code.Encodable := by
  induction shape with
  | nil => exact List.forall_mem_nil _
  | cons text known own _ ih =>
      obtain ⟨first, others⟩ := List.forall_mem_cons.mp each
      have quiet : ∀ {code : Code}, Constant code → code.addresses = [] → code.Encodable :=
        fun constant none => encodable_of_addresses constant (by simp [none])
      simp only [encodable_append]
      exact ⟨⟨⟨⟨quiet (constant_note _ _) (addresses_note _ _),
        quiet (constant_entryLabels _) (addresses_entryLabels _)⟩, first _ known _ _ _ own⟩,
        quiet (by simp) rfl⟩, ih others⟩

end Asm

/-- Numbers in the code of a program fit, if in every function the frame takes at most
    2^31 - 12 bytes and the elements with known indices are within reach. -/
theorem compile_encodable {options : Options} {text : String} {program : Program} {code : Code}
    (read : (readProgram text).result = .ok program) (compiled : compile options text = .ok code)
    (addressable : ∀ func ∈ program,
      func.Addressable (if options.folding then (Program.flow program).table else .empty)) :
    code.Encodable := by
  obtain ⟨_, checked, checker, labels, again, passed, made⟩ := compile_eq_ok.mp compiled
  obtain rfl := Except.ok.inj (read.symm.trans again)
  obtain ⟨body, rfl, shape⟩ := generate_eq_ok made
  obtain ⟨nodup, rfl, table, checks⟩ := Program.check_eq_ok passed
  rw [Program.flow_withScopes] at shape
  have opens : header.Encodable := by simp [header, Code.Encodable, Line.numbers]
  have args : ∀ callee ∈ program, callee.params.length * wordSize < 2 ^ 32 := by
    intro callee mem
    have params := (checks callee mem).params_le
    have frame := (addressable callee mem).frame
    omega
  refine encodable_append.mpr ⟨opens, shape.encodable fun func mem scope known n inner n' own => ?_⟩
  obtain ⟨original, inProgram, scope', rfl, named, size⟩ := Program.mem_withScopes mem
  obtain rfl : scope' = scope := Option.some.inj known
  rw [table] at own
  rw [size] at own
  obtain ⟨frame, indices⟩ := addressable original inProgram
  have checks' := (checks original inProgram).withScope (some scope')
  refine checks'.encodable named frame nodup (fun use used => ?_) args own
  exact (indices use used).mono fun e value isKnown => Context.facts_known isKnown

/-- An array that takes 4 bytes more than displacements reach. -/
def wideText : String :=
  "function f(): int \x7b var v: intarray[536870910]; v[0] = 1; return 0; \x7d"

/-- An index that leads further up than displacements reach. -/
def farText : String :=
  "function f(): int \x7b var v: intarray[1]; v[1073741828] = 1; return 0; \x7d"

/-- Neither the size of frames nor known indices are bounded. -/
theorem not_all_encodable :
    (∃ code, compile {} wideText = .ok code ∧
      .instr (.mov .long (.imm 1) (.mem (.based (-2147483652) .ebp))) ∈ code ∧
        ¬ code.Encodable) ∧
    ∃ code, compile {} farText = .ok code ∧
      .instr (.mov .long (.imm 1) (.mem (.based 4294967296 .ebp))) ∈ code ∧
        ¬ code.Encodable := by
  have unfit : ∀ {code : Code} {number : Int},
      .instr (.mov .long (.imm 1) (.mem (.based number .ebp))) ∈ code → ¬ FitsWord number →
        ¬ code.Encodable :=
    fun mem unfit fits => unfit (fits _ mem _ (by
      simp [Line.numbers, Operand.number?, Address.displacement?]))
  constructor
  · obtain ⟨code, compiled, mem⟩ := exists_ok_of_any (x := compile {} wideText)
      (p := fun code =>
        decide (.instr (.mov .long (.imm 1) (.mem (.based (-2147483652) .ebp))) ∈ code))
      (by decide +kernel)
    have mem := of_decide_eq_true mem
    exact ⟨code, compiled, mem, unfit mem (by decide)⟩
  · obtain ⟨code, compiled, mem⟩ := exists_ok_of_any (x := compile {} farText)
      (p := fun code =>
        decide (.instr (.mov .long (.imm 1) (.mem (.based 4294967296 .ebp))) ∈ code))
      (by decide +kernel)
    have mem := of_decide_eq_true mem
    exact ⟨code, compiled, mem, unfit mem (by decide)⟩

/-- The largest frame and the farthest element whose numbers fit. -/
def brimText : String :=
  "function f(): int \x7b var u: intarray[1]; var v: intarray[536870908];
     u[1073741827] = 1; v[0] = f(); return 0; \x7d"

theorem brim_encodable : ∃ program code, (readProgram brimText).result = .ok program ∧
    compile {} brimText = .ok code ∧ code.Encodable ∧
      .instr (.mov .long (.imm 1) (.mem (.based 4294967292 .ebp))) ∈ code ∧
      .instr (.mov .plain (.reg .eax) (.mem (.based (-2147483648) .ebp))) ∈ code := by
  obtain ⟨program, read, checked⟩ := exists_ok_of_any (x := (readProgram brimText).result)
    (p := fun program => (program.all fun func => decide (func.typing.size + 12 ≤ 2 ^ 31) &&
        func.uses.all fun use => decide (use.Near (Program.flow program).table.known
          func.typing.size)) &&
      (compileRead {} program).toOption.any fun code : Code =>
        decide (.instr (.mov .long (.imm 1) (.mem (.based 4294967292 .ebp))) ∈ code) &&
        decide (.instr (.mov .plain (.reg .eax) (.mem (.based (-2147483648) .ebp))) ∈ code))
    (by decide +kernel)
  simp only [Bool.and_eq_true, List.all_eq_true, decide_eq_true_eq] at checked
  obtain ⟨near, accepted⟩ := checked
  obtain ⟨code, made, mem⟩ := exists_ok_of_any accepted
  simp only [Bool.and_eq_true, decide_eq_true_eq] at mem
  have compiled : compile {} brimText = .ok code := by
    rw [compile_eq, read]
    exact made
  exact ⟨program, code, read, compiled, compile_encodable read compiled fun func mem =>
    ⟨(near func mem).1, (near func mem).2⟩, mem⟩

end Wordlang
