import Mathlib.Data.List.Nodup
import Wordlang.Proofs.Generation

/-! # Labels of generated code

Every label number is handed out once, and a number tells the labels of one
construct from those of all others. Printing forgets nothing: the digits at the
end of a generated label are its number, and what stands before them tells the
construct. So no name is defined twice, exactly as long as functions do not bear
the names of other labels.
-/

namespace Wordlang.Asm

namespace Label

/-- What stands before the number of a generated label. -/
def stem : Label → String
  | function name => name
  | start => "_Main"
  | holds op _ => op.name
  | compared op _ => op.name ++ "Done"
  | whenDone _ => "IfNoElseDone"
  | otherwise _ => "IfWithElse"
  | chooseDone _ => "IfWithElseDone"
  | loop _ => "While"
  | loopDone _ => "WhileDone"

def ofStem (number : Nat) : String → Label
  | "Compare" => holds .equal number
  | "NotEq" => holds .notEqual number
  | "GreaterThan" => holds .greater number
  | "GreaterThanEq" => holds .greaterEq number
  | "LessThan" => holds .less number
  | "LessThanEqual" => holds .lessEq number
  | "CompareDone" => compared .equal number
  | "NotEqDone" => compared .notEqual number
  | "GreaterThanDone" => compared .greater number
  | "GreaterThanEqDone" => compared .greaterEq number
  | "LessThanDone" => compared .less number
  | "LessThanEqualDone" => compared .lessEq number
  | "IfNoElseDone" => whenDone number
  | "IfWithElse" => otherwise number
  | "IfWithElseDone" => chooseDone number
  | "While" => loop number
  | "WhileDone" => loopDone number
  | _ => start

theorem ofStem_stem {label : Label} (generated : label.isGenerated = true) :
    ofStem label.number label.stem = label := by
  cases label with
  | function | start => exact absurd generated (by simp [isGenerated])
  | holds op | compared op =>
      cases op <;> first | rfl | exact absurd generated (by simp [isGenerated, BinOp.isComparison])
  | _ => rfl

theorem print_generated {label : Label} (generated : label.isGenerated = true) :
    label.print = label.stem ++ toString label.number := by
  cases label with
  | function | start => exact absurd generated (by simp [isGenerated])
  | _ => simp [print, stem, number, toString]

private theorem stem_no_digit {label : Label} (generated : label.isGenerated = true) :
    label.stem.toList.all (fun c => !c.isDigit) = true := by
  cases label with
  | function | start => exact absurd generated (by simp [isGenerated])
  | holds op | compared op => cases op <;> simp [stem, BinOp.name, Char.isDigit]
  | _ => simp [stem, Char.isDigit]

theorem toString_number_digits (number : Nat) :
    ∀ c ∈ (toString number).toList, c.isDigit = true := by
  intro c mem
  rw [Nat.toString_eq_ofList_toDigits, String.toList_ofList] at mem
  exact Nat.isDigit_of_mem_toDigits (by omega) (by omega) mem

private theorem toString_number_injective {a b : Nat} (h : toString a = toString b) : a = b := by
  have digits : Nat.toDigits 10 a = Nat.toDigits 10 b := by
    simpa only [Nat.toString_eq_ofList_toDigits, String.ofList_inj] using h
  rw [← Nat.ofDigitChars_ten_toDigits (n := a), digits, Nat.ofDigitChars_ten_toDigits]

theorem takeWhile_print {label : Label} (generated : label.isGenerated = true) :
    label.print.toList.takeWhile (fun c => !c.isDigit) = label.stem.toList := by
  have stop : (toString label.number).toList.takeWhile (fun c => !c.isDigit) = [] := by
    cases digits : (toString label.number).toList with
    | nil => rfl
    | cons c rest =>
        have digit := toString_number_digits label.number c
          (digits ▸ List.mem_cons_self)
        exact List.takeWhile_cons_of_neg (by simp [digit])
  rw [print_generated generated, String.toList_append, List.takeWhile_append_of_pos
    (List.all_eq_true.mp (stem_no_digit generated)), stop, List.append_nil]

/-- Generated labels with the same text are the same. -/
theorem print_injective {a b : Label} (genA : a.isGenerated = true) (genB : b.isGenerated = true)
    (h : a.print = b.print) : a = b := by
  have stems : a.stem = b.stem := by
    rw [← String.toList_inj, ← takeWhile_print genA, ← takeWhile_print genB, h]
  have numbers : a.number = b.number := by
    rw [print_generated genA, print_generated genB, stems] at h
    exact toString_number_injective ((String.append_right_inj _).mp h)
  rw [← ofStem_stem genA, ← ofStem_stem genB, stems, numbers]

/-- A text without digits is not that of a generated label. -/
theorem print_ne_of_no_digit {label : Label} (generated : label.isGenerated = true) {name : String}
    (noDigit : name.toList.all (fun c => !c.isDigit) = true) : name ≠ label.print := by
  rintro rfl
  obtain ⟨c, mem⟩ := List.exists_mem_of_ne_nil _ (show (toString label.number).toList ≠ [] by
    rw [Nat.toString_eq_ofList_toDigits, String.toList_ofList]
    exact Nat.toDigits_ne_nil)
  have inText : c ∈ label.print.toList := by
    rw [print_generated generated, String.toList_append]
    exact List.mem_append_right _ mem
  have := List.all_eq_true.mp noDigit c inText
  simp [toString_number_digits _ c mem] at this

end Label

theorem labels_eq_marks (piece : Code) : Code.labels piece = (marks piece).map Label.print := by
  rw [marks, List.map_filterMap]
  refine congrArg (List.filterMap · piece) (funext fun line => ?_)
  cases line <;> rfl

@[simp] theorem marks_nil : marks [] = [] := rfl

@[simp] theorem marks_append (first second : Code) :
    marks (first ++ second) = marks first ++ marks second := List.filterMap_append

@[simp] theorem marks_label (place : Label) (rest : Code) :
    marks (.label place :: rest) = place :: marks rest := rfl

@[simp] theorem marks_instr (op : Instr) (rest : Code) :
    marks (.instr op :: rest) = marks rest := rfl

@[simp] theorem marks_note (ctx : Context) (text : String) : marks (ctx.note text) = [] := by
  unfold Context.note
  split <;> rfl

@[simp] theorem marks_immediate (place : Place) (value : Word) :
    marks (place.immediate value) = [] := by
  cases place <;> rfl

@[simp] theorem marks_load (place : Place) (address : Address) :
    marks (place.load address) = [] := by
  cases place <;> rfl

@[simp] theorem marks_store (place : Place) : marks place.store = [] := by
  cases place <;> rfl

@[simp] theorem marks_sum (place : Place) (address : Address) : marks (place.sum address) = [] := by
  cases place <;> rfl

@[simp] theorem marks_unaryCode (ctx : Context) (op : UnOp) : marks (unaryCode ctx op) = [] := by
  cases op <;> simp [unaryCode]

@[simp] theorem marks_knownOperand (op : BinOp) (value : Word) (reg : Reg) :
    marks (knownOperand op value reg) = [] := by
  unfold knownOperand
  split <;> rfl

@[simp] theorem marks_release (bytes : Nat) : marks (release bytes) = [] := by
  unfold release
  split <;> rfl

@[simp] theorem marks_storeEax (address : Address) : marks (storeEax address) = [] := rfl

@[simp] theorem marks_storeWord (value : Word) (address : Address) :
    marks (storeWord value address) = [] := rfl

@[simp] theorem marks_argumentsCode (params : Nat) : marks (argumentsCode params) = [] := by
  unfold argumentsCode marks
  rw [List.filterMap_map]
  exact List.filterMap_eq_nil_iff.mpr fun _ _ => rfl

/-- Generated labels, none of them twice, with numbers from one on and below another. -/
structure Numbered (n : Nat) (labels : List Label) (n' : Nat) : Prop where
  le : n ≤ n'
  nodup : labels.Nodup
  generated : ∀ label ∈ labels, label.isGenerated = true
  lower : ∀ label ∈ labels, n ≤ label.number
  upper : ∀ label ∈ labels, label.number < n'

namespace Numbered

theorem none (n : Nat) : Numbered n [] n where
  le := Nat.le_refl n
  nodup := List.nodup_nil
  generated := by simp
  lower := by simp
  upper := by simp

theorem same {n : Nat} {labels : List Label} (nodup : labels.Nodup)
    (generated : ∀ label ∈ labels, label.isGenerated = true)
    (number : ∀ label ∈ labels, label.number = n) : Numbered n labels (n + 1) where
  le := Nat.le_succ n
  nodup := nodup
  generated := generated
  lower label mem := Nat.le_of_eq (number label mem).symm
  upper label mem := Nat.lt_succ_of_le (Nat.le_of_eq (number label mem))

theorem append {n n₁ n' : Nat} {first second : List Label} (h₁ : Numbered n first n₁)
    (h₂ : Numbered n₁ second n') : Numbered n (first ++ second) n' where
  le := Nat.le_trans h₁.le h₂.le
  nodup := h₁.nodup.append h₂.nodup fun label mem₁ mem₂ =>
    absurd (h₁.upper label mem₁) (Nat.not_lt.mpr (h₂.lower label mem₂))
  generated label mem := (List.mem_append.mp mem).elim (h₁.generated label) (h₂.generated label)
  lower label mem := (List.mem_append.mp mem).elim (h₁.lower label)
    fun mem => Nat.le_trans h₁.le (h₂.lower label mem)
  upper label mem := (List.mem_append.mp mem).elim
    (fun mem => Nat.lt_of_lt_of_le (h₁.upper label mem) h₂.le) (h₂.upper label)

theorem perm {n n' : Nat} {labels labels' : List Label} (h : Numbered n labels n')
    (p : labels'.Perm labels) : Numbered n labels' n' where
  le := h.le
  nodup := p.nodup_iff.mpr h.nodup
  generated label mem := h.generated label (p.mem_iff.mp mem)
  lower label mem := h.lower label (p.mem_iff.mp mem)
  upper label mem := h.upper label (p.mem_iff.mp mem)

end Numbered

private theorem binaryCode_numbered {op : BinOp} {n : Nat} {piece : Code} {n' : Nat}
    (made : (binaryCode op).Makes n piece n') : Numbered n (marks piece) n' := by
  cases binaryCode_makes made with
  | plus | minus | times | div | and | or => exact .none n
  | compared comparison =>
      exact .same (by simp) (by simp [Label.isGenerated, comparison]) (by simp [Label.number])

theorem resultCode_numbered {op : BinOp} {total : Address} {place : Place} {n : Nat} {piece : Code}
    {n' : Nat} (made : (resultCode op total place).Makes n piece n') :
    Numbered n (marks piece) n' := by
  cases resultCode_makes made with
  | sum =>
      rw [marks_sum]
      exact .none n
  | computed _ computes =>
      rw [marks_append, marks_store, List.append_nil]
      exact binaryCode_numbered computes

theorem ExprCode.numbered {ctx e place n piece n'} (shape : ExprCode ctx e place n piece n') :
    Numbered n (marks piece) n' := by
  induction shape with
  | known | int | bool | var | element => simpa using Numbered.none _
  | index _ _ _ _ ih => simpa using ih
  | unary _ _ ih => simpa using ih
  | left _ _ _ made ih => simpa using ih.append (resultCode_numbered made)
  | right _ _ _ _ made ih => simpa using ih.append (resultCode_numbered made)
  | both _ _ _ _ _ made ihr ihl =>
      simpa using (ihr.append ihl).append (resultCode_numbered made)

theorem conditionCode_numbered {ctx : Context} {cond : Expr} {n : Nat} {piece : Code} {n' : Nat}
    (made : (conditionCode ctx cond).Makes n piece n') : Numbered n (marks piece) n' := by
  obtain ⟨made⟩ := conditionCode_makes made
  simpa using made.numbered

theorem ArgsCode.numbered {ctx args n piece n'} (shape : ArgsCode ctx args n piece n') :
    Numbered n (marks piece) n' := by
  induction shape with
  | nil => exact .none _
  | cons _ made ih => simpa using ih.append made.numbered

theorem callCode_numbered {ctx : Context} {callee : String} {args : List Expr} {n : Nat}
    {piece : Code} {n' : Nat} (made : (callCode ctx callee args).Makes n piece n') :
    Numbered n (marks piece) n' := by
  obtain ⟨_, _, pushed⟩ := callCode_makes made
  simpa using pushed.numbered

private theorem assignCode_numbered {ctx : Context} {slot : Address} {value : Expr} {n : Nat}
    {piece : Code} {n' : Nat} (made : (assignCode ctx slot value).Makes n piece n') :
    Numbered n (marks piece) n' := by
  cases assignCode_makes made with
  | known => exact .none n
  | computed _ made => simpa using made.numbered

private theorem assignIndexCode_numbered {ctx : Context} {symbol : Symbol} {index value : Expr}
    {n : Nat}
    {piece : Code} {n' : Nat} (made : (assignIndexCode ctx symbol index value).Makes n piece n') :
    Numbered n (marks piece) n' := by
  cases assignIndexCode_makes made with
  | known => exact .none n
  | content _ _ made | place _ _ made => simpa using made.numbered
  | both _ _ madeIndex made => simpa using madeIndex.numbered.append made.numbered

private theorem callIndexCode_numbered {ctx : Context} {symbol : Symbol} {index : Expr}
    {callee : String}
    {args : List Expr} {n : Nat} {piece : Code} {n' : Nat}
    (made : (callIndexCode ctx symbol index callee args).Makes n piece n') :
    Numbered n (marks piece) n' := by
  cases callIndexCode_makes made with
  | known _ called => simpa using callCode_numbered called
  | computed _ madeIndex called =>
      simpa using madeIndex.numbered.append (callCode_numbered called)

theorem StmtsCode.numbered {ctx stmts n piece n'} (shape : StmtsCode ctx stmts n piece n') :
    Numbered n (marks piece) n' := by
  induction shape with
  | nil => exact .none _
  | assign _ made _ ih => simpa using (assignCode_numbered made).append ih
  | assignIndex _ made _ ih => simpa using (assignIndexCode_numbered made).append ih
  | call _ made _ ih => simpa using (callCode_numbered made).append ih
  | callIndex _ made _ ih => simpa using (callIndexCode_numbered made).append ih
  | whenFalse _ _ _ ih | loopFalse _ _ _ ih => simpa using ih
  | whenTrue _ _ _ inner later | chooseTrue _ _ _ inner later | block _ _ inner later =>
      simpa using inner.append later
  | chooseFalse _ _ _ _ inner later => simpa using inner.append later
  | @when _ _ _ n _ _ _ _ _ _ _ made _ _ inner later =>
      have own : Numbered n [.whenDone n] (n + 1) :=
        .same (by simp) (by simp [Label.isGenerated]) (by simp [Label.number])
      refine (own.append (((conditionCode_numbered made).append inner).append later)).perm ?_
      exact List.perm_iff_count.mpr fun label => by
        simp only [marks_append, marks_instr, marks_label, marks_nil, List.count_append,
          List.count_nil]
        omega
  | @choose _ _ _ _ n _ _ _ _ _ _ _ _ _ made _ _ _ first second later =>
      have own : Numbered n [.otherwise n] (n + 1) :=
        .same (by simp) (by simp [Label.isGenerated]) (by simp [Label.number])
      have done : Numbered (n + 1) [.chooseDone (n + 1)] (n + 2) :=
        .same (by simp) (by simp [Label.isGenerated]) (by simp [Label.number])
      refine ((own.append done).append
        ((((conditionCode_numbered made).append first).append second).append later)).perm ?_
      exact List.perm_iff_count.mpr fun label => by
        simp only [marks_append, marks_instr, marks_label, marks_nil, List.count_append,
          List.count_cons, List.count_nil]
        omega
  | @loopTrue _ _ _ n _ _ _ _ _ _ _ inner later =>
      have own : Numbered n [.loop n] (n + 1) :=
        .same (by simp) (by simp [Label.isGenerated]) (by simp [Label.number])
      simpa using (own.append inner).append later
  | @loop _ _ _ n _ _ _ _ _ _ _ made _ _ inner later =>
      have own : Numbered n [.loop n, .loopDone n] (n + 1) :=
        .same (by simp) (by simp [Label.isGenerated]) (by simp [Label.number])
      refine (own.append (((conditionCode_numbered made).append inner).append later)).perm ?_
      exact List.perm_iff_count.mpr fun label => by
        simp only [marks_append, marks_instr, marks_label, marks_nil, List.count_append,
          List.count_cons, List.count_nil]
        omega

/-- The labels that a function has beside the generated ones. -/
def entries (name : String) : List Label :=
  (if name = "Main" then [.start] else []) ++ [.function name]

theorem marks_entryLabels (name : String) : marks (entryLabels name) = entries name := by
  unfold entryLabels entries
  split <;> rfl

/-- The second name of the first function, if there is that function. -/
def startNames (names : List String) : List String :=
  if "Main" ∈ names then [Label.start.print] else []

private theorem print_entries_perm {names : List String} (nodup : names.Nodup) :
    ((names.flatMap entries).map Label.print).Perm
      (names ++ startNames names) := by
  induction names with
  | nil => exact .refl _
  | cons name rest ih =>
      obtain ⟨fresh, nodupRest⟩ := List.nodup_cons.mp nodup
      refine List.perm_iff_count.mpr fun text => ?_
      have counted := (ih nodupRest).count_eq text
      unfold startNames at counted ⊢
      by_cases main : name = "Main"
      · subst main
        simp only [if_neg fresh, List.append_nil] at counted
        simp [entries, Label.print, counted, List.count_cons]
        omega
      · simp only [List.flatMap_cons, List.map_append, List.count_append, List.mem_cons,
          Ne.symm main, false_or, counted]
        simp [entries, main, Label.print, List.count_cons]
        omega

theorem mem_marks {label : Label} {code : Code} : label ∈ marks code ↔ .label label ∈ code := by
  rw [marks, List.mem_filterMap]
  constructor
  · rintro ⟨line, mem, found⟩
    cases line <;> cases found
    exact mem
  · exact fun mem => ⟨_, mem, rfl⟩

theorem mem_entries {label : Label} {name : String} (mem : label ∈ entries name) :
    label.isGenerated = false := by
  unfold entries at mem
  split at mem
  · rcases List.mem_cons.mp mem with rfl | mem
    · rfl
    · rw [List.mem_singleton.mp mem]
      rfl
  · rw [List.mem_singleton.mp mem]
    rfl

theorem FuncCode.numbered {ctx func size n inner n'} (shape : FuncCode ctx func size n inner n') :
    Numbered n (marks inner) n' := by
  obtain ⟨body, result⟩ := shape
  unfold innerCode
  split
  · simpa using body.numbered.append result.numbered
  · simpa using body.numbered.append result.numbered

/-- The labels of functions are those of their names and generated ones. -/
theorem FuncsCode.marks_perm {options facts table funcs n code n'}
    (shape : FuncsCode options facts table funcs n code n') : ∃ generated,
      Numbered n generated n' ∧
        (marks code).Perm ((funcs.map Func.name).flatMap entries ++ generated) := by
  induction shape with
  | nil => exact ⟨[], .none _, .refl _⟩
  | cons _ _ first _ ih =>
      obtain ⟨generated, numbered, perm⟩ := ih
      refine ⟨_, first.numbered.append numbered, ?_⟩
      refine List.perm_iff_count.mpr fun label => ?_
      have counted := perm.count_eq label
      simp only [marks_append, marks_note, marks_entryLabels, marks_instr, marks_nil,
        List.nil_append, List.append_nil, List.map_cons, List.flatMap_cons,
        List.count_append] at counted ⊢
      omega

/-- A program defines the names of its functions, perhaps that of the start, and the generated
    labels. -/
theorem FuncsCode.labels_perm {options facts table program n code n'}
    (shape : FuncsCode options facts table program n code n')
    (names : (program.map Func.name).Nodup) : ∃ generated, Numbered n generated n' ∧
      (∀ label, label ∈ generated ↔
        .label label ∈ header ++ code ∧ label.isGenerated = true) ∧
      (Code.labels (header ++ code)).Perm (program.map Func.name ++
        (startNames (program.map Func.name) ++ generated.map Label.print)) := by
  obtain ⟨generated, numbered, perm⟩ := shape.marks_perm
  have noHeader : marks header = [] := rfl
  refine ⟨generated, numbered, fun label => ?_, ?_⟩
  · rw [← mem_marks, marks_append, noHeader, List.nil_append, perm.mem_iff, List.mem_append]
    constructor
    · exact fun mem => ⟨.inr mem, numbered.generated label mem⟩
    · rintro ⟨entry | mem, isGenerated⟩
      · obtain ⟨name, _, entry⟩ := List.mem_flatMap.mp entry
        exact absurd isGenerated (by simp [mem_entries entry])
      · exact mem
  · rw [labels_eq_marks, marks_append, noHeader, List.nil_append, ← List.append_assoc]
    refine (perm.map _).trans ?_
    rw [List.map_append]
    exact (print_entries_perm names).append_right _

/-- The generated labels are apart from one another and from the second name of the first
    function. -/
theorem Numbered.names_nodup {n n' : Nat} {generated : List Label}
    (numbered : Numbered n generated n') (names : List String) :
    (startNames names ++ generated.map Label.print).Nodup := by
  have own : (generated.map Label.print).Nodup := numbered.nodup.map_on fun a memA b memB =>
    Label.print_injective (numbered.generated a memA) (numbered.generated b memB)
  unfold startNames
  split
  · have noDigit : Label.start.print.toList.all (fun c => !c.isDigit) = true := by decide
    refine List.nodup_cons.mpr ⟨fun mem => ?_, own⟩
    obtain ⟨label, isLabel, same⟩ := List.mem_map.mp mem
    exact Label.print_ne_of_no_digit (numbered.generated label isLabel) noDigit same.symm
  · exact own

/-- No label of a program is defined twice exactly if no function bears the name of a label that
    is generated, or the second name of the first function. -/
theorem FuncsCode.labels_nodup_iff {options facts table program n code n'}
    (shape : FuncsCode options facts table program n code n')
    (names : (program.map Func.name).Nodup) :
    (Code.labels (header ++ code)).Nodup ↔
      ("Main" ∈ program.map Func.name → Label.start.print ∉ program.map Func.name) ∧
        ∀ name ∈ program.map Func.name, ∀ label, .label label ∈ header ++ code →
          label.isGenerated = true → name ≠ label.print := by
  obtain ⟨generated, numbered, mem_generated, whole⟩ := shape.labels_perm names
  rw [whole.nodup_iff, List.nodup_append]
  constructor
  · rintro ⟨-, -, apart⟩
    refine ⟨fun main start => apart _ start _ (by simp [startNames, main]) rfl, ?_⟩
    intro name mem label isLabel isGenerated
    have other : label.print ∈ generated.map Label.print :=
      List.mem_map_of_mem ((mem_generated label).mpr ⟨isLabel, isGenerated⟩)
    exact apart name mem _ (List.mem_append_right _ other)
  · rintro ⟨noStart, apart⟩
    refine ⟨names, numbered.names_nodup _, fun name isName text isOther => ?_⟩
    rcases List.mem_append.mp isOther with isStart | isGenerated
    · unfold startNames at isStart
      split at isStart
      · next main =>
        obtain rfl := List.mem_singleton.mp isStart
        exact fun same => noStart main (same ▸ isName)
      · exact absurd isStart List.not_mem_nil
    · obtain ⟨label, isLabel, rfl⟩ := List.mem_map.mp isGenerated
      obtain ⟨inCode, isGenerated⟩ := (mem_generated label).mp isLabel
      exact apart name isName label inCode isGenerated

theorem FuncsCode.labels_nodup {options facts table program n code n'}
    (shape : FuncsCode options facts table program n code n')
    (names : (program.map Func.name).Nodup) (apart : NamesApart program) :
    (Code.labels (header ++ code)).Nodup := by
  refine (shape.labels_nodup_iff names).mpr ⟨fun _ mem => ?_, fun name mem label _ generated => ?_⟩
  · obtain ⟨func, inProgram, same⟩ := List.mem_map.mp mem
    exact (apart func inProgram).1 same
  · obtain ⟨func, inProgram, rfl⟩ := List.mem_map.mp mem
    exact (apart func inProgram).2 label generated

end Wordlang.Asm
