import Mathlib.Algebra.Group.Nat.Defs
import Wordlang.Token.Lexeme

/-! # Reading written tokens

The text of a token is read as that token when a blank or the end of the text follows.
A text in which blanks stand between the tokens is scanned as these tokens, whatever
lines the blanks put them on.
-/

namespace Wordlang

namespace Lexeme

/-- There are names. -/
theorem isName_x : IsName "x" := ⟨⟨'x', [], rfl, rfl, rfl⟩, rfl⟩

theorem isAlpha_iff {c : Char} : c.isAlpha = true ↔
    (65 ≤ c.toNat ∧ c.toNat ≤ 90) ∨ (97 ≤ c.toNat ∧ c.toNat ≤ 122) := by
  change (decide (c.val ≥ 65 ∧ c.val ≤ 90) ||
    (decide (c.val ≥ 97) && decide (c.val ≤ 122))) = true ↔ _
  simp only [Bool.or_eq_true, Bool.and_eq_true, decide_eq_true_eq]
  exact Iff.rfl

theorem isDigit_iff {c : Char} : c.isDigit = true ↔ 48 ≤ c.toNat ∧ c.toNat ≤ 57 :=
  Char.isDigit_iff_toNat

theorem isNamePart_iff {c : Char} : isNamePart c = true ↔
    (c.isAlpha = true ∨ c.isDigit = true) ∨ c = '_' := by
  change ((c.isAlpha || c.isDigit) || c == '_') = true ↔ _
  simp only [Bool.or_eq_true, beq_iff_eq]

theorem isNameStart_iff {c : Char} : isNameStart c = true ↔ c.isAlpha = true ∨ c = '_' := by
  simp only [isNameStart, Bool.or_eq_true, beq_iff_eq]

theorem isBlank_of_isNamePart {c : Char} (h : isNamePart c = true) : Text.isBlank c = false := by
  rw [isNamePart_iff, isAlpha_iff, isDigit_iff] at h
  rcases h with ((upper | lower) | digit) | rfl
  · simp [Text.isBlank, Text.blankRanges]
    omega
  · simp [Text.isBlank, Text.blankRanges]
    omega
  · simp [Text.isBlank, Text.blankRanges]
    omega
  · decide

theorem isNamePart_of_isDigit {c : Char} (h : c.isDigit = true) : isNamePart c = true :=
  isNamePart_iff.mpr (.inl (.inr h))

theorem isNamePart_of_isBlank {c : Char} (blank : Text.isBlank c = true) :
    isNamePart c = false := by
  cases part : isNamePart c with
  | false => rfl
  | true => exact absurd blank (by simp [isBlank_of_isNamePart part])

theorem isDigit_of_isBlank {c : Char} (blank : Text.isBlank c = true) : c.isDigit = false := by
  cases digit : c.isDigit with
  | false => rfl
  | true => exact absurd blank (by simp [isBlank_of_isNamePart (isNamePart_of_isDigit digit)])

theorem isNamePart_of_isNameStart {c : Char} (h : isNameStart c = true) : isNamePart c = true :=
  isNamePart_iff.mpr ((isNameStart_iff.mp h).imp_left .inl)

theorem isDigit_of_isNameStart {c : Char} (h : isNameStart c = true) : c.isDigit = false := by
  rw [isNameStart_iff, isAlpha_iff] at h
  rw [← Bool.not_eq_true, isDigit_iff]
  rcases h with (upper | lower) | rfl
  · omega
  · omega
  · decide

private theorem ofPair?_of_isBlank {c d : Char} (blank : Text.isBlank d = true) :
    Punct.ofPair? c d = none := by
  cases found : Punct.ofPair? c d with
  | none => rfl
  | some mark =>
      unfold Punct.ofPair? at found
      split at found <;> simp_all [Text.isBlank, Text.blankRanges]

/-- The characters of a class in front of what is of another class. -/
theorem takeWhile_stop {p : Char → Bool} {own later : List Char} (all : ∀ c ∈ own, p c = true)
    (stop : ∀ c rest, later = c :: rest → p c = false) :
    (own ++ later).takeWhile p = own ∧ (own ++ later).dropWhile p = later := by
  rw [List.takeWhile_append_of_pos all, List.dropWhile_append_of_pos all]
  cases later with
  | nil => simp
  | cons c rest => simp [stop c rest rfl]

theorem takeWhile_ends {p : Char → Bool} {own later : List Char} (all : own.all p = true)
    (blanks : ∀ c, Text.isBlank c = true → p c = false) (ends : Ends later) :
    (own ++ later).takeWhile p = own ∧ (own ++ later).dropWhile p = later :=
  takeWhile_stop (List.all_eq_true.mp all) fun c rest follows => blanks c (ends c rest follows)

private theorem le_decimal_foldl (digits : List Char) (value : Nat) :
    value * 10 ^ digits.length ≤
      digits.foldl (fun value d => 10 * value + (d.toNat - '0'.toNat)) value := by
  induction digits generalizing value with
  | nil => simp
  | cons d digits ih =>
      have larger : value * 10 ≤ 10 * value + (d.toNat - '0'.toNat) := by omega
      calc value * 10 ^ (d :: digits).length
          = value * 10 * 10 ^ digits.length := by rw [List.length_cons, Nat.pow_succ']; ac_rfl
        _ ≤ (10 * value + (d.toNat - '0'.toNat)) * 10 ^ digits.length :=
            Nat.mul_le_mul_right _ larger
        _ ≤ _ := ih _

private theorem decimal_dropWhile (digits : List Char) :
    decimal (digits.dropWhile (· == '0')) = decimal digits := by
  induction digits with
  | nil => rfl
  | cons d digits ih =>
      by_cases isZero : d = '0'
      · subst isZero
        exact ih
      · rw [List.dropWhile_cons_of_neg (by simpa using isZero)]

/-- A run of digits that is too long is a number that is too large, so the length of a run
    decides nothing. -/
theorem ofDigits_eq {digits : List Char} (all : digits.all Char.isDigit = true) :
    ofDigits digits = if decimal digits ≤ maxNumber then .ok (.num (decimal digits))
      else .error (digits.getLastD '0') := by
  unfold ofDigits
  split
  · next long =>
    suffices large : maxNumber < decimal digits by rw [if_neg (Nat.not_le.mpr large)]
    rw [← decimal_dropWhile]
    cases significant : digits.dropWhile (· == '0') with
    | nil => simp [significant] at long
    | cons d rest =>
        have mem : d ∈ digits :=
          (List.dropWhile_suffix _).subset (significant ▸ List.mem_cons_self)
        have isDigit := isDigit_iff.mp (List.all_eq_true.mp all d mem)
        have some : digits.dropWhile (· == '0') ≠ [] := significant ▸ List.cons_ne_nil d rest
        have notZero : d ≠ '0' := by
          simpa [significant] using List.head_dropWhile_not (· == '0') some
        have positive : 1 ≤ d.toNat - '0'.toNat := by
          have : d.toNat ≠ '0'.toNat := fun same => notZero (Char.toNat_inj.mp same)
          have : '0'.toNat = 48 := rfl
          omega
        rw [significant, List.length_cons, maxDigits] at long
        calc maxNumber < 10 ^ 10 := by decide
          _ ≤ 10 ^ rest.length := Nat.pow_le_pow_right (by decide) (by omega)
          _ ≤ (d.toNat - '0'.toNat) * 10 ^ rest.length := Nat.le_mul_of_pos_left _ positive
          _ ≤ decimal (d :: rest) := by
              simpa [decimal] using le_decimal_foldl rest (d.toNat - '0'.toNat)
  · rfl

theorem read_num {value : Nat} (small : value ≤ maxNumber) {later : List Char} (ends : Ends later) :
    read ((toString value).toList ++ later) = (.ok (.num value), later) := by
  have text : (toString value).toList = Nat.toDigits 10 value := by
    rw [Nat.toString_eq_ofList_toDigits, String.toList_ofList]
  have digits : (Nat.toDigits 10 value).all Char.isDigit = true :=
    List.all_eq_true.mpr fun c => Nat.isDigit_of_mem_toDigits (by omega) (by omega)
  have decimal : decimal (Nat.toDigits 10 value) = value := by
    rw [Lexeme.decimal, ← Nat.ofDigitChars_eq_foldl]
    exact Nat.ofDigitChars_ten_toDigits
  have isNum : ofDigits (Nat.toDigits 10 value) = .ok (.num value) := by
    rw [ofDigits_eq digits, decimal, if_pos small]
  obtain ⟨taken, dropped⟩ := takeWhile_ends digits (fun _ => isDigit_of_isBlank) ends
  rw [text]
  cases all : Nat.toDigits 10 value with
  | nil => exact absurd all Nat.toDigits_ne_nil
  | cons c rest =>
      rw [all] at digits isNum taken dropped
      have first : c.isDigit = true := List.all_eq_true.mp digits c List.mem_cons_self
      rw [List.cons_append] at taken dropped ⊢
      simp only [read, first, if_true, taken, dropped, isNum]

theorem read_word {c : Char} {rest later : List Char} (start : isNameStart c = true)
    (parts : rest.all isNamePart = true) (ends : Ends later) :
    read (c :: rest ++ later) = (.ok (ofWord (String.ofList (c :: rest))), later) := by
  have all : (c :: rest).all isNamePart = true := by
    rw [List.all_cons, parts, isNamePart_of_isNameStart start]
    rfl
  obtain ⟨taken, dropped⟩ := takeWhile_ends all (fun _ => isNamePart_of_isBlank) ends
  rw [List.cons_append] at taken dropped ⊢
  simp only [read, isDigit_of_isNameStart start, start, taken, dropped, Bool.false_eq_true,
    if_false, if_true]

theorem read_name {name : String} (isName : IsName name) {later : List Char} (ends : Ends later) :
    read (name.toList ++ later) = (.ok (.ident name), later) := by
  obtain ⟨⟨c, rest, chars, start, parts⟩, noKeyword⟩ := isName
  rw [chars, read_word start parts ends, ← chars, String.ofList_toList, ofWord, noKeyword]

theorem read_keyword (word : Keyword) {later : List Char} (ends : Ends later) :
    read (word.text.toList ++ later) = (.ok (.keyword word), later) := by
  have shape : ∃ c rest, word.text.toList = c :: rest ∧ isNameStart c = true ∧
      rest.all isNamePart = true := by
    cases word <;> exact ⟨_, _, rfl, rfl, rfl⟩
  obtain ⟨c, rest, chars, start, parts⟩ := shape
  rw [chars, read_word start parts ends, ← chars, String.ofList_toList, ofWord,
    Keyword.ofText?_text]

/-- A mark is written with one character or with two. -/
theorem mark_cases (mark : Punct) :
    (∃ c, mark.text.toList = [c] ∧ Punct.ofChar? c = some mark ∧
      c.isDigit = false ∧ isNameStart c = false ∧ Text.isBlank c = false) ∨
    ∃ c d, mark.text.toList = [c, d] ∧ Punct.ofPair? c d = some mark ∧
      c.isDigit = false ∧ isNameStart c = false ∧ Text.isBlank c = false := by
  cases mark <;>
    first | exact .inl ⟨_, rfl, rfl, rfl, rfl, by decide⟩
          | exact .inr ⟨_, _, rfl, rfl, rfl, rfl, by decide⟩

theorem read_mark (mark : Punct) {later : List Char} (ends : Ends later) :
    read (mark.text.toList ++ later) = (.ok (.punct mark), later) := by
  rcases mark_cases mark with ⟨c, chars, isMark, digit, start, _⟩ |
    ⟨c, d, chars, isMark, digit, start, _⟩
  · rw [chars, List.singleton_append]
    simp only [read, digit, start, Bool.false_eq_true, if_false]
    cases later with
    | nil => simp only [readMark, ofMark, isMark]
    | cons d rest =>
        simp only [readMark, ofPair?_of_isBlank (ends d rest rfl), ofMark, isMark]
  · rw [chars, List.cons_append, List.singleton_append]
    simp only [read, digit, start, Bool.false_eq_true, if_false, readMark, isMark]

end Lexeme

namespace Token.Kind

/-- The kinds that are written: all but the end of the text, with numbers of 31 bits and names
    that are names. -/
def Writable : Kind → Prop
  | eof => False
  | num value => value ≤ Lexeme.maxNumber
  | ident name => Lexeme.IsName name
  | punct _ => True
  | keyword _ => True

variable {kind : Kind}

theorem Writable.read_text (writable : kind.Writable) {later : List Char}
    (ends : Lexeme.Ends later) :
    Lexeme.read (kind.text.toList ++ later) = (.ok kind, later) := by
  cases kind with
  | eof => exact absurd writable id
  | num value => exact Lexeme.read_num writable ends
  | ident name => exact Lexeme.read_name writable ends
  | punct mark => exact Lexeme.read_mark mark ends
  | keyword word => exact Lexeme.read_keyword word ends

theorem Writable.text_eq_cons (writable : kind.Writable) :
    ∃ c rest, kind.text.toList = c :: rest ∧ Text.isBlank c = false := by
  cases kind with
  | eof => exact absurd writable id
  | num value =>
      have text : (Kind.num value).text.toList = Nat.toDigits 10 value := by
        rw [text, Nat.toString_eq_ofList_toDigits, String.toList_ofList]
      cases all : Nat.toDigits 10 value with
      | nil => exact absurd all Nat.toDigits_ne_nil
      | cons c rest =>
          have digit : c.isDigit = true :=
            Nat.isDigit_of_mem_toDigits (by omega) (by omega) (all ▸ List.mem_cons_self)
          exact ⟨c, rest, text.trans all,
            Lexeme.isBlank_of_isNamePart (Lexeme.isNamePart_of_isDigit digit)⟩
  | ident name =>
      obtain ⟨⟨c, rest, chars, start, _⟩, _⟩ := writable
      exact ⟨c, rest, chars,
        Lexeme.isBlank_of_isNamePart (Lexeme.isNamePart_of_isNameStart start)⟩
  | punct mark =>
      rcases Lexeme.mark_cases mark with ⟨c, chars, _, _, _, blank⟩ | ⟨c, d, chars, _, _, _, blank⟩
      · exact ⟨c, [], chars, blank⟩
      · exact ⟨c, [d], chars, blank⟩
  | keyword word => cases word <;> exact ⟨_, _, rfl, by decide⟩

end Token.Kind

open Token (Kind)

/-- A cursor yields some tokens and then the end of the text. -/
inductive Cursor.Yields : Cursor → List Kind → Prop where
  | nil {cursor after : Cursor} {line : Nat} :
      cursor.scan = (.ok { kind := .eof, line }, after) → Yields cursor []
  | cons {cursor after : Cursor} {line : Nat} {kind : Kind} {kinds : List Kind} :
      cursor.scan = (.ok { kind, line }, after) → kind ≠ .eof → Yields after kinds →
      Yields cursor (kind :: kinds)

private theorem Cursor.pastBlanks_append {blanks : List Char}
    (blank : ∀ c ∈ blanks, Text.isBlank c = true) (rest : List Char) (line : Nat) :
    pastBlanks (blanks ++ rest) line = pastBlanks rest (line + blanks.count '\n') := by
  induction blanks generalizing line with
  | nil => rfl
  | cons c blanks ih =>
      obtain ⟨first, others⟩ := List.forall_mem_cons.mp blank
      rw [List.cons_append, pastBlanks, if_pos first, ih others, lineAfter, List.count_cons]
      congr 1
      by_cases newline : c = '\n'
      · simp only [newline, if_true, beq_self_eq_true]
        omega
      · simp [newline]

/-- All blanks in front of what is not blank are passed. -/
theorem Cursor.skipBlanks_append {blanks rest : List Char}
    (blank : ∀ c ∈ blanks, Text.isBlank c = true)
    (front : ∀ c later, rest = c :: later → Text.isBlank c = false) (line : Nat) :
    skipBlanks { rest := blanks ++ rest, line } =
      { rest, line := line + blanks.count '\n' } := by
  rw [skipBlanks, pastBlanks_append blank]
  cases rest with
  | nil => rfl
  | cons c later => rw [pastBlanks, if_neg (by simp [front c later rfl])]

theorem Cursor.scan_blanks {blanks : List Char} (blank : ∀ c ∈ blanks, Text.isBlank c = true)
    (line : Nat) : Cursor.scan { rest := blanks, line } =
      (.ok { kind := .eof, line := line + blanks.count '\n' },
        { rest := [], line := line + blanks.count '\n' }) := by
  have front : ∀ c later, ([] : List Char) = c :: later → Text.isBlank c = false := nofun
  have passed := skipBlanks_append blank front line
  rw [List.append_nil] at passed
  simp only [scan, passed, Lexeme.read]

/-- A token is found on the line on which the blanks in front of it end. -/
theorem Cursor.scan_text {blanks : List Char} (blank : ∀ c ∈ blanks, Text.isBlank c = true)
    {kind : Kind} (writable : kind.Writable) {later : List Char} (ends : Lexeme.Ends later)
    (line : Nat) : Cursor.scan { rest := blanks ++ kind.text.toList ++ later, line } =
      (.ok { kind, line := line + blanks.count '\n' },
        { rest := later, line := line + blanks.count '\n' }) := by
  have front : ∀ c rest, kind.text.toList ++ later = c :: rest → Text.isBlank c = false := by
    obtain ⟨first, others, chars, notBlank⟩ := writable.text_eq_cons
    intro c rest same
    rw [chars] at same
    exact (List.cons.inj same).1 ▸ notBlank
  rw [List.append_assoc]
  simp only [scan, skipBlanks_append blank front, writable.read_text ends]

theorem Text.Holds.yields {kinds : List Kind} {text : List Char} (holds : Holds kinds text)
    (writable : ∀ kind ∈ kinds, kind.Writable) (line : Nat) :
    Cursor.Yields { rest := text, line } kinds := by
  induction holds generalizing line with
  | nil blank => exact .nil (Cursor.scan_blanks (List.all_eq_true.mp blank) line)
  | @cons _ kind _ _ blank ends _ ih =>
      have own := writable kind List.mem_cons_self
      have scanned := Cursor.scan_text (List.all_eq_true.mp blank) own ends line
      apply Cursor.Yields.cons scanned
      · rintro rfl
        exact own
      · exact ih (fun kind mem => writable kind (List.mem_cons_of_mem _ mem)) _

end Wordlang
