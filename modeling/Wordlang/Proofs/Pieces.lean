import Wordlang.Token.Pieces
import Wordlang.Proofs.Scanning

/-! # Scanning by longest match

A text falls into pieces in one way, and scanning it to the end finds what these pieces hold,
each on the line on which it stands.
-/

namespace Wordlang

open Token (Kind)

namespace Punct

variable {c d : Char} {mark : Punct}

theorem ofPair?_eq_some : ofPair? c d = some mark ↔ mark.text.toList = [c, d] := by
  refine ⟨text_of_ofPair?, fun text => ?_⟩
  rcases Lexeme.mark_cases mark with ⟨_, one, _⟩ | ⟨_, _, two, isMark, _⟩
  · rw [one] at text
    cases text
  · rw [two] at text
    cases text
    exact isMark

theorem ofChar?_eq_some : ofChar? c = some mark ↔ mark.text.toList = [c] := by
  refine ⟨text_of_ofChar?, fun text => ?_⟩
  rcases Lexeme.mark_cases mark with ⟨_, one, isMark, _⟩ | ⟨_, _, two, _⟩
  · rw [one] at text
    cases text
    exact isMark
  · rw [two] at text
    cases text

theorem front_text {rest : List Char} (text : mark.text.toList = c :: rest) :
    c.isDigit = false ∧ Lexeme.isNameStart c = false := by
  rcases Lexeme.mark_cases mark with ⟨_, one, _, digit, start, _⟩ | ⟨_, _, two, _, digit, start, _⟩
  · rw [one] at text
    cases text
    exact ⟨digit, start⟩
  · rw [two] at text
    cases text
    exact ⟨digit, start⟩

/-- There are no blanks in a mark. -/
theorem not_isBlank_of_mem_text (mark : Punct) (c : Char) (mem : c ∈ mark.text.toList) :
    Text.isBlank c = false := by
  have none : (mark.text.toList.all fun c => !Text.isBlank c) = true := by
    cases mark <;> decide
  simpa using List.all_eq_true.mp none c mem

end Punct

namespace Lexeme

variable {own later : List Char} {lexeme : Except Char Kind} {c : Char}

theorem decimal_eq_ofDigitChars (digits : List Char) :
    decimal digits = Nat.ofDigitChars 10 digits 0 := by
  rw [decimal, ← Nat.ofDigitChars_eq_foldl]

private theorem ofWord_eq_keyword (word : Keyword) :
    ofWord (String.ofList word.text.toList) = .keyword word := by
  rw [ofWord, String.ofList_toList, Keyword.ofText?_text]

private theorem ofWord_eq_ident {chars : List Char}
    (noKeyword : ∀ word : Keyword, word.text.toList ≠ chars) :
    ofWord (String.ofList chars) = .ident (String.ofList chars) := by
  rw [ofWord]
  cases found : Keyword.ofText? (String.ofList chars) with
  | none => rfl
  | some word =>
      have spelling := congrArg String.toList (Keyword.text_of_ofText? found)
      exact absurd (spelling.trans String.toList_ofList) (noKeyword word)

private theorem front_keyword (word : Keyword) :
    ∃ c rest, word.text.toList = c :: rest ∧ isNameStart c = true := by
  cases word <;> exact ⟨_, _, rfl, rfl⟩

private theorem ofPair?_of_alone {d : Char} {rest : List Char} (alone : Alone c (d :: rest)) :
    Punct.ofPair? c d = none := by
  cases found : Punct.ofPair? c d with
  | none => rfl
  | some mark => exact absurd (Punct.ofPair?_eq_some.mp found) (alone d rest rfl mark)

private theorem alone_of_ofPair? {d : Char} {rest : List Char} (none : Punct.ofPair? c d = none) :
    Alone c (d :: rest) := by
  rintro _ _ ⟨⟩ mark text
  rw [Punct.ofPair?_eq_some.mpr text] at none
  cases none

theorem readMark_of_alone (alone : Alone c later) : readMark c later = (ofMark c, later) := by
  cases later with
  | nil => rfl
  | cons d rest => rw [readMark, ofPair?_of_alone alone]

namespace Begins

theorem ne_nil (begins : Begins own later lexeme) : own ≠ [] := by
  cases begins with
  | num run | tooLarge run | keyword run => exact run.some
  | name | pair | single | spoiled => exact List.cons_ne_nil _ _

theorem not_isBlank (begins : Begins own later lexeme) : ∀ c ∈ own, Text.isBlank c = false := by
  cases begins with
  | num run | tooLarge run =>
      exact fun c mem => isBlank_of_isNamePart (isNamePart_of_isDigit (run.all c mem))
  | keyword run | name _ run => exact fun c mem => isBlank_of_isNamePart (run.all c mem)
  | @pair mark _ _ _ text | @single mark _ _ text => exact text ▸ mark.not_isBlank_of_mem_text
  | spoiled blank => exact List.forall_mem_singleton.mpr blank

theorem front (begins : Begins own later lexeme) :
    ∀ c rest, own ++ later = c :: rest → Text.isBlank c = false := by
  have notBlank := begins.not_isBlank
  cases own with
  | nil => exact absurd rfl begins.ne_nil
  | cons first others =>
      intro c rest same
      obtain rfl := (List.cons.inj same).1
      exact notBlank first List.mem_cons_self

theorem read_digits {digits : List Char} (run : Run Char.isDigit digits later) :
    read (digits ++ later) = (ofDigits digits, later) := by
  obtain ⟨taken, dropped⟩ := takeWhile_stop run.all run.stop
  cases digits with
  | nil => exact absurd rfl run.some
  | cons c rest =>
      have digit := run.all c List.mem_cons_self
      rw [List.cons_append] at taken dropped ⊢
      simp only [read, digit, if_true, taken, dropped]

theorem read_run {rest : List Char} (start : isNameStart c = true)
    (run : Run isNamePart (c :: rest) later) :
    read (c :: rest ++ later) = (.ok (ofWord (String.ofList (c :: rest))), later) := by
  obtain ⟨taken, dropped⟩ := takeWhile_stop run.all run.stop
  rw [List.cons_append] at taken dropped ⊢
  simp only [read, isDigit_of_isNameStart start, start, taken, dropped, Bool.false_eq_true,
    if_false, if_true]

theorem read_mark (digit : c.isDigit = false) (start : isNameStart c = false) :
    read (c :: later) = readMark c later := by
  simp only [read, digit, start, Bool.false_eq_true, if_false]

theorem read (begins : Begins own later lexeme) :
    Lexeme.read (own ++ later) = (lexeme, later) := by
  cases begins with
  | num run small =>
      rw [read_digits run, ofDigits_eq (List.all_eq_true.mpr run.all), decimal_eq_ofDigitChars,
        if_pos small]
  | tooLarge run large =>
      rw [read_digits run, ofDigits_eq (List.all_eq_true.mpr run.all), decimal_eq_ofDigitChars,
        if_neg (Nat.not_le.mpr large), List.getLastD_concat]
  | @keyword word _ run =>
      obtain ⟨c, rest, text, start⟩ := front_keyword word
      rw [text] at run ⊢
      rw [read_run start run, ← text, ofWord_eq_keyword]
  | name start run noKeyword => rw [read_run start run, ofWord_eq_ident noKeyword]
  | @pair mark c d _ text =>
      obtain ⟨digit, start⟩ := Punct.front_text text
      rw [List.cons_append, List.singleton_append, read_mark digit start, readMark,
        Punct.ofPair?_eq_some.mpr text]
  | @single mark c _ text alone =>
      obtain ⟨digit, start⟩ := Punct.front_text text
      rw [List.singleton_append, read_mark digit start, readMark_of_alone alone, ofMark,
        Punct.ofChar?_eq_some.mpr text]
  | @spoiled c _ _ digit start alone noMark =>
      have none : Punct.ofChar? c = none := by
        cases found : Punct.ofChar? c with
        | none => rfl
        | some mark => exact absurd (Punct.ofChar?_eq_some.mp found) (noMark mark)
      rw [List.singleton_append, read_mark digit start, readMark_of_alone alone, ofMark, none]

theorem unique {own' later' : List Char} {lexeme' : Except Char Kind}
    (begins : Begins own later lexeme) (begins' : Begins own' later' lexeme')
    (same : own ++ later = own' ++ later') : own = own' ∧ later = later' ∧ lexeme = lexeme' := by
  have both := begins.read.symm.trans (same ▸ begins'.read)
  obtain ⟨rfl, rfl⟩ := Prod.mk.inj both
  exact ⟨List.append_cancel_right same, rfl, rfl⟩

end Begins

theorem exists_run {p : Char → Bool} (first : p c = true) (rest : List Char) :
    ∃ own later, c :: rest = c :: own ++ later ∧ Run p (c :: own) later := by
  refine ⟨rest.takeWhile p, rest.dropWhile p, ?_, List.cons_ne_nil _ _, ?_, ?_⟩
  · rw [List.cons_append, List.takeWhile_append_dropWhile]
  · exact List.forall_mem_cons.mpr
      ⟨first, fun d mem => List.all_eq_true.mp List.all_takeWhile d mem⟩
  · intro d others follows
    have nonempty : rest.dropWhile p ≠ [] := follows ▸ List.cons_ne_nil _ _
    simpa [follows] using List.head_dropWhile_not p nonempty

private theorem begins_digits {digits : List Char} (run : Run Char.isDigit digits later) :
    ∃ lexeme, Begins digits later lexeme := by
  rcases Nat.lt_or_ge maxNumber (Nat.ofDigitChars 10 digits 0) with large | small
  · obtain ⟨front, last, rfl⟩ := (List.eq_nil_or_concat digits).resolve_left run.some
    rw [List.concat_eq_append] at run large ⊢
    exact ⟨_, .tooLarge run large⟩
  · exact ⟨_, .num run small⟩

private theorem begins_word {rest : List Char} (start : isNameStart c = true)
    (run : Run isNamePart (c :: rest) later) : ∃ lexeme, Begins (c :: rest) later lexeme := by
  by_cases keyword : ∃ word : Keyword, word.text.toList = c :: rest
  · obtain ⟨word, text⟩ := keyword
    exact ⟨.ok (.keyword word), text ▸ .keyword (text ▸ run)⟩
  · exact ⟨_, .name start run fun word text => keyword ⟨word, text⟩⟩

theorem begins_alone (blank : Text.isBlank c = false) (digit : c.isDigit = false)
    (start : isNameStart c = false) (alone : Alone c later) :
    ∃ lexeme, Begins [c] later lexeme := by
  cases found : Punct.ofChar? c with
  | some mark => exact ⟨_, .single (Punct.ofChar?_eq_some.mp found) alone⟩
  | none =>
      refine ⟨_, .spoiled blank digit start alone fun mark text => ?_⟩
      rw [Punct.ofChar?_eq_some.mpr text] at found
      cases found

theorem exists_begins (blank : Text.isBlank c = false) (rest : List Char) :
    ∃ own later lexeme, c :: rest = own ++ later ∧ Begins own later lexeme := by
  cases digit : c.isDigit with
  | true =>
      obtain ⟨own, later, split, run⟩ := exists_run digit rest
      obtain ⟨lexeme, begins⟩ := begins_digits run
      exact ⟨_, later, lexeme, split, begins⟩
  | false =>
      cases start : isNameStart c with
      | true =>
          obtain ⟨own, later, split, run⟩ := exists_run (isNamePart_of_isNameStart start) rest
          obtain ⟨lexeme, begins⟩ := begins_word start run
          exact ⟨_, later, lexeme, split, begins⟩
      | false =>
          cases rest with
          | nil =>
              have alone : Alone c [] := nofun
              obtain ⟨lexeme, begins⟩ := begins_alone blank digit start alone
              exact ⟨[c], [], lexeme, rfl, begins⟩
          | cons d rest =>
              cases found : Punct.ofPair? c d with
              | some mark => exact ⟨[c, d], rest, _, rfl, .pair (Punct.ofPair?_eq_some.mp found)⟩
              | none =>
                  have alone : Alone c (d :: rest) := alone_of_ofPair? found
                  obtain ⟨lexeme, begins⟩ := begins_alone blank digit start alone
                  exact ⟨[c], d :: rest, lexeme, rfl, begins⟩

end Lexeme

namespace Cut

variable {text ending : List Char} {pieces : List Piece}

theorem join (cut : Cut text pieces ending) : text = pieces.flatMap Piece.chars ++ ending := by
  induction cut with
  | ending => rfl
  | piece _ _ _ ih => rw [List.flatMap_cons, List.append_assoc (Piece.chars _), ← ih, Piece.chars]

theorem front_nil : ∀ c later, ([] : List Char) = c :: later → Text.isBlank c = false := nofun

theorem blanks_unique {blanks blanks' rest rest' : List Char}
    (blank : ∀ c ∈ blanks, Text.isBlank c = true) (blank' : ∀ c ∈ blanks', Text.isBlank c = true)
    (front : ∀ c later, rest = c :: later → Text.isBlank c = false)
    (front' : ∀ c later, rest' = c :: later → Text.isBlank c = false)
    (same : blanks ++ rest = blanks' ++ rest') : blanks = blanks' ∧ rest = rest' := by
  obtain ⟨taken, dropped⟩ := Lexeme.takeWhile_stop blank front
  obtain ⟨taken', dropped'⟩ := Lexeme.takeWhile_stop blank' front'
  exact ⟨taken.symm.trans (same ▸ taken'), dropped.symm.trans (same ▸ dropped')⟩

theorem unique {pieces' : List Piece} {ending' : List Char} (cut : Cut text pieces ending)
    (cut' : Cut text pieces' ending') : pieces' = pieces ∧ ending' = ending := by
  induction cut generalizing pieces' ending' with
  | @ending blanks blank =>
      generalize same : blanks = text at cut'
      cases cut' with
      | ending => exact ⟨rfl, rfl⟩
      | piece blank' begins' =>
          rw [List.append_assoc, ← List.append_nil blanks] at same
          obtain ⟨-, none⟩ := blanks_unique blank blank' front_nil begins'.front same
          exact absurd (List.append_eq_nil_iff.mp none.symm).1 begins'.ne_nil
  | @piece piece later _ _ blank begins _ ih =>
      generalize same : piece.blanks ++ piece.own ++ later = text at cut'
      cases cut' with
      | ending blank' =>
          rw [List.append_assoc, ← List.append_nil ending'] at same
          obtain ⟨-, none⟩ := blanks_unique blank blank' begins.front front_nil same
          exact absurd (List.append_eq_nil_iff.mp none).1 begins.ne_nil
      | piece blank' begins' cut' =>
          rw [List.append_assoc, List.append_assoc] at same
          obtain ⟨blanks, rest⟩ := blanks_unique blank blank' begins.front begins'.front same
          obtain ⟨own, rfl, lexeme⟩ := begins.unique begins' rest
          obtain ⟨rfl, rfl⟩ := ih cut'
          exact ⟨by rw [Piece.ext blanks own lexeme], rfl⟩

/-- Every text falls into pieces. -/
theorem exists_cut (text : List Char) : ∃ pieces ending, Cut text pieces ending := by
  have split : text = text.takeWhile Text.isBlank ++ text.dropWhile Text.isBlank :=
    List.takeWhile_append_dropWhile.symm
  have blank : ∀ c ∈ text.takeWhile Text.isBlank, Text.isBlank c = true :=
    List.all_eq_true.mp List.all_takeWhile
  generalize text.takeWhile Text.isBlank = blanks at split blank
  cases rest : text.dropWhile Text.isBlank with
  | nil =>
      rw [rest, List.append_nil] at split
      exact ⟨[], text, .ending (split ▸ blank)⟩
  | cons c others =>
      have nonempty : text.dropWhile Text.isBlank ≠ [] := rest ▸ List.cons_ne_nil _ _
      have front : Text.isBlank c = false := by
        simpa [rest] using List.head_dropWhile_not Text.isBlank nonempty
      obtain ⟨own, later, lexeme, cut, begins⟩ := Lexeme.exists_begins front others
      rw [rest, cut, ← List.append_assoc] at split
      have shorter : later.length < text.length := by
        have some := List.length_pos_iff.mpr begins.ne_nil
        rw [split, List.length_append, List.length_append]
        omega
      obtain ⟨pieces, ending, cutLater⟩ := exists_cut later
      have cutText := @Cut.piece { blanks, own, lexeme } later pieces ending blank begins cutLater
      exact ⟨_, _, split ▸ cutText⟩
termination_by text.length

end Cut

theorem lineBehind_append (before more : List Char) :
    lineBehind (before ++ more) = lineBehind before + more.count '\n' := by
  rw [lineBehind, lineBehind, List.count_append, Nat.add_assoc]

namespace Cut

variable {text ending : List Char} {pieces : List Piece}

private theorem scan_piece {piece : Piece} {later : List Char}
    (blank : ∀ c ∈ piece.blanks, Text.isBlank c = true)
    (begins : Lexeme.Begins piece.own later piece.lexeme) (before : List Char) :
    Cursor.scan { rest := piece.blanks ++ piece.own ++ later, line := lineBehind before } =
      (piece.item before, { rest := later, line := lineBehind (before ++ piece.chars) }) := by
  have newlines : piece.own.count '\n' = 0 := by
    refine List.count_eq_zero.mpr fun mem => ?_
    have notBlank := begins.not_isBlank '\n' mem
    exact absurd notBlank (by decide)
  have line : lineBehind (before ++ piece.chars) = lineBehind before + piece.blanks.count '\n' := by
    rw [Piece.chars, lineBehind_append, List.count_append, newlines, Nat.add_zero]
  rw [List.append_assoc, line, Piece.item, lineBehind_append]
  cases read : piece.lexeme with
  | ok | error =>
      rw [read] at begins
      simp only [Cursor.scan, Cursor.skipBlanks_append blank begins.front, begins.read]

private theorem kind_ne_eof {own later : List Char} {kind : Kind}
    (begins : Lexeme.Begins own later (.ok kind)) : kind ≠ .eof := by
  rintro rfl
  cases begins

/-- Scanning a text to the end finds what its pieces hold. -/
theorem items_eq (cut : Cut text pieces ending) (before : List Char) :
    Cursor.items { rest := text, line := lineBehind before } =
      Piece.items before pieces ending := by
  induction cut generalizing before with
  | ending blank =>
      rw [Cursor.items_of_eof (Cursor.scan_blanks blank _) rfl, Piece.items, lineBehind_append]
  | @piece piece later _ _ blank begins _ ih =>
      have scanned := scan_piece blank begins before
      rw [Piece.items, ← ih]
      cases found : piece.lexeme with
      | ok kind =>
          rw [Piece.item, found] at scanned ⊢
          exact Cursor.items_of_ok scanned (kind_ne_eof (found ▸ begins))
      | error character =>
          rw [Piece.item, found] at scanned ⊢
          exact Cursor.items_of_error scanned

end Cut

/-- Scanning is cutting a text into its longest lexemes. A text falls into pieces in just one
    way, the pieces are the whole text, and the items of the text are those of its pieces. All of
    them are its tokens when there is no error among them; otherwise the first error is all that
    there is. -/
theorem items_longest_match (text : String) :
    ∃ pieces ending, Cut text.toList pieces ending ∧
      (∀ pieces' ending', Cut text.toList pieces' ending' → pieces' = pieces ∧ ending' = ending) ∧
      text.toList = pieces.flatMap Piece.chars ++ ending ∧
      (Cursor.start text).items = Piece.items [] pieces ending ∧
      (∀ tokens, tokenize text = .ok tokens ↔ Piece.items [] pieces ending = tokens.map .ok) ∧
      ∀ error, tokenize text = .error error ↔ ∃ (tokens : List Token) (rest : List Item),
        Piece.items [] pieces ending = tokens.map .ok ++ .error error :: rest := by
  obtain ⟨pieces, ending, cut⟩ := Cut.exists_cut text.toList
  have items : (Cursor.start text).items = Piece.items [] pieces ending := cut.items_eq []
  refine ⟨pieces, ending, cut, fun _ _ => cut.unique, cut.join, items, ?_, ?_⟩
  · intro tokens
    rw [tokenize, items, Item.tokens_eq_ok]
  · intro error
    rw [tokenize, items, Item.tokens_eq_error]

end Wordlang
