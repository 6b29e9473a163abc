import Wordlang.Proofs.Language
import Wordlang.Proofs.Lines
import Wordlang.Proofs.Pieces

/-! # Spacing

Texts with the same tokens are compiled alike, however their tokens are spread over lines and
set apart. Blanks at the end of a text are among what makes no difference.
-/

namespace Wordlang

open Token (Kind kinds)

/-- Where the tokens of one text are split, those of a text with the same tokens are split
    alike. -/
theorem exists_split {tokens tokens' own : List Token} {next : Item} {rest : List Item}
    (same : kinds tokens = kinds tokens')
    (isAhead : (tokens.map .ok : List Item) = own.map .ok ++ next :: rest) :
    ∃ token more, next = .ok token ∧ kinds tokens' = kinds own ++ token.kind :: more := by
  obtain ⟨first, others, rfl, isOwn, isRest⟩ := List.map_eq_append_iff.mp isAhead
  obtain ⟨token, later, rfl, rfl, -⟩ := List.map_eq_cons_iff.mp isRest
  obtain rfl : first = own := List.map_injective_iff.mpr (fun _ _ => Except.ok.inj) isOwn
  exact ⟨token, kinds later, rfl, by simp [← same]⟩

/-- Two texts with the same tokens are read as programs that differ in their lines, or both are
    refused for the same token. -/
theorem readProgram_alike {text text' : String} {tokens tokens' : List Token}
    (clean : tokenize text = .ok tokens) (clean' : tokenize text' = .ok tokens')
    (same : kinds tokens = kinds tokens') :
    (∃ program program' : Program, (readProgram text).result = .ok program ∧
      (readProgram text').result = .ok program' ∧
        program.map Func.unlined = program'.map Func.unlined) ∨
    ∃ error error', (readProgram text).result = .error error ∧
      (readProgram text').result = .error error' ∧ error.unlined = error'.unlined := by
  have scans := tokenize_eq_ok.mp clean
  have scans' := tokenize_eq_ok.mp clean'
  have ends := Parser.ends_program scans (text'.toList.length + 2)
  have run' : Parser.program.run (.ofText text') = _ := Parser.run_program text'
  have sameId : (Parser.ofText text').nextId = (Parser.ofText text).nextId := rfl
  unfold readProgram
  cases ran : Parser.program.run (.ofText text) with
  | ok program parser =>
      rw [ran] at ends
      cases ends with
      | ok own isAhead _ _ _ echo =>
          obtain ⟨token, more, rfl, all⟩ := exists_split same isAhead
          obtain ⟨few, faces⟩ := Parser.faces_of_scans scans' all
          rw [Token.length_kinds] at few
          obtain ⟨program', parser', ran', alike, -⟩ := echo rfl few sameId faces
          rw [run', EStateM.run, ran']
          exact .inl ⟨program, program', rfl, rfl, alike.symm⟩
  | error error parser =>
      rw [ran] at ends
      cases ends with
      | refused own isAhead _ _ _ echo =>
          obtain ⟨token, more, found, all⟩ := exists_split same isAhead
          obtain rfl := Except.ok.inj found
          obtain ⟨few, faces⟩ := Parser.faces_of_scans scans' all
          rw [Token.length_kinds] at few
          obtain ⟨line, parser', ran'⟩ := echo few sameId faces
          rw [run', EStateM.run, ran']
          exact .inr ⟨_, _, rfl, rfl, rfl⟩
      | broken own isAhead =>
          obtain ⟨_, _, none, _⟩ := exists_split same isAhead
          cases none

/-- Texts with the same tokens are compiled to the same code, or both are refused for the same
    reason. -/
theorem compile_alike (options : Options) {text text' : String} {tokens tokens' : List Token}
    (clean : tokenize text = .ok tokens) (clean' : tokenize text' = .ok tokens')
    (same : kinds tokens = kinds tokens') :
    (∃ code, compile options text = .ok code ∧ compile options text' = .ok code) ∨
    ∃ error error', compile options text = .error error ∧
      compile options text' = .error error' ∧ error.unlined = error'.unlined := by
  rw [compile_eq, compile_eq]
  rcases readProgram_alike clean clean' same with
    ⟨program, program', read, read', alike⟩ | ⟨error, error', failed, failed', alike⟩
  · rw [read, read']
    have made := compileRead_unlines options program
    have made' := compileRead_unlines options program'
    rw [← alike] at made'
    exact made.join made'
  · rw [failed, failed']
    exact .inr ⟨error, error', rfl, rfl, alike⟩

section Blanks

variable {blanks : List Char}

theorem Run.append_blanks {p : Char → Bool} {own later : List Char} (run : Run p own later)
    (blank : ∀ c ∈ blanks, Text.isBlank c = true)
    (others : ∀ {c}, Text.isBlank c = true → p c = false) : Run p own (later ++ blanks) := by
  refine ⟨run.some, run.all, ?_⟩
  cases later with
  | nil =>
      rintro c rest rfl
      exact others (blank c List.mem_cons_self)
  | cons d later =>
      rintro c rest ⟨⟩
      exact run.stop d later rfl

theorem Lexeme.Alone.append_blanks {c : Char} {later : List Char} (alone : Alone c later)
    (blank : ∀ c ∈ blanks, Text.isBlank c = true) : Alone c (later ++ blanks) := by
  cases later with
  | nil =>
      rintro d rest rfl mark text
      have isBlank := blank d List.mem_cons_self
      rw [mark.not_isBlank_of_mem_text d (by simp [text])] at isBlank
      cases isBlank
  | cons e later =>
      rintro d rest ⟨⟩
      exact alone e later rfl

theorem Lexeme.Begins.append_blanks {own later : List Char} {lexeme : Except Char Kind}
    (begins : Begins own later lexeme) (blank : ∀ c ∈ blanks, Text.isBlank c = true) :
    Begins own (later ++ blanks) lexeme := by
  cases begins with
  | num run small => exact .num (run.append_blanks blank isDigit_of_isBlank) small
  | tooLarge run large => exact .tooLarge (run.append_blanks blank isDigit_of_isBlank) large
  | keyword run => exact .keyword (run.append_blanks blank isNamePart_of_isBlank)
  | name start run noKeyword =>
      exact .name start (run.append_blanks blank isNamePart_of_isBlank) noKeyword
  | pair text => exact .pair text
  | single text alone => exact .single text (alone.append_blanks blank)
  | spoiled notBlank digit start alone noMark =>
      exact .spoiled notBlank digit start (alone.append_blanks blank) noMark

theorem Cut.append_blanks {text ending : List Char} {pieces : List Piece}
    (cut : Cut text pieces ending) (blank : ∀ c ∈ blanks, Text.isBlank c = true) :
    Cut (text ++ blanks) pieces (ending ++ blanks) := by
  induction cut with
  | ending own =>
      exact .ending fun c mem => (List.mem_append.mp mem).elim (own c) (blank c)
  | piece own begins _ ih =>
      rw [List.append_assoc]
      exact .piece own (begins.append_blanks blank) ih

end Blanks

theorem Piece.items_kinds {pieces : List Piece} {before ending : List Char} {tokens : List Token}
    (clean : items before pieces ending = tokens.map .ok) (ending' : List Char) :
    ∃ tokens' : List Token, items before pieces ending' = tokens'.map .ok ∧
      kinds tokens = kinds tokens' := by
  induction pieces generalizing before tokens with
  | nil =>
      obtain ⟨token, rfl, same⟩ := List.map_eq_singleton_iff.mp clean.symm
      cases same
      exact ⟨[{ kind := .eof, line := lineBehind (before ++ ending') }], rfl, rfl⟩
  | cons piece pieces ih =>
      obtain ⟨token, others, rfl, isFirst, isRest⟩ := List.map_eq_cons_iff.mp clean.symm
      obtain ⟨others', clean', same⟩ := ih isRest.symm
      refine ⟨token :: others', ?_, by rw [Token.kinds_cons, Token.kinds_cons, same]⟩
      rw [items, clean', List.map_cons, isFirst]

private theorem tokenize_of_pieces {text text' : String} {pieces : List Piece}
    {ending ending' : List Char}
    {tokens : List Token} (cut : Cut text.toList pieces ending)
    (cut' : Cut text'.toList pieces ending') (clean : tokenize text = .ok tokens) :
    ∃ tokens', tokenize text' = .ok tokens' ∧ kinds tokens = kinds tokens' := by
  have items : (Cursor.start text).items = Piece.items [] pieces ending := cut.items_eq []
  have items' : (Cursor.start text').items = Piece.items [] pieces ending' := cut'.items_eq []
  rw [tokenize, items, Item.tokens_eq_ok] at clean
  obtain ⟨tokens', clean', same⟩ := Piece.items_kinds clean ending'
  refine ⟨tokens', ?_, same⟩
  rw [tokenize, items', Item.tokens_eq_ok, clean']

theorem compile_of_pieces {options : Options} {text text' : String} {pieces : List Piece}
    {ending ending' : List Char} {code : Asm.Code} (cut : Cut text.toList pieces ending)
    (cut' : Cut text'.toList pieces ending') (made : compile options text = .ok code) :
    compile options text' = .ok code := by
  obtain ⟨program, read, _⟩ := bind_eq_ok.mp ((compile_eq options text).symm.trans made)
  obtain ⟨tokens, _, clean, _⟩ := loose_of_readProgram read
  obtain ⟨tokens', clean', same⟩ := tokenize_of_pieces cut cut' clean
  rcases compile_alike options clean clean' same with
    ⟨code', made₁, made₂⟩ | ⟨error, _, failed, _⟩
  · cases made₁.symm.trans made
    exact made₂
  · cases failed.symm.trans made

theorem Text.trimEnd_append (text : String) : ∃ blanks : List Char,
    text.toList = (trimEnd text).toList ++ blanks ∧ ∀ c ∈ blanks, isBlank c = true := by
  refine ⟨(text.toList.reverse.takeWhile isBlank).reverse, ?_, ?_⟩
  · rw [trimEnd, String.toList_ofList, ← List.reverse_append, List.takeWhile_append_dropWhile,
      List.reverse_reverse]
  · intro c mem
    exact List.all_eq_true.mp List.all_takeWhile c (List.mem_reverse.mp mem)

/-- How a text is spread over lines and set apart never decides what it is compiled to. Two texts
    with the same tokens have the same code, or are refused for the same reason, be it on
    different lines; and a text without the blanks at its end has the code of the text. -/
theorem compile_ignores_spacing (options : Options) :
    (∀ (text text' : String) (tokens tokens' : List Token), tokenize text = .ok tokens →
      tokenize text' = .ok tokens' → kinds tokens = kinds tokens' →
        (∃ code, compile options text = .ok code ∧ compile options text' = .ok code) ∨
        ∃ error error', compile options text = .error error ∧
          compile options text' = .error error' ∧ error.unlined = error'.unlined) ∧
    ∀ (text : String) (code : Asm.Code),
      compile options (Text.trimEnd text) = .ok code ↔ compile options text = .ok code := by
  refine ⟨fun _ _ _ _ => compile_alike options, fun text code => ?_⟩
  obtain ⟨blanks, whole, blank⟩ := Text.trimEnd_append text
  obtain ⟨pieces, ending, cut⟩ := Cut.exists_cut (Text.trimEnd text).toList
  have cutWhole := cut.append_blanks blank
  rw [← whole] at cutWhole
  exact ⟨compile_of_pieces cut cutWhole, compile_of_pieces cutWhole cut⟩

/-- A program without a blank too many. -/
def onOneLine : String := "function f(x:int):int\x7bx=-x;return x;\x7d"

/-- The same program, with blanks between all of its tokens. -/
def onManyLines : String :=
  "function f ( x : int ) : int\n\x7b\n  x = - x ;\n\n  return x ;\n\x7d\n"

theorem compile_ignores_spacing_lines : ∃ tokens tokens', tokenize onOneLine = .ok tokens ∧
    tokenize onManyLines = .ok tokens' ∧ kinds tokens = kinds tokens' ∧
      ((∃ code, compile {} onOneLine = .ok code ∧ compile {} onManyLines = .ok code) ∨
        ∃ error error', compile {} onOneLine = .error error ∧
          compile {} onManyLines = .error error' ∧ error.unlined = error'.unlined) := by
  have scanned : (tokenize onOneLine).toOption.any (fun tokens =>
      (tokenize onManyLines).toOption.any fun tokens' => kinds tokens = kinds tokens') = true := by
    decide +kernel
  obtain ⟨tokens, clean, others⟩ := exists_ok_of_any scanned
  obtain ⟨tokens', clean', same⟩ := exists_ok_of_any others
  have same := of_decide_eq_true same
  exact ⟨tokens, tokens', clean, clean', same,
    (compile_ignores_spacing {}).1 _ _ _ _ clean clean' same⟩

end Wordlang
