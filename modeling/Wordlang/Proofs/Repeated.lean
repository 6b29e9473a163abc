import Wordlang.Proofs.Language
import Wordlang.Proofs.OnDemand
import Wordlang.Proofs.Steps

/-! # Repeated calls of a parser

However often a parser is called, and whatever comes of it, its calls find the items of the text
one after the other: each item once, none left out.
-/

namespace Wordlang

open Token (Writable kinds)

namespace Parser

variable {s s' : Parser} {program : Program} {calls : Nat}

/-- A call answers with a program where the program is read. -/
theorem answer_eq_ok : s.answer calls = .ok program ↔
    Parser.program (s.behind calls) = .ok program (s.behind (calls + 1)) := by
  simp only [answer, behind, call, EStateM.run]
  cases Parser.program (s.behind calls) <;> simp

theorem answer_eq_error {error : CompileError} : s.answer calls = .error error ↔
    Parser.program (s.behind calls) = .error error (s.behind (calls + 1)) := by
  simp only [answer, behind, call, EStateM.run]
  cases Parser.program (s.behind calls) <;> simp

theorem Steps.drop_scanned {tokens : List Token} {others : List Item}
    (steps : Steps s (tokens.map .ok ++ others) s')
    (noTokens : others.filterMap Except.toOption = []) :
    s'.stream.scanned.toList.drop s.stream.scanned.size = tokens := by
  have all : (tokens.map Except.ok : List Item).filterMap Except.toOption = tokens := by
    simp [List.filterMap_map, Function.comp_def, Except.toOption]
  rw [steps.scanned, List.filterMap_append, all, noTokens, List.append_nil,
    ← Array.length_toList, List.drop_left]

/-- A call is made of steps that find what it finds. -/
theorem steps_call (s : Parser) : Steps s s.found s.call.2 := by
  have ends := Parse.stepwise_program s
  simp only [found, call, EStateM.run]
  cases ran : Parser.program s with
  | ok program after =>
      rw [ran] at ends
      obtain ⟨tokens, steps⟩ := ends
      rw [← List.append_nil (tokens.map _)] at steps
      simpa only [steps.drop_scanned rfl] using steps
  | error error after =>
      rw [ran] at ends
      cases ends with
      | broken tokens steps => simpa only [steps.drop_scanned rfl] using steps
      | refused tokens steps =>
          rw [← List.append_nil (tokens.map _)] at steps
          simpa only [steps.drop_scanned rfl] using steps

private theorem log_succ (s : Parser) (calls : Nat) :
    s.log (calls + 1) = s.log calls ++ (s.behind calls).found := by
  simp [log, List.range_succ]

theorem steps_behind (s : Parser) (calls : Nat) : Steps s (s.log calls) (s.behind calls) := by
  induction calls with
  | zero => exact .refl s
  | succ calls ih =>
      rw [log_succ]
      exact ih.trans (steps_call _)

theorem program_eq_functions (s : Parser) :
    Parser.program s = functions (s.stream.cursor.rest.length + 2) s := rfl

theorem unscanned_of_ok (returned : s.answer calls = .ok program) :
    (s.behind (calls + 1)).stream.unscanned = [] := by
  have ran := answer_eq_ok.mp returned
  rw [program_eq_functions] at ran
  obtain ⟨line, inView⟩ := functions_ended ran
  simp only [Stream.unscanned, inView, if_true]

/-- Where the token in view was scanned last, a parser stands before items that a call has fuel
    for, and all tokens in front of another item can be written. -/
theorem exists_before (fits : s.stream.Fits) : ∃ ahead, s.Before ahead ∧
    ahead.length ≤ s.stream.cursor.rest.length + 2 ∧
    ∀ (own : List Token) (next : Item) (rest : List Item),
      ahead = own.map .ok ++ next :: rest → Writable (kinds own) := by
  obtain ⟨⟨cursor, lookahead, scanned⟩, nextId⟩ := s
  obtain ⟨items, scans⟩ := cursor.exists_scans
  have few := scans.length_le
  cases lookahead with
  | none =>
      refine ⟨items, .fresh scans, Nat.le_succ_of_le few, ?_⟩
      rintro own next rest rfl
      exact scans.writable_of_append
  | some token =>
      obtain ⟨⟨taken, last⟩, line, writable⟩ := fits token rfl
      by_cases isEof : token.kind = .eof
      · refine ⟨[.ok token], .seen last line (fun _ => rfl) fun some => absurd isEof some,
          Nat.succ_le_succ (Nat.zero_le _), fun own next rest isAhead => ?_⟩
        cases own with
        | nil => exact .nil
        | cons => simp at isAhead
      · refine ⟨.ok token :: items, .seen last line (fun eof => absurd eof isEof) fun _ => scans,
          Nat.succ_le_succ few, fun own next rest isAhead => ?_⟩
        cases own with
        | nil => exact .nil
        | cons first own =>
            obtain ⟨isFirst, rfl⟩ := List.cons.inj isAhead
            obtain rfl := Except.ok.inj isFirst
            exact Writable.cons_iff.mpr ⟨writable isEof, scans.writable_of_append⟩

/-- A program is read from the tokens that its call takes. -/
theorem loose_of_answer {text : String}
    (returned : (Parser.ofText text).answer calls = .ok program) :
    ∃ own, ((Parser.ofText text).behind (calls + 1)).done =
        ((Parser.ofText text).behind calls).done ++ own ∧
      program.Loose (kinds own) ∧ Writable (kinds own) := by
  have fits := (steps_behind (.ofText text) calls).fits (Stream.fits_ofText text)
  have ran := answer_eq_ok.mp returned
  obtain ⟨ahead, before, few, writable⟩ := exists_before fits
  have ends := (follows_functions few (Nat.le_refl 0)).runs _ ahead before trivial (Nat.le_refl _)
  rw [← program_eq_functions, ran] at ends
  obtain ⟨own, isAhead, loose, -, taken, -⟩ := ends
  exact ⟨own, taken, loose, writable own _ _ isAhead⟩

end Parser

namespace Stream

variable {stream : Stream} {token : Token} {later : List Item}

theorem Shows.next_ok (shows_ : stream.Shows (.ok token :: later)) :
    ∃ stream', next stream = .ok token stream' ∧
      stream'.Shows (Item.after true (.ok token) later) := by
  obtain ⟨stream', peeked, inView, -, shows'⟩ := shows_.peek_ok
  obtain ⟨dropped, drops, -, showsDropped⟩ := shows'.drop inView
  refine ⟨dropped, ?_, showsDropped⟩
  simp only [next, bind, EStateM.bind, peeked, drops]
  rfl

theorem Shows.next_error {error : CompileError} (shows_ : stream.Shows (.error error :: later)) :
    ∃ stream', next stream = .error error stream' ∧ stream'.Shows later := by
  obtain ⟨stream', peeked, -, shows'⟩ := shows_.peek_error
  refine ⟨stream', ?_, shows'⟩
  simp only [next, bind, EStateM.bind, peeked]

/-- The items of a text are what is found by taking one token after the other up to its end. -/
theorem Shows.takes {before : List Item} {last : Token}
    (shows_ : stream.Shows (before ++ [.ok last]))
    (noEnds : ∀ item ∈ before, Item.isEnd item = false) :
    stream.takes (before.length + 1) = before ++ [.ok last] := by
  induction before generalizing stream with
  | nil =>
      obtain ⟨stream', taken, -⟩ := shows_.next_ok
      simp only [List.length_nil, Stream.takes, taken, List.nil_append]
  | cons item rest ih =>
      obtain ⟨noEnd, others⟩ := List.forall_mem_cons.mp noEnds
      cases item with
      | ok token =>
          obtain ⟨stream', taken, shows'⟩ := shows_.next_ok
          rw [Item.after, noEnd] at shows'
          simp only [List.length_cons, Stream.takes, taken, ih shows' others, List.cons_append]
      | error error =>
          obtain ⟨stream', taken, shows'⟩ := shows_.next_error
          simp only [List.length_cons, Stream.takes, taken, ih shows' others, List.cons_append]

end Stream

private theorem tokenize_of_failed {text : String} {character : Char} {line : Nat}
    (failed : (Parser.ofText text).answer 0 = .error (.badCharacter character line)) :
    tokenize text = .error (.badCharacter character line) := by
  have ends := Parse.stepwise_program ((Parser.ofText text).behind 0)
  rw [Parser.answer_eq_error.mp failed] at ends
  cases ends with
  | broken tokens steps =>
      have items : (Cursor.start text).items = _ := steps.unscanned
      exact Item.tokens_eq_error.mpr ⟨tokens, _, by simpa using items⟩

/-- The calls of a parser at the start of a text find its items one after the other, each of them
    once and the end of the text last. They report the tokens among them as scanned, and a call
    that returns a program has found the last one. Where the first call fails on a character,
    that is the one on which the tokens of the text fail. -/
theorem log_of_text (text : String) : ∃ before last, last.kind = .eof ∧
    (∀ item ∈ before, Item.isEnd item = false) ∧
    (Stream.ofText text).takes (before.length + 1) = before ++ [.ok last] ∧
    (∀ calls, (Parser.ofText text).log calls <+: before ++ [.ok last] ∧
      ((Parser.ofText text).log calls).countP Item.isEnd ≤ 1 ∧
      ((Parser.ofText text).behind calls).scannedEvents =
        (((Parser.ofText text).log calls).filterMap Except.toOption).map .scanned) ∧
    (∀ calls program, (Parser.ofText text).answer calls = .ok program →
      (Parser.ofText text).log (calls + 1) = before ++ [.ok last]) ∧
    ∀ character line, (Parser.ofText text).answer 0 = .error (.badCharacter character line) →
      tokenize text = .error (.badCharacter character line) := by
  obtain ⟨before, last, items, isEof, noEnds⟩ := (Cursor.start text).items_end
  have shows_ : (Stream.ofText text).Shows (before ++ [.ok last]) := .fresh items
  have found : ∀ calls, before ++ [.ok last] = (Parser.ofText text).log calls ++
      ((Parser.ofText text).behind calls).stream.unscanned :=
    fun calls => items ▸ (Parser.steps_behind (.ofText text) calls).unscanned
  have once : (before ++ [Except.ok last]).countP Item.isEnd = 1 := by
    rw [List.countP_append, List.countP_eq_zero.mpr (by simpa using noEnds)]
    simp [Item.isEnd, isEof]
  refine ⟨before, last, isEof, noEnds, shows_.takes noEnds, fun calls => ⟨?_, ?_, ?_⟩,
    fun calls program returned => ?_, fun character line failed => ?_⟩
  · exact ⟨_, (found calls).symm⟩
  · rw [← once, found calls, List.countP_append]
    exact Nat.le_add_right _ _
  · rw [Parser.scannedEvents, (Parser.steps_behind (.ofText text) calls).scanned]
    rfl
  · rw [found (calls + 1), Parser.unscanned_of_ok returned, List.append_nil]
  · exact tokenize_of_failed failed

/-- The first call fails on a character, and the second one on the second function. -/
def resumedText : String :=
  "$ function f(\nfunction g(): int \x7b return 1; \x7d"

/-- The third call returns this function, and then all items of the text are found. -/
theorem resumed_log : ∃ program before last,
    (Parser.ofText resumedText).answer 0 = .error (.badCharacter '$' 1) ∧
    (Parser.ofText resumedText).answer 1 =
      .error (.unexpected (.keyword .function) (.token .ident) 2) ∧
    (Parser.ofText resumedText).answer 2 = .ok program ∧
    (Stream.ofText resumedText).takes (before.length + 1) = before ++ [.ok last] ∧
    (Parser.ofText resumedText).log 3 = before ++ [.ok last] ∧ before.length = 15 ∧
    tokenize resumedText = .error (.badCharacter '$' 1) := by
  have failing : ∀ {answer : Except CompileError Program} {error : CompileError},
      (match answer with | .ok _ => false | .error found => found == error) = true →
        answer = .error error := by
    rintro (found | _) error same
    · rw [eq_of_beq same]
    · cases same
  have first : (Parser.ofText resumedText).answer 0 = .error (.badCharacter '$' 1) :=
    failing (by decide +kernel)
  have second : (Parser.ofText resumedText).answer 1 =
      .error (.unexpected (.keyword .function) (.token .ident) 2) := failing (by decide +kernel)
  obtain ⟨program, third, sixteen⟩ := exists_ok_of_any (x := (Parser.ofText resumedText).answer 2)
    (p := fun _ => ((Parser.ofText resumedText).log 3).length == 16) (by decide +kernel)
  obtain ⟨before, last, -, -, takes, -, whole, sameError⟩ := log_of_text resumedText
  have whole := whole 2 program third
  refine ⟨program, before, last, first, second, third, takes, whole, ?_, sameError _ _ first⟩
  simpa [whole] using sixteen

end Wordlang
