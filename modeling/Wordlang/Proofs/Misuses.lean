import Wordlang.Proofs.Language
import Wordlang.Proofs.Written

/-! # Lines of misuses

A program that is refused for a misuse of a name is refused at a line that has to do with a token
of this name. Mostly it is the line of the name itself. A second function of one name is reported
at the line of the keyword in front of it, a variable at the line where its declaration begins, a
callee at the line where the assignment of its result begins, and the target of an assignment at
the line in which the right side or the index of this assignment is rooted.
-/

namespace Wordlang

def Param.Written (param : Param) (own : List Token) : Prop :=
  ⟨.ident param.name, param.line⟩ ∈ own

/-- The line of a declaration is that of its keyword, and it goes on to each of its names. -/
def Decl.Written (decl : Decl) (own : List Token) : Prop :=
  ∀ name ∈ decl.names, ∃ at_,
    Token.Reaches own [⟨.keyword .var, decl.line⟩] ⟨.ident name, at_⟩

theorem Param.persists_written : Parse.Persists Param.Written :=
  fun _ _ _ inside written => inside.subset written

theorem Decl.persists_written : Parse.Persists Decl.Written := by
  intro decl own own' inside written name mem
  obtain ⟨at_, reaches⟩ := written name mem
  exact ⟨at_, reaches.mono inside⟩

/-- A function is read from some tokens: its name is behind its keyword, and wherever it may be
    blamed, the tokens say what the line is. -/
structure Func.Written (func : Func) (own : List Token) : Prop where
  head : ∃ at_, [⟨.keyword .function, func.line⟩, ⟨.ident func.name, at_⟩] <:+: own
  points : ∀ cause line, func.Blames cause line → Misuse.Points own line cause

theorem Func.persists_written : Parse.Persists Func.Written := by
  rintro func own own' inside ⟨⟨at_, head⟩, points⟩
  exact ⟨⟨at_, head.trans inside⟩, fun cause line blamed => (points cause line blamed).mono inside⟩

theorem Func.points_of_parts {func : Func} {own : List Token}
    (params : ∀ param ∈ func.params, param.Written own)
    (decls : ∀ decl ∈ func.decls, decl.Written own) (body : ∀ stmt ∈ func.body, stmt.Written own)
    (result : func.result.Named own) (cause : Misuse) (line : Nat)
    (blamed : func.Blames cause line) : Misuse.Points own line cause := by
  cases blamed with
  | param mem misused =>
      obtain rfl | misused := misused
      · exact .name (.inr (.inr (.inr rfl))) (params _ mem)
      · exact .name (.inr (.inr (.inl misused))) (params _ mem)
  | decl mem inDecl misused =>
      obtain ⟨at_, reaches⟩ := decls _ mem _ inDecl
      exact .declaration misused reaches
  | stmt mem blamed => exact body _ mem cause line blamed
  | result isPart blamed => exact result _ isPart cause line blamed

namespace Parse

variable {token : Token}

open Wordlang.Parser (sees type param decl bodyGoesOn func functions)

theorem spans_type : type.Spans fun _ _ => True := by
  apply spans_peek
  rintro ⟨kind, line⟩
  cases kind with
  | keyword word =>
      cases word with
      | int | bool =>
          apply (spansAt_next (by simp)).bind
          intros
          exact spans_pure trivial
      | intarray =>
          apply (spansAt_next (by simp)).bind
          rintro _ _ -
          apply (spans_mark .openBracket).bind
          rintro _ _ -
          apply spans_num.bind
          rintro length _ -
          apply (spans_mark .closeBracket).bind
          intros
          exact spans_pure trivial
      | _ => exact Spans.at spans_unexpected _
  | _ => exact Spans.at spans_unexpected _

private theorem spans_param : param.Spans Param.Written := by
  apply spans_peek
  rintro ⟨kind, line⟩
  apply (spans_ident.atToken _).bind
  rintro name _ ⟨rfl, rfl⟩
  apply (spans_mark .colon).bind
  rintro _ _ -
  apply spans_type.bind
  rintro type _ -
  exact spans_pure List.mem_cons_self

private theorem spans_decl (fuel : Nat) : (decl fuel).Spans (Behind Decl.Written) := by
  apply spans_peek
  rintro ⟨kind, line⟩
  apply ((spans_word .var).atToken _).bind
  rintro _ _ ⟨rfl, rfl⟩
  have persists : Persists fun (name : String) own => ∃ at_, ⟨.ident name, at_⟩ ∈ own :=
    fun name own own' inside ⟨at_, mem⟩ => ⟨at_, inside.subset mem⟩
  have names : Parser.ident.Spans fun name own =>
      (∃ at_, ⟨.ident name, at_⟩ ∈ own) ∧ ∀ token ∈ own, token.Inner := by
    refine spans_ident.imp ?_
    rintro name _ ⟨⟨_, at_⟩, rfl, rfl⟩
    exact ⟨⟨at_, List.mem_singleton_self _⟩,
      List.forall_mem_singleton.mpr (by simp [Token.Inner])⟩
  have commas : ∀ token : Token, token.kind = .punct .comma → token.Inner :=
    fun token isComma => by simp [Token.Inner, isComma]
  apply (spans_commaList persists commas names fuel).bind
  rintro names own ⟨each, inner⟩
  apply (spans_mark .colon).bind
  intro _ colon _
  apply spans_type.bind
  intro type ofType _
  apply (spans_mark .semicolon).bind
  rintro _ _ ⟨last, rfl, isLast⟩
  apply spans_pure
  rw [List.append_nil, ← List.append_assoc]
  have ready := Token.ready_singleton (by simp [Token.Inner, isLast] : ¬ last.Inner)
  refine behind_of_own Decl.persists_written (fun name mem => ?_)
    (((ready.behind _).behind _).behind _)
  obtain ⟨at_, inNames⟩ := each name mem
  exact ⟨at_, Token.reaches_of_mem inNames inner⟩

theorem spansAt_word {word : Keyword} (other : token.kind ≠ .keyword word) :
    SpansAt token (Parser.word word) fun _ _ => False :=
  ((spans_word word).atToken token).imp fun ⟨_, isWord⟩ => other isWord

private theorem spans_bodyGoesOn : bodyGoesOn.Spans fun _ own => own = [] := by
  apply spans_peek
  rintro ⟨kind, line⟩
  dsimp only
  split
  · apply Spans.at
    exact spans_pure rfl
  · exact (spansAt_word (by simp)).bind nofun
  · exact (spansAt_word (by simp)).bind nofun
  · apply Spans.at
    exact spans_pure rfl

private theorem spans_func (fuel : Nat) : (func fuel).Spans Func.Written := by
  apply spans_peek
  rintro ⟨kind, line⟩
  apply ((spans_word .function).atToken _).bind
  rintro _ _ ⟨rfl, rfl⟩
  apply spans_ident.bind
  rintro name _ ⟨⟨_, at_⟩, rfl, rfl⟩
  apply (spans_mark .openParen).bind
  intro _ opening _
  apply (spans_parenList Param.persists_written spans_param fuel).bind
  intro params ofParams areParams
  apply (spans_mark .colon).bind
  intro _ colon _
  apply spans_type.bind
  intro returns ofReturns _
  apply (spans_mark .openBrace).bind
  rintro _ _ ⟨brace, rfl, isBrace⟩
  apply (spans_whileM_behind Decl.persists_written ((spans_sees _).imp .inl)
    (spans_decl fuel) fuel).bind
  intro decls ofDecls behindBrace
  obtain ⟨areDecls, ready⟩ := behindBrace [brace]
    (Token.ready_singleton (by simp [Token.Inner, isBrace]))
  apply (spans_whileM_behind Stmt.persists_written (spans_bodyGoesOn.imp .inl)
    (spans_stmt fuel) fuel).bind
  intro body ofBody behindDecls
  obtain ⟨written, -⟩ := behindDecls _ ready
  apply (spans_word .return_).bind
  intro _ word _
  apply (spans_expr fuel).bind
  intro result ofResult ofExpr
  apply (spans_mark .semicolon).bind
  intro _ semicolon _
  apply (spans_mark .closeBrace).bind
  intro _ last _
  apply spans_pure
  let pieces := [[⟨.keyword .function, line⟩, ⟨.ident name, at_⟩], opening, ofParams, colon,
    ofReturns, [brace] ++ ofDecls ++ ofBody, word, ofResult, semicolon, last]
  suffices all : Func.Written _ pieces.flatten by simpa [pieces] using all
  have inside : ∀ piece ∈ pieces, piece <:+: pieces.flatten :=
    fun _ mem => List.infix_of_mem_flatten mem
  have braced : [brace] ++ ofDecls ++ ofBody <:+: pieces.flatten := inside _ (by simp [pieces])
  refine ⟨⟨at_, inside _ List.mem_cons_self⟩, Func.points_of_parts ?params ?decls ?body ?result⟩
  case params => exact Param.persists_written.all _ _ _ (inside _ (by simp [pieces])) areParams
  case decls =>
    have behind : [brace] ++ ofDecls <:+: [brace] ++ ofDecls ++ ofBody := ⟨[], ofBody, rfl⟩
    exact Decl.persists_written.all _ _ _ (behind.trans braced) areDecls
  case body => exact Stmt.persists_written.all _ _ _ braced written
  case result => exact Expr.persists_named _ _ _ (inside _ (by simp [pieces])) ofExpr.names

theorem spans_functions (fuel : Nat) : (functions fuel).Spans fun program own =>
    ∀ cause line, program.Blames cause line → Misuse.Points own line cause := by
  apply (spans_whileM_each Func.persists_written ((spans_sees _).imp fun _ _ _ => trivial)
    ((spans_func fuel).imp fun written => ⟨written, fun _ _ => trivial⟩) fuel).bind
  rintro program own ⟨written, -⟩
  apply (spans_sees .eof).then
  intro isEnd
  cases isEnd with
  | false => exact spans_unexpected
  | true =>
      apply spans_pure
      intro cause line blamed
      rw [List.append_nil]
      cases blamed with
      | redefined mem =>
          obtain ⟨at_, head⟩ := (written _ mem).head
          exact .function head
      | func mem blamed => exact (written _ mem).points cause line blamed

end Parse

private theorem blames_of_compile {options : Options} {text : String} {cause : Misuse} {line : Nat}
    (refused : compile options text = .error (.misuse cause line)) : ∃ program parser,
      Parser.program.run (.ofText text) = .ok program parser ∧ program.Blames cause line := by
  cases parsed : Parser.program.run (.ofText text) with
  | error error parser =>
      have unread : (readProgram text).result = .error error := by rw [readProgram, parsed]
      cases (compile_of_unread unread).symm.trans refused
      rcases Parser.program_eq_error parsed with ⟨_, _, _, same⟩ | ⟨_, _, same⟩ <;> cases same
  | ok program parser =>
      have read : (readProgram text).result = .ok program := by rw [readProgram, parsed]
      refine ⟨program, parser, rfl, ?_⟩
      cases checked : program.check with
      | error error checker =>
          cases (compile_of_refused read checked).symm.trans refused
          obtain ⟨_, _, same, blamed⟩ := Program.check_blames checked
          cases same
          exact blamed
      | ok tree checker =>
          obtain ⟨code, made⟩ := compile_of_checked options read checked
          cases made.symm.trans refused

/-- A text that is refused for a misuse consists of tokens, and these say what its line is: that
    of the misused name, of the keyword of its function or declaration, of the target of the call,
    or of the root of what is assigned to it. -/
theorem misuse_points {options : Options} {text : String} {cause : Misuse} {line : Nat}
    (refused : compile options text = .error (.misuse cause line)) :
    ∃ tokens, tokenize text = .ok tokens ∧ cause.Points tokens line := by
  obtain ⟨program, parser, ran, blamed⟩ := blames_of_compile refused
  obtain ⟨items, scans⟩ := (Cursor.start text).exists_scans
  obtain ⟨tokens, isAll⟩ : ∃ tokens : List Token, items = tokens.map .ok := by
    obtain ⟨all, at_, rfl, -⟩ := Parser.items_of_program scans ran
    exact ⟨all ++ [{ kind := .eof, line := at_ }], by simp⟩
  subst isAll
  have before : (Parser.ofText text).Before (tokens.map .ok) := .fresh scans
  rw [Parser.run_program] at ran
  obtain ⟨own, rest, isAhead, -, points⟩ := Parse.spans_functions _ _ _ before trivial _ _ ran
  obtain ⟨later, rfl⟩ : ∃ later, tokens = own ++ later := by
    obtain ⟨own', later, rfl, same, -⟩ := List.map_eq_append_iff.mp isAhead
    exact ⟨later, by rw [List.map_injective_iff.mpr (fun _ _ => Except.ok.inj) same]⟩
  have inside : own <:+: own ++ later := ⟨[], later, rfl⟩
  exact ⟨own ++ later, tokenize_eq_ok.mpr scans, (points cause line blamed).mono inside⟩

/-- An undeclared variable is reported at its own line, though its statement begins above. -/
theorem misuse_points_summand :
    let text := "function f(): int \x7b\n    var a: int;\n    a = 1 +\n    b;\n    return a;\n\x7d"
    compile {} text = .error (.misuse (.undeclaredVariable "b") 4) ∧
      ∃ tokens, tokenize text = .ok tokens ∧ Misuse.Points tokens 4 (.undeclaredVariable "b") := by
  intro text
  have failed : (compile {} text).map (fun _ => ()) =
      .error (.misuse (.undeclaredVariable "b") 4) := by decide +kernel
  have refused := eq_error_of_map failed
  exact ⟨refused, misuse_points refused⟩

/-- A text is refused for a misuse at a line on which the misused name does not stand. -/
def RefusedElsewhere (text : String) (cause : Misuse) (line : Nat) : Prop :=
  compile {} text = .error (.misuse cause line) ∧
    ∃ tokens, tokenize text = .ok tokens ∧ ⟨.ident cause.subject, line⟩ ∉ tokens

theorem refusedElsewhere_of_decide {text : String} {cause : Misuse} {line : Nat}
    (refused : (compile {} text).map (fun _ => ()) = .error (.misuse cause line))
    (elsewhere : (tokenize text).toOption.any fun tokens =>
      decide (⟨.ident cause.subject, line⟩ ∉ tokens)) : RefusedElsewhere text cause line := by
  obtain ⟨tokens, clean, absent⟩ := exists_ok_of_any elsewhere
  exact ⟨eq_error_of_map refused, tokens, clean, of_decide_eq_true absent⟩

/-- Between the name and the token whose line is reported, the lines can be broken. -/
theorem refusals_elsewhere :
    RefusedElsewhere
      "function f(): int \x7b\n    var\n    a,\n    a: int;\n    return 0;\n\x7d"
      (.redeclared "a") 2 ∧
    RefusedElsewhere
      "function\nf(): int \x7b return 0; \x7d\nfunction\nf(): int \x7b return 1; \x7d"
      (.functionRedefined "f") 3 ∧
    RefusedElsewhere
      "function f(): int \x7b\n    var a: int;\n    a =\n    g(1);\n    return a;\n\x7d"
      (.undeclaredFunction "g") 3 ∧
    RefusedElsewhere
      "function f(): int \x7b\n    a =\n    1;\n    return 0;\n\x7d"
      (.undeclaredVariable "a") 3 ∧
    RefusedElsewhere
      "function f(): int \x7b\n    a[\n    0] = 1;\n    return 0;\n\x7d"
      (.undeclaredVariable "a") 3 :=
  ⟨refusedElsewhere_of_decide (by decide +kernel) (by decide +kernel),
    refusedElsewhere_of_decide (by decide +kernel) (by decide +kernel),
    refusedElsewhere_of_decide (by decide +kernel) (by decide +kernel),
    refusedElsewhere_of_decide (by decide +kernel) (by decide +kernel),
    refusedElsewhere_of_decide (by decide +kernel) (by decide +kernel)⟩

end Wordlang
