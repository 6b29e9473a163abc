import Wordlang.Proofs.Following.Stmt
import Wordlang.Proofs.RoundTrip

/-! # Following the grammar of programs

Reading functions follows the loose grammar. Every place in a function at which a token may be
refused is one from which the text can be completed to a program.
-/

namespace Wordlang

open Token (Kind Writable)
open Parse

def Func.unlined (func : Func) : Func :=
  { name := func.name, line := 0, params := func.params.map Param.bare, returns := func.returns,
    decls := func.decls.map Decl.bare, body := func.body.map Stmt.unlined,
    result := func.result.unlined, scope := func.scope }

namespace Parser

variable {size bound : Nat}

theorem follows_type :
    Follows type type size bound (fun ty own => own = Spelling.type ty) id := by
  have some : ∃ (ty : Ty) (own : List Kind), own = Spelling.type ty ∧ Writable own :=
    ⟨.int, _, rfl, by simp [Spelling.type]⟩
  have noType : ∀ kind, FollowsAt kind (unexpected .type) (unexpected .type) size bound
      (fun ty own => own = Spelling.type ty) id := (follows_unexpected some).at
  apply Follows.peek some
  intro kind line line'
  dsimp only
  cases kind with
  | keyword word =>
      cases word
      case int | bool =>
        apply FollowsAt.next (by simp)
        intro _ _
        exact follows_pure rfl rfl
      case intarray =>
        apply FollowsAt.next (by simp)
        intro _ _
        apply (follows_mark .openBracket).then
        rintro _ _ rfl
        apply follows_num.then
        rintro length _ rfl
        apply (follows_mark .closeBracket).then
        rintro _ _ rfl
        exact follows_pure rfl rfl
      all_goals exact noType _
  | _ => exact noType _

private theorem follows_param : Follows param param size bound
    (fun param own => own = Spelling.param param)
    Param.bare := by
  have some : ∃ (param : Param) (own : List Kind), own = Spelling.param param ∧ Writable own :=
    ⟨{ name := "x", type := .int, line := 0 }, _, rfl,
      by simp [Spelling.param, Spelling.type, Lexeme.isName_x]⟩
  apply Follows.peek some
  intro kind line line'
  apply Follows.at
  apply follows_ident.then
  rintro name _ rfl
  apply (follows_mark .colon).then
  rintro _ _ rfl
  apply follows_type.then
  rintro ty _ rfl
  exact follows_pure rfl (by simp [Spelling.param])

private theorem follows_decl {n m : Nat} (enough : size ≤ n) (enough' : bound ≤ m) :
    Follows (decl n) (decl m) size bound Spelling.Decl Decl.bare := by
  have some : ∃ (decl : Decl) (own : List Kind), Spelling.Decl decl own ∧ Writable own :=
    ⟨{ names := ["x"], type := .int, line := 0 }, _, ⟨_, .last rfl, rfl⟩,
      by simp [Spelling.type, Lexeme.isName_x]⟩
  apply Follows.peek some
  intro kind line line'
  apply Follows.at
  apply (follows_word .var).then
  rintro _ _ rfl
  have ident : Follows ident ident size bound (fun name own => own = [.ident name]) id :=
    follows_ident
  have names := ident.commaList (by rintro _ _ rfl; exact Nat.succ_pos _) enough enough'
  apply (names.mono (by omega) (by omega)).bind
  intro names names' own sameNames isNames
  simp only [List.map_id] at sameNames
  apply (follows_mark .colon).then
  rintro _ _ rfl
  apply follows_type.then
  rintro ty _ rfl
  apply (follows_mark .semicolon).then
  rintro _ _ rfl
  exact follows_pure (by rw [sameNames, Decl.bare, Decl.bare]) ⟨own, isNames, by simp⟩

private theorem follows_bodyGoesOn :
    Follows bodyGoesOn bodyGoesOn size bound (fun _ own => own = []) id := by
  have some : ∃ (goesOn : Bool) (own : List Kind), own = [] ∧ Writable own :=
    ⟨false, [], rfl, by simp⟩
  have goes : ∀ kind, FollowsAt kind (pure true) (pure true) size bound
      (fun (_ : Bool) own => own = []) id := by
    intro kind
    apply Follows.at
    exact follows_pure rfl rfl
  have lacks : ∀ kind, kind ≠ .keyword .return_ → FollowsAt kind
      (do
        word .return_
        return false)
      (do
        word .return_
        return false) size bound (fun (_ : Bool) own => own = []) id :=
    fun _ other => followsAt_missing other some
  apply Follows.peek some
  intro kind line line'
  dsimp only
  cases kind with
  | eof => exact lacks _ nofun
  | num | ident => exact goes _
  | keyword word =>
      cases word
      case return_ =>
        apply Follows.at
        exact follows_pure rfl rfl
      all_goals exact goes _
  | punct mark =>
      cases mark
      case closeBrace => exact lacks _ nofun
      all_goals exact goes _

private theorem exists_func : ∃ (func : Func) (own : List Kind), func.Loose own ∧ Writable own := by
  let func : Func :=
    { name := "x", line := 0, params := [], returns := .int, decls := [], body := []
      result := .int .bare 0 }
  have result : func.result.Spelled 0 [.num 0] := .of_le .int (Nat.zero_le _)
  exact ⟨func, _, .intro .none .nil .nil result, by simp [func, Lexeme.isName_x, Spelling.type]⟩

private theorem follows_func {n m : Nat} (enough : size ≤ n) (enough' : bound ≤ m) :
    Follows (func n) (func m) size bound Func.Loose Func.unlined := by
  apply Follows.peek exists_func
  intro kind line line'
  apply Follows.at
  apply (follows_word .function).then
  rintro _ _ rfl
  apply follows_ident.then
  rintro name _ rfl
  apply (follows_mark .openParen).then
  rintro _ _ rfl
  have param : Follows param param size bound (fun param own => own = Spelling.param param)
      Param.bare := follows_param
  have params := param.parenList (by rintro _ _ rfl; exact Nat.succ_pos _) enough enough'
  apply (params.mono (by omega) (by omega)).bind
  intro params params' ownParams sameParams isParams
  apply (follows_mark .colon).then
  rintro _ _ rfl
  apply follows_type.then
  rintro returns _ rfl
  apply (follows_mark .openBrace).then
  rintro _ _ rfl
  have decls := (follows_decl enough enough').whileM (follows_sees (.keyword .var))
    (by rintro _ _ ⟨_, _, rfl⟩; exact Nat.succ_pos _) ⟨[], rfl, .nil⟩ enough enough'
  apply (decls.mono (by omega) (by omega)).bind
  intro decls decls' ownDecls sameDecls isDecls
  have body := (follows_stmt enough enough').whileM follows_bodyGoesOn
    (fun loose => loose.length_pos) ⟨[], rfl, .nil⟩ enough enough'
  apply (body.mono (by omega) (by omega)).bind
  intro body body' ownBody sameBody isBody
  apply (follows_word .return_).then
  rintro _ _ rfl
  apply (follows_expr (by omega) (by omega)).bind
  intro result result' ownResult sameResult isResult
  apply (follows_mark .semicolon).then
  rintro _ _ rfl
  apply (follows_mark .closeBrace).then
  rintro _ _ rfl
  refine follows_pure ?_ ?_
  · simp only [Func.unlined, sameParams, sameDecls, sameBody, sameResult]
  · have loose : Func.Loose
        { name, line, params, returns, decls, body, result } _ :=
      .intro isParams isDecls.sequence isBody.sequence isResult
    simpa using loose

/-- Read functions up to the end of the text, with fuel for each list and each nesting. -/
def functions (fuel : Nat) : Parse Program := do
  let funcs ← whileM (sees (.keyword .function)) (func fuel) fuel
  if ← sees .eof then return funcs else unexpected .program

/-- A program is read as functions, with fuel for all tokens of its text. -/
theorem run_program (text : String) : program.run (.ofText text) =
    (functions (text.toList.length + 2)).run (.ofText text) := by
  rw [EStateM.run, EStateM.run]
  rfl

/-- Reading functions follows the loose grammar of programs. -/
theorem follows_functions {n m : Nat} (enough : size ≤ n) (enough' : bound ≤ m) :
    Follows (functions n) (functions m) size bound Program.Loose (List.map Func.unlined) := by
  have funcs := (follows_func enough enough').whileM (follows_sees (.keyword .function))
    (by rintro _ _ ⟨⟩; exact Nat.succ_pos _) ⟨[], rfl, .nil⟩ enough enough'
  apply funcs.bind
  intro funcs funcs' own same loop
  have loose : Program.Loose funcs own := loop.sequence
  apply (follows_sees .eof).then
  rintro isEof _ rfl
  cases isEof
  · exact follows_unexpected ⟨funcs, [], by simpa using loose, .nil⟩
  · exact follows_pure same (by simpa using loose)

theorem peek_inView {s s' : Parser} {token : Token} (peeked : peek s = .ok token s') :
    s'.stream.lookahead = some token := by
  obtain ⟨⟨cursor, lookahead, scanned⟩, nextId⟩ := s
  cases lookahead with
  | some seen =>
      cases peeked
      rfl
  | none =>
      simp only [peek, onStream, Stream.peek, Stream.advance] at peeked
      split at peeked
      · next h =>
        split at h
        · cases h
          cases peeked
          rfl
        · cases h
      · cases peeked

/-- Where functions were read, the end of the text is in view. -/
theorem functions_ended {fuel : Nat} {s s' : Parser} {funcs : Program}
    (ran : functions fuel s = .ok funcs s') :
    ∃ line, s'.stream.lookahead = some { kind := .eof, line } := by
  obtain ⟨_, s₁, _, ran⟩ := run_bind_eq_ok.mp ran
  obtain ⟨isEof, s₂, seen, ran⟩ := run_bind_eq_ok.mp ran
  obtain ⟨⟨kind, line⟩, s₃, peeked, seen⟩ := run_bind_eq_ok.mp seen
  obtain ⟨rfl, rfl⟩ := run_pure_eq_ok.mp seen
  cases kind with
  | eof =>
      obtain ⟨-, rfl⟩ := run_pure_eq_ok.mp ran
      exact ⟨line, peek_inView peeked⟩
  | _ =>
      obtain ⟨token, s₄, _, refused⟩ := run_bind_eq_ok.mp ran
      cases refused

/-- A parser that has the end of the text in view stands before the end. -/
theorem Before.ended {s : Parser} {ahead : List Item} {line : Nat} (before : s.Before ahead)
    (ended : s.stream.lookahead = some { kind := .eof, line }) :
    ahead = [.ok { kind := .eof, line }] := by
  cases before with
  | fresh => cases ended
  | seen _ _ eof =>
      cases ended
      rw [eof rfl]

end Parser

end Wordlang
