import Wordlang.Compile
import Wordlang.Proofs.Reading.Stmt
import Wordlang.Proofs.Scanning

/-! # Parsing undoes printing

However a program is spelled and laid out in a text, reading the text gives the program
back, up to ids and lines.
-/

namespace Wordlang

open Token (Kind)
open Parse

namespace Parser

theorem takes_type (ty : Ty) (rest : List Kind) :
    type.Takes (Spelling.type ty ++ rest) rest (· = ty) := by
  cases ty with
  | int | bool =>
      apply Takes.seen
      intro line
      exact takes_next.bind fun _ _ => takes_pure rfl
  | intarray length =>
      apply Takes.seen
      intro line
      apply takes_next.bind
      intro _ _
      apply (takes_mark .openBracket).bind
      intro _ _
      apply takes_num.bind
      rintro _ rfl
      exact (takes_mark .closeBracket).bind fun _ _ => takes_pure rfl

private theorem reads_param (bound : Nat) : Reads param
    (fun param kinds => kinds = Spelling.param param)
    (fun _ => True) bound Param.bare := by
  constructor
  · rintro ⟨name, ty, line⟩ _ rest rfl _ _
    apply Takes.seen
    intro line
    apply takes_ident.bind
    rintro _ rfl
    apply (takes_mark .colon).bind
    intro _ _
    apply (takes_type ty rest).bind
    rintro _ rfl
    exact takes_pure rfl
  · rintro _ _ rfl
    exact Nat.succ_pos _

private theorem takes_params {params : List Param} {kinds : List Kind}
    (written : Spelling.Parens (fun param kinds => kinds = Spelling.param param) params kinds)
    {fuel : Nat} (small : kinds.length ≤ fuel) : ∃ inner, kinds = .punct .openParen :: inner ∧
      ∀ rest, (parenList param fuel).Takes (inner ++ rest) rest
        fun found => found.map Param.bare = params.map Param.bare := by
  apply (reads_param fuel).parenList (fun _ => trivial) (fun _ => trivial) ?name written small small
  rintro _ _ _ rfl
  exact nofun

private theorem reads_name (bound : Nat) : Reads ident (fun name kinds => kinds = [.ident name])
    (fun _ => True) bound id := by
  constructor
  · rintro name _ rest rfl _ _
    exact takes_ident
  · rintro _ _ rfl
    exact Nat.succ_pos _

private theorem reads_decl (fuel : Nat) :
    Reads (decl fuel) Spelling.Decl (fun _ => True) fuel Decl.bare := by
  constructor
  · rintro ⟨names, ty, line⟩ _ rest ⟨kinds, isNames, rfl⟩ small _
    simp only [List.length_append, List.length_cons, List.append_assoc, List.cons_append,
      List.nil_append] at small ⊢
    apply Takes.seen
    intro line
    apply (takes_word .var).bind
    intro _ _
    apply ((reads_name fuel).commaList (fun _ => trivial) trivial (by nofun) isNames (by omega)
      (by omega)).bind
    intro names' same
    simp only [List.map_id] at same
    subst same
    apply (takes_mark .colon).bind
    intro _ _
    apply (takes_type ty _).bind
    rintro _ rfl
    exact (takes_mark .semicolon).bind fun _ _ => takes_pure rfl
  · rintro _ _ ⟨_, _, rfl⟩
    exact Nat.succ_pos _

theorem takes_sees_not {class_ : Token.Class} {rest : List Kind}
    (other : (front rest).class_ ≠ class_) : (sees class_).Takes rest rest (· = false) :=
  (takes_sees class_).weaken fun _ seen => seen.trans (decide_eq_false other)

theorem BeginsStmt.class_ne_var {kind : Kind} (begins : BeginsStmt kind) :
    kind.class_ ≠ .keyword .var := by
  intro isVar
  cases kind with
  | keyword word =>
      cases isVar
      exact begins
  | _ => cases isVar

/-- Behind the declarations of a function its statements begin, or its return. -/
theorem begins_or_return {stmts : List Stmt} {kinds : List Kind}
    (loose : Spelling.Sequence Stmt.Loose stmts kinds) (rest : List Kind) :
    BeginsStmt (front (kinds ++ .keyword .return_ :: rest)) ∨
      front (kinds ++ .keyword .return_ :: rest) = .keyword .return_ := by
  cases loose with
  | nil => exact .inr rfl
  | cons isFirst _ =>
      rw [List.append_assoc]
      exact .inl (isFirst.begins _)

private theorem takes_bodyGoesOn {kinds : List Kind} (begins : BeginsStmt (front kinds)) :
    bodyGoesOn.Takes kinds kinds (· = true) := by
  apply takes_peek.bind
  intro token isFront
  rw [← isFront] at begins
  split
  · next isReturn => exact absurd isReturn (begins.ne id)
  · next isBrace => exact absurd isBrace (begins.ne id)
  · next isEof => exact absurd isEof (begins.ne id)
  · exact takes_pure rfl

private theorem takes_decls {decls : List Decl} {kinds rest : List Kind}
    (written : Spelling.Sequence Spelling.Decl decls kinds) {fuel : Nat}
    (enough : kinds.length < fuel) (other : (front rest).class_ ≠ .keyword .var) :
    (whileM (sees (.keyword .var)) (decl fuel) fuel).Takes (kinds ++ rest) rest
      fun found => found.map Decl.bare = decls.map Decl.bare := by
  apply (reads_decl fuel).whileM ?goes (takes_sees_not other) trivial written (by omega) enough
  rintro decl _ later ⟨_, _, rfl⟩
  exact ⟨trivial, takes_sees _⟩

private theorem takes_body {stmts : List Stmt} {kinds : List Kind}
    (loose : Spelling.Sequence Stmt.Loose stmts kinds) {fuel : Nat}
    (enough : kinds.length < fuel) (rest : List Kind) :
    (whileM bodyGoesOn (stmt fuel) fuel).Takes (kinds ++ .keyword .return_ :: rest)
      (.keyword .return_ :: rest) fun found => found.map Stmt.bare = stmts.map Stmt.bare := by
  apply (reads_stmt fuel).whileM ?goes ?stops (by nofun) loose (by omega) enough
  case goes =>
    intro stmt own later isStmt
    have begins := isStmt.begins later
    exact ⟨begins.ne id, takes_bodyGoesOn begins⟩
  case stops =>
    apply Takes.seen
    intro line
    exact takes_pure rfl

private theorem reads_func (fuel : Nat) :
    Reads (func fuel) Func.Loose (fun _ => True) fuel Func.bare := by
  constructor
  · intro written kinds rest loose small _
    obtain @⟨params, decls, body, result, isParams, isDecls, isBody, isResult⟩ := loose
    simp only [List.length_append, List.length_cons, List.append_assoc, List.cons_append,
      List.nil_append] at small ⊢
    apply Takes.seen
    intro line
    apply (takes_word .function).bind
    intro _ _
    apply takes_ident.bind
    rintro _ rfl
    have smallParams : params.length ≤ fuel := by omega
    obtain ⟨inner, rfl, takesParams⟩ := takes_params isParams smallParams
    apply (takes_mark .openParen).bind
    intro _ _
    apply (takesParams _).bind
    intro params' sameParams
    apply (takes_mark .colon).bind
    intro _ _
    apply (takes_type _ _).bind
    rintro _ rfl
    apply (takes_mark .openBrace).bind
    intro _ _
    apply (takes_decls isDecls (by omega) ?notVar).bind
    case notVar =>
      rcases begins_or_return isBody _ with begins | isReturn
      · exact begins.class_ne_var
      · rw [isReturn]
        nofun
    intro decls' sameDecls
    apply (takes_body isBody (by omega) _).bind
    intro body' sameBody
    apply (takes_word .return_).bind
    intro _ _
    apply isResult.takes_closed (by omega) fun _ => stops_of_other (by decide)
    intro result' sameResult
    apply (takes_mark .closeBrace).bind
    intro _ _
    refine takes_pure ?_
    simp only [Func.bare, sameParams, sameDecls, Stmt.bareAll_eq_map, sameBody, sameResult]
  · rintro _ _ ⟨⟩
    exact Nat.succ_pos _

theorem takes_program {written : Program} {kinds : List Kind} (loose : written.Loose kinds)
    {fuel : Nat} (enough : kinds.length < fuel) :
    Takes (do
      let funcs ← whileM (sees (.keyword .function)) (func fuel) fuel
      if ← sees .eof then return funcs else unexpected .program) kinds []
      fun found => found.map Func.bare = written.map Func.bare := by
  have funcs : (whileM (sees (.keyword .function)) (func fuel) fuel).Takes (kinds ++ []) []
      fun found => found.map Func.bare = written.map Func.bare := by
    apply (reads_func fuel).whileM ?goes (takes_sees_not (by nofun)) trivial loose (by omega)
      enough
    rintro func _ later ⟨⟩
    exact ⟨trivial, takes_sees _⟩
  rw [List.append_nil] at funcs
  apply funcs.bind
  intro found same
  apply (takes_sees .eof).bind
  rintro _ rfl
  exact takes_pure same

end Parser

/-- Every text from which the tokens of a program are scanned is read as that program. -/
theorem readProgram_of_yields {program : Program} {kinds : List Kind} {text : String}
    (yields : (Cursor.start text).Yields kinds) (loose : program.Loose kinds) :
    ∃ found, (readProgram text).result = .ok found ∧ found.bare = program.bare := by
  obtain ⟨tokens, scans, same⟩ := yields.scans
  have enough : kinds.length < text.toList.length + 2 := by
    have few : (tokens.map Except.ok : List Item).length ≤ text.toList.length + 1 :=
      scans.length_le
    have all := congrArg List.length same
    rw [Token.length_kinds, List.length_append, List.length_singleton] at all
    rw [List.length_map] at few
    omega
  obtain ⟨found, parser, ran, same, _⟩ :=
    Parser.takes_program loose enough (.ofText text) (.fresh yields)
  have whole : Parser.program.run (.ofText text) = .ok found parser := ran
  exact ⟨found, by rw [readProgram, whole], same⟩

/-- Tokens, each behind a blank. -/
def Text.spaced (kinds : List Kind) : List Char :=
  kinds.flatMap fun kind => ' ' :: kind.text.toList

theorem Text.holds_spaced (kinds : List Kind) : Holds kinds (spaced kinds) := by
  have ends : ∀ later, Lexeme.Ends (spaced later) := by
    rintro later c rest same
    cases later with
    | nil => cases same
    | cons => cases same; decide
  induction kinds with
  | nil => exact .nil rfl
  | cons kind kinds ih =>
      have blank : [' '].all isBlank = true := by decide
      exact .cons blank (ends kinds) ih

/-- A program with plain names and numbers can be written, and whatever text it is written
    as, with more parentheses than needed and with any blanks between its tokens, is read as
    the same program up to ids and lines. -/
theorem readProgram_spelled {program : Program} (plain : program.Plain) :
    (∃ (kinds : List Kind) (text : String),
      program.Spelled kinds ∧ Text.Holds kinds text.toList) ∧
      ∀ kinds text, program.Spelled kinds → Text.Holds kinds text.toList →
        ∃ found, (readProgram text).result = .ok found ∧ found.bare = program.bare := by
  constructor
  · obtain ⟨kinds, spelled⟩ := Program.exists_spelled plain
    have holds : Text.Holds kinds (String.ofList (Text.spaced kinds)).toList := by
      rw [String.toList_ofList]
      exact Text.holds_spaced kinds
    exact ⟨kinds, _, spelled, holds⟩
  · intro kinds text spelled holds
    exact readProgram_of_yields (holds.yields (spelled.writable plain) 1) spelled.loose

/-- A function that calls itself and subtracts twice. -/
def descending : Func :=
  let x := Expr.var .bare "x"
  { name := "f", line := 1, params := [{ name := "x", type := .int, line := 1 }], returns := .int
    decls := []
    body := [.when (.binary .bare .less x (.int .bare 1)) [.call 1 "x" "f" [.unary .bare .neg x]]]
    result := .binary .bare .minus (.binary .bare .minus x (.unary .bare .magnitude x))
      (.int .bare 2) }

/-- The function as a text, with parentheses that it does not need. -/
def descendingText : String :=
  " function f ( x : int ) : int \x7b if ( ( x ) < 1 ) \x7b x = f ( - x ) ; \x7d" ++
    " return x - | x | - 2 ; \x7d"

private theorem descending_plain : descending.Plain := by
  have f : Lexeme.IsName "f" := ⟨⟨'f', [], rfl, rfl, rfl⟩, rfl⟩
  have x : Lexeme.IsName "x" := ⟨⟨'x', [], rfl, rfl, rfl⟩, rfl⟩
  constructor <;> simp [descending, f, x, Ty.Plain, Stmt.PlainAll, Stmt.Plain, Expr.Plain,
    Lexeme.maxNumber]

private theorem descending_spelled :
    ∃ kinds, descending.Spelled kinds ∧ Text.spaced kinds = descendingText.toList := by
  have x : ∀ {rank}, rank ≤ operandRank → Expr.Spelled rank (.var .bare "x") [.ident "x"] :=
    fun le => .of_le .var le
  have nat : ∀ {rank value}, rank ≤ operandRank →
    Expr.Spelled rank (.int .bare value) [.num value] := fun le => .of_le .int le
  have less : Expr.Spelled BinOp.less.rank
      (.binary .bare .less (.var .bare "x") (.int .bare 1)) _ :=
    .binary (.of_le (.parens (x (by decide))) (by decide)) (nat (by decide))
  have arg : Expr.Spelled 0 (.unary .bare .neg (.var .bare "x")) _ :=
    .of_le (.neg (x (by decide))) (by decide)
  have once : Expr.Spelled BinOp.minus.rank
      (.binary .bare .minus (.var .bare "x") (.unary .bare .magnitude (.var .bare "x"))) _ :=
    .binary (x (by decide)) (.of_le (.magnitude (x (by decide))) (by decide))
  have twice : Expr.Spelled BinOp.minus.rank
      (.binary .bare .minus (.binary .bare .minus (.var .bare "x")
        (.unary .bare .magnitude (.var .bare "x"))) (.int .bare 2)) _ :=
    .binary once (nat (by decide))
  refine ⟨_, .intro (.some (.last rfl)) .nil (.when (less.of_le (by decide))
    (.call (.some (.last arg)) .nil) .nil) (twice.of_le (by decide)), ?_⟩
  decide +kernel

theorem readProgram_spelled_descending : Program.Plain [descending] ∧
    ∃ found, (readProgram descendingText).result = .ok found ∧
      found.bare = Program.bare [descending] := by
  have plain : Program.Plain [descending] := fun func mem => by
    rw [List.mem_singleton.mp mem]
    exact descending_plain
  obtain ⟨kinds, spelled, text⟩ := descending_spelled
  have holds := Text.holds_spaced kinds
  rw [text] at holds
  have whole : Program.Spelled [descending] (kinds ++ []) := .cons spelled .nil
  rw [List.append_nil] at whole
  exact ⟨plain, (readProgram_spelled plain).2 kinds _ whole holds⟩

end Wordlang
