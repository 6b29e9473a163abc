import Wordlang.Proofs.Following.Program
import Mathlib.Data.List.Chain

/-! # The language

Which texts are read as programs, and where reading stops in all others. The texts are those
whose tokens spell a program by the loose grammar. In a text without such a program, reading
stops at the first token at which no way to go on is left.
-/

namespace Wordlang

open Token (Kind Writable kinds)

namespace Parser

variable {text : String} {items : List Item}

/-- Reading a text follows the grammar, and other texts are read alike. -/
theorem ends_program (scans : (Cursor.start text).Scans items) (fuel : Nat) :
    Parse.Ends (functions fuel) fuel Program.Loose (List.map Func.unlined) (.ofText text) items
      (program.run (.ofText text)) := by
  have enough : items.length ≤ text.toList.length + 2 := Nat.le_succ_of_le scans.length_le
  have follows := follows_functions (Nat.le_refl (text.toList.length + 2)) (Nat.le_refl fuel)
  rw [run_program]
  exact follows.runs _ _ (.fresh scans) trivial enough

/-- At the start of a text its tokens are ahead, and there is fuel for all of them. -/
theorem faces_of_scans {tokens : List Token} {own more : List Kind} {kind : Kind}
    (scans : (Cursor.start text).Scans (tokens.map .ok))
    (all : kinds tokens = own ++ kind :: more) :
    own.length < text.toList.length + 2 ∧ (ofText text).Faces (own ++ kind :: more) := by
  refine ⟨?_, tokens, .fresh scans, all⟩
  have bound : (tokens.map Except.ok : List Item).length ≤ text.toList.length + 1 := scans.length_le
  have size := congrArg List.length all
  simp only [List.length_append, Token.length_kinds, List.length_cons] at size
  rw [List.length_map] at bound
  omega

/-- Where a program was read, all items of the text are its tokens, up to the end. -/
theorem items_of_program {found : Program} {parser : Parser}
    (scans : (Cursor.start text).Scans items)
    (ran : program.run (.ofText text) = .ok found parser) : ∃ (own : List Token) (line : Nat),
      items = own.map .ok ++ [.ok { kind := .eof, line }] ∧ found.Loose (kinds own) := by
  have ends := ends_program scans 0
  rw [ran] at ends
  cases ends with
  | ok _ isAhead loose before =>
      rw [run_program] at ran
      obtain ⟨line, ended⟩ := functions_ended ran
      rw [before.ended ended] at isAhead
      exact ⟨_, line, isAhead, loose⟩

end Parser

theorem readProgram_eq_ok {text : String} {program : Program} :
    (readProgram text).result = .ok program ↔
      ∃ parser, Parser.program.run (.ofText text) = .ok program parser := by
  unfold readProgram
  cases Parser.program.run (.ofText text) <;> simp

/-- A text that is read as a program consists of the tokens of the program. -/
theorem loose_of_readProgram {text : String} {program : Program}
    (read : (readProgram text).result = .ok program) : ∃ tokens kinds,
      tokenize text = .ok tokens ∧ Token.kinds tokens = kinds ++ [.eof] ∧ program.Loose kinds := by
  obtain ⟨parser, ran⟩ := readProgram_eq_ok.mp read
  obtain ⟨items, scans⟩ := (Cursor.start text).exists_scans
  obtain ⟨own, line, rfl, loose⟩ := Parser.items_of_program scans ran
  refine ⟨own ++ [{ kind := .eof, line }], kinds own, ?_, by simp, loose⟩
  rw [tokenize_eq_ok]
  simpa using scans

private theorem readProgram_of_loose {text : String} {tokens : List Token} {kinds : List Kind}
    {program : Program} (clean : tokenize text = .ok tokens)
    (all : Token.kinds tokens = kinds ++ [.eof]) (loose : program.Loose kinds) :
    ∃ found, (readProgram text).result = .ok found ∧ found.bare = program.bare := by
  obtain ⟨own, yields, same⟩ := (tokenize_eq_ok.mp clean).yields rfl
  obtain rfl := List.append_cancel_right (same.symm.trans all)
  exact readProgram_of_yields yields loose

/-- The texts that are read as programs are those whose tokens spell one by the loose grammar,
    and they are read as what their tokens spell. -/
theorem readProgram_language (text : String) :
    (∀ program : Program, (readProgram text).result = .ok program → ∃ tokens kinds,
      tokenize text = .ok tokens ∧ Token.kinds tokens = kinds ++ [.eof] ∧ program.Loose kinds) ∧
    ∀ (tokens : List Token) (kinds : List Kind) (program : Program), tokenize text = .ok tokens →
      Token.kinds tokens = kinds ++ [.eof] → program.Loose kinds →
        ∃ found, (readProgram text).result = .ok found ∧ found.bare = program.bare :=
  ⟨fun _ read => loose_of_readProgram read,
    fun _ _ _ clean all loose => readProgram_of_loose clean all loose⟩

/-- No opening parenthesis stands directly behind a closing one. -/
def Token.Apart (kinds : List Kind) : Prop :=
  kinds.IsChain fun kind next => kind = .punct .closeParen → next ≠ .punct .openParen

instance (kinds : List Kind) : Decidable (Token.Apart kinds) :=
  inferInstanceAs (Decidable (List.IsChain _ kinds))

namespace Token.Apart

open Wordlang.Parser (front)

variable {kind next : Kind} {own later : List Kind}

@[simp] theorem nil : Apart [] := List.IsChain.nil

@[simp] theorem singleton : Apart [kind] := List.IsChain.singleton kind

@[simp] theorem cons_iff (noClose : kind ≠ .punct .closeParen) :
    Apart (kind :: own) ↔ Apart own := by
  simp [Apart, List.isChain_cons, noClose]

@[simp] theorem cons_cons_iff (noOpen : next ≠ .punct .openParen) :
    Apart (kind :: next :: own) ↔ Apart (next :: own) := by
  simp [Apart, noOpen]

theorem append (first : Apart own) (second : Apart later)
    (noOpen : front later ≠ .punct .openParen) : Apart (own ++ later) := by
  refine List.isChain_append.mpr ⟨first, second, fun _ _ y isFront _ => ?_⟩
  cases later with
  | nil => simp at isFront
  | cons kind later =>
      obtain rfl : kind = y := by simpa using isFront
      exact noOpen

@[simp] theorem append_cons_iff (noOpen : next ≠ .punct .openParen) :
    Apart (own ++ next :: later) ↔ Apart own ∧ Apart (next :: later) := by
  constructor
  · intro apart
    obtain ⟨first, second, _⟩ := List.isChain_append.mp apart
    exact ⟨first, second⟩
  · rintro ⟨first, second⟩
    exact first.append second noOpen

end Token.Apart

open Token (Apart)

theorem BinOp.mark_ne_paren (op : BinOp) : op.mark ≠ .openParen ∧ op.mark ≠ .closeParen := by
  cases op <;> exact ⟨nofun, nofun⟩

theorem Expr.Spelled.apart {rank : Nat} {e : Expr} {kinds : List Kind}
    (spelled : e.Spelled rank kinds) : Apart kinds := by
  induction spelled with
  | looser _ ih => exact ih
  | @binary _ op _ _ _ _ _ _ ihLeft ihRight =>
      obtain ⟨noOpen, noClose⟩ := op.mark_ne_paren
      simp [noOpen, noClose, ihLeft, ihRight]
  | _ => simp_all

section Lists

variable {α : Type} {one : α → List Kind → Prop} {items : List α} {kinds : List Kind}

theorem Spelling.Commas.apart (spelled : Commas one items kinds)
    (each : ∀ {a own}, one a own → Apart own) : Apart kinds := by
  induction spelled with
  | last isOne => exact each isOne
  | more isOne _ ih => simp [each isOne, ih]

theorem Spelling.Parens.apart (spelled : Parens one items kinds)
    (each : ∀ {a own}, one a own → Apart own) : Apart kinds := by
  cases spelled with
  | none => simp
  | some spelled => simp [spelled.apart each]

theorem Spelling.Sequence.apart (spelled : Sequence one items kinds)
    (each : ∀ {a own}, one a own → Apart own)
    (noOpen : ∀ {a own later}, one a own → Parser.front (own ++ later) ≠ .punct .openParen) :
    Apart kinds := by
  induction spelled with
  | nil => simp
  | cons isOne others ih =>
      refine (each isOne).append ih ?_
      cases others with
      | nil => nofun
      | cons isNext _ => exact noOpen isNext

end Lists

@[simp] theorem Spelling.apart_type (ty : Ty) : Apart (Spelling.type ty) := by
  cases ty <;> simp [Spelling.type]

theorem Stmt.Spelled.apart {stmts : List Stmt} {kinds : List Kind}
    (spelled : Stmt.Spelled stmts kinds) :
    Apart kinds ∧ Parser.front kinds ≠ .punct .openParen := by
  have args : ∀ {items kinds}, Spelling.Parens (Expr.Spelled 0) items kinds → Apart kinds :=
    fun parens => parens.apart Expr.Spelled.apart
  induction spelled with
  | nil => simp [Parser.front]
  | assign value _ ih => simp [Parser.front, value.apart, ih]
  | assignIndex index value _ ih => simp [Parser.front, index.apart, value.apart, ih]
  | call isArgs _ ih => simp [Parser.front, args isArgs, ih]
  | callIndex index isArgs _ ih => simp [Parser.front, index.apart, args isArgs, ih]
  | when cond _ _ ihBody ih => simp [Parser.front, cond.apart, ihBody, ih]
  | choose cond _ _ _ ihThens ihElses ih =>
      simp [Parser.front, cond.apart, ihThens, ihElses, ih]
  | loop cond _ _ ihBody ih => simp [Parser.front, cond.apart, ihBody, ih]
  | block _ _ ihBody ih => simp [Parser.front, ihBody, ih]

theorem Spelling.Decl.apart {decl : Wordlang.Decl} {kinds : List Kind}
    (spelled : Spelling.Decl decl kinds) : Apart kinds := by
  obtain ⟨names, isNames, rfl⟩ := spelled
  have own := isNames.apart fun {name own} isName => by
    subst isName
    exact Apart.singleton
  simp [own]

theorem Func.Spelled.apart {func : Func} {kinds : List Kind} (spelled : func.Spelled kinds) :
    Apart kinds := by
  obtain @⟨params, decls, body, result, isParams, isDecls, isBody, isResult⟩ := spelled
  have ownParams := isParams.apart fun {param own} isParam => by
    subst isParam
    simp [Spelling.param]
  have ownDecls := isDecls.apart Spelling.Decl.apart fun {decl own later} isDecl => by
    obtain ⟨_, _, rfl⟩ := isDecl
    simp [Parser.front]
  have rest : Apart (body ++ .keyword .return_ ::
      (result ++ [.punct .semicolon, .punct .closeBrace])) := by
    simp [isBody.apart, isResult.apart]
  -- behind the declarations stands the first statement, or the return
  have noOpen : Parser.front (body ++ .keyword .return_ ::
      (result ++ [.punct .semicolon, .punct .closeBrace])) ≠ .punct .openParen := by
    rcases Parser.begins_or_return isBody.loose _ with begins | isReturn
    · exact begins.ne id
    · simp [isReturn]
  simp [ownParams, ownDecls.append rest noOpen]

/-- By the grammar no opening parenthesis stands directly behind a closing one, so nothing in
    parentheses is called. -/
theorem Program.Spelled.apart {program : Program} {kinds : List Kind}
    (spelled : program.Spelled kinds) : Apart kinds :=
  Spelling.Sequence.apart spelled Func.Spelled.apart fun isFunc => by
    cases isFunc
    nofun

/-- A text in which the callee of a call stands in parentheses. -/
def parenthesizedCallee : String := "function f(): int \x7b f = (f)(); return 0; \x7d"

theorem readProgram_parenthesizedCallee :
    (∃ program, (readProgram parenthesizedCallee).result = .ok program) ∧
      ∃ tokens kinds, tokenize parenthesizedCallee = .ok tokens ∧
        Token.kinds tokens = kinds ++ [.eof] ∧ ∀ program : Program, ¬ program.Spelled kinds := by
  have read : (readProgram parenthesizedCallee).result.toOption.any (fun _ => true) = true := by
    decide +kernel
  have scanned : (tokenize parenthesizedCallee).toOption.any (fun tokens =>
      (kinds tokens).getLast? = some .eof ∧ ¬ Apart (kinds tokens).dropLast) = true := by
    decide +kernel
  obtain ⟨program, read, _⟩ := exists_ok_of_any read
  obtain ⟨tokens, clean, isTokens⟩ := exists_ok_of_any scanned
  obtain ⟨last, notApart⟩ := of_decide_eq_true isTokens
  refine ⟨⟨program, read⟩, tokens, _, clean, (List.dropLast_append_getLast? _ last).symm, ?_⟩
  exact fun program spelled => notApart spelled.apart

/-- Tokens before others are not the end of a text, so they can be written. -/
theorem Cursor.Scans.writable_of_append {cursor : Cursor} {own : List Token} {next : Item}
    {rest : List Item} (scans : cursor.Scans (own.map .ok ++ next :: rest)) :
    Writable (kinds own) := by
  induction own generalizing cursor with
  | nil => exact .nil
  | cons token own ih =>
      obtain ⟨after, isToken, later⟩ : ∃ after, token.kind ≠ .eof ∧
          Cursor.Scans after (own.map .ok ++ next :: rest) := by
        generalize isLater : own.map .ok ++ next :: rest = later at scans
        rw [List.map_cons, List.cons_append, isLater] at scans
        cases scans with
        | last => exact absurd isLater (by simp)
        | more _ isToken later => exact ⟨_, isToken, later⟩
      rw [Token.kinds_cons, Writable.cons_iff]
      exact ⟨scans.writable token (by simp) isToken, ih later⟩

private theorem exists_text {own : List Kind} (writable : Writable own) :
    ∃ text, (Cursor.start text).Yields own := by
  refine ⟨String.ofList (Text.spaced own), ?_⟩
  have yields := (Text.holds_spaced own).yields writable 1
  rwa [Cursor.start, String.toList_ofList]

private theorem exists_read_text {own later : List Kind} {program : Program}
    (loose : program.Loose (own ++ later)) (writable : Writable (own ++ later)) :
    ∃ (text : String) (tokens : List Token) (found : Program), tokenize text = .ok tokens ∧
      own <+: kinds tokens ∧ (readProgram text).result = .ok found := by
  obtain ⟨text, yields⟩ := exists_text writable
  obtain ⟨tokens, scans, all⟩ := yields.scans
  obtain ⟨found, read, _⟩ := readProgram_of_yields yields loose
  refine ⟨text, tokens, found, tokenize_eq_ok.mpr scans, ?_, read⟩
  rw [all, List.append_assoc]
  exact List.prefix_append _ _

private theorem not_prefix_of_refused {text text' : String} {own later : List Token} {token : Token}
    {error : CompileError} {parser : Parser} {program : Program}
    (clean : tokenize text = .ok (own ++ token :: later))
    (failed : Parser.program.run (.ofText text) = .error error parser) (done : parser.done = own)
    (read : (readProgram text').result = .ok program) : ∃ tokens,
      tokenize text' = .ok tokens ∧ ¬ kinds (own ++ [token]) <+: kinds tokens := by
  obtain ⟨tokens, _, clean', _, _⟩ := loose_of_readProgram read
  refine ⟨tokens, clean', ?_⟩
  rintro ⟨more, all⟩
  have scans := tokenize_eq_ok.mp clean
  have scans' := tokenize_eq_ok.mp clean'
  have ends := Parser.ends_program scans (text'.toList.length + 2)
  rw [failed] at ends
  have all : kinds tokens = kinds own ++ token.kind :: more := by rw [← all]; simp
  obtain ⟨few, faces⟩ := Parser.faces_of_scans scans' all
  rw [Token.length_kinds] at few
  have isAhead : ((own ++ token :: later).map .ok : List Item) =
      own.map .ok ++ .ok token :: later.map .ok := by simp
  have sameId : (Parser.ofText text').nextId = (Parser.ofText text).nextId := rfl
  obtain ⟨_, _, _, -, refused⟩ := ends.echo_error isAhead done few sameId faces
  obtain ⟨_, ran⟩ := readProgram_eq_ok.mp read
  cases refused.symm.trans ran

/-- Reading that fails has refused the first token with which the text cannot be gone on: the
    error names this token, the tokens before it begin some text that is read, and no text that
    is read begins with it as well. -/
theorem program_refuses {text : String} {tokens : List Token} {error : CompileError}
    {parser : Parser} (clean : tokenize text = .ok tokens)
    (failed : Parser.program.run (.ofText text) = .error error parser) :
    ∃ token later expected, tokens = parser.done ++ token :: later ∧
      error = .unexpected token.kind expected token.line ∧
      (∃ text' tokens' program, tokenize text' = .ok tokens' ∧
        kinds parser.done <+: kinds tokens' ∧ (readProgram text').result = .ok program) ∧
      ∀ text' program, (readProgram text').result = .ok program →
        ∃ tokens', tokenize text' = .ok tokens' ∧
          ¬ kinds (parser.done ++ [token]) <+: kinds tokens' := by
  have scans := tokenize_eq_ok.mp clean
  have ends := Parser.ends_program scans 0
  rw [failed] at ends
  cases ends with
  | broken _ isAhead =>
      obtain ⟨own, _, _, _, last⟩ := List.map_eq_append_iff.mp isAhead
      exact absurd last (by simp)
  | @refused _ _ own token rest _ expected isAhead loose writable done =>
      obtain rfl : parser.done = own := done
      obtain ⟨own, others, rfl, isOwn, isRest⟩ := List.map_eq_append_iff.mp isAhead
      obtain ⟨token', later, rfl, isToken, -⟩ := List.map_eq_cons_iff.mp isRest
      obtain rfl : own = parser.done := List.map_injective_iff.mpr (fun _ _ => Except.ok.inj) isOwn
      obtain rfl := Except.ok.inj isToken
      have writableOwn : Writable (kinds parser.done) := by
        rw [isAhead] at scans
        exact scans.writable_of_append
      refine ⟨token', later, expected, rfl, rfl, ?_, ?_⟩
      · exact exists_read_text loose (by simp [writableOwn, writable])
      · exact fun _ _ read => not_prefix_of_refused clean failed rfl read

/-- A text with an assignment that lacks its value. -/
def missingValue : String := "function f(x: int): int \x7b x = ; return x; \x7d"

theorem program_refuses_missingValue : ∃ tokens error parser,
    tokenize missingValue = .ok tokens ∧
      Parser.program.run (.ofText missingValue) = .error error parser ∧
        error = .unexpected (.punct .semicolon) (.part .expr) 1 ∧
          ∃ token later expected, tokens = parser.done ++ token :: later ∧
            error = .unexpected token.kind expected token.line ∧
            (∃ text' tokens' program, tokenize text' = .ok tokens' ∧
              kinds parser.done <+: kinds tokens' ∧ (readProgram text').result = .ok program) ∧
            ∀ text' program, (readProgram text').result = .ok program →
              ∃ tokens', tokenize text' = .ok tokens' ∧
                ¬ kinds (parser.done ++ [token]) <+: kinds tokens' := by
  have scanned : (tokenize missingValue).toOption.any (fun _ => true) = true := by decide +kernel
  have refused : (readProgram missingValue).result.map (fun _ => ()) =
      .error (.unexpected (.punct .semicolon) (.part .expr) 1) := by decide +kernel
  obtain ⟨tokens, clean, _⟩ := exists_ok_of_any scanned
  cases failed : Parser.program.run (.ofText missingValue) with
  | ok program parser =>
      rw [readProgram, failed] at refused
      cases refused
  | error error parser =>
      rw [readProgram, failed] at refused
      exact ⟨tokens, error, parser, clean, rfl, Except.error.inj refused,
        program_refuses clean failed⟩

end Wordlang
