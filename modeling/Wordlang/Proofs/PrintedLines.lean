import Wordlang.Proofs.Comments
import Wordlang.Proofs.Generation
import Wordlang.Proofs.Jumps
import Wordlang.Proofs.Plain

/-! # Lines of printed code

Code is printed line by line. No line of the code of a program that was read is broken by a
newline in a name, and none but its comments looks like a comment. So what is said about the
lines of code can be read off its text.
-/

namespace Wordlang

namespace Text

def Unbroken (text : String) : Prop := '\n' ∉ text.toList

instance (text : String) : Decidable (Unbroken text) :=
  inferInstanceAs (Decidable ('\n' ∉ text.toList))

variable {first second text : String}

@[simp] theorem unbroken_append :
    Unbroken (first ++ second) ↔ Unbroken first ∧ Unbroken second := by
  simp [Unbroken, not_or]

@[simp] theorem unbroken_toString : Unbroken (toString text) ↔ Unbroken text := Iff.rfl

@[simp] theorem unbroken_nat (value : Nat) : Unbroken value.repr := by
  intro mem
  rw [← Nat.toString_eq_repr, Nat.toString_eq_ofList_toDigits, String.toList_ofList] at mem
  exact absurd (Nat.isDigit_of_mem_toDigits (by omega) (by omega) mem) (by decide)

@[simp] theorem unbroken_int (value : Int) : Unbroken value.repr := by
  cases value with
  | ofNat n => exact unbroken_nat n
  | negSucc n => exact unbroken_append.mpr ⟨by decide, unbroken_nat _⟩

theorem isNote_append (some : first ≠ "") : isNote (first ++ second) = isNote first := by
  cases chars : first.toList with
  | nil => exact absurd (String.toList_eq_nil_iff.mp chars) some
  | cons => simp [isNote, chars]

/-- A text that can stand in a line, and at its front without making it a comment. -/
structure Inline (text : String) : Prop where
  unbroken : Unbroken text
  noNote : isNote text = false

theorem inline_of_isName (isName : Lexeme.IsName text) : Inline text := by
  obtain ⟨⟨c, rest, chars, start, parts⟩, -⟩ := isName
  have parts : ∀ d ∈ c :: rest, Lexeme.isNamePart d = true :=
    List.forall_mem_cons.mpr ⟨Lexeme.isNamePart_of_isNameStart start, List.all_eq_true.mp parts⟩
  constructor
  · intro newline
    exact absurd (parts _ (chars ▸ newline)) (by decide)
  · have noSign : c ≠ '#' := by
      rintro rfl
      exact absurd start (by decide)
    simp [isNote, chars, noSign]

end Text

open Text (Unbroken Inline isNote_append)

@[simp] theorem BinOp.unbroken_name (op : BinOp) : Unbroken op.name := by
  cases op <;> decide

theorem Program.unscoped_withScopes (program : Program) :
    program.withScopes.map Func.unscoped = program.map Func.unscoped := by
  rw [withScopes, Func.scopedFrom, List.map_map]
  have others : (Func.unscoped ∘ fun (x : Func × Nat) => { x.1 with scope := some x.2 }) =
      Func.unscoped ∘ Prod.fst := rfl
  rw [others, ← List.map_map, List.zipIdx_map_fst]

namespace Asm

section Print

variable (address : Address) (operand : Operand)

@[simp] theorem Reg.unbroken (reg : Reg) : Unbroken reg.print := by
  cases reg <;> decide

@[simp] theorem ByteReg.unbroken (reg : ByteReg) : Unbroken reg.print := by
  cases reg <;> decide

@[simp] theorem Jump.unbroken (cond : Jump) : Unbroken cond.mnemonic := by
  cases cond <;> decide

@[simp] theorem Arith.unbroken (op : Arith) : Unbroken op.mnemonic := by
  cases op <;> decide

@[simp] theorem Width.unbroken (width : Width) : Unbroken width.letter := by
  cases width <;> decide

@[simp] theorem Address.unbroken : Unbroken address.print := by
  cases address <;> simp +decide [print]

@[simp] theorem Operand.unbroken : Unbroken operand.print := by
  cases operand <;> simp +decide [print]

end Print

def Label.Named : Label → Prop
  | function name => Inline name
  | _ => True

def Line.Named : Line → Prop
  | globl target => target.Named
  | comment words => Unbroken words
  | label place => place.Named
  | instr (.jump _ target) => target.Named
  | instr (.call target) => target.Named
  | _ => True

/-- A line is one line of text, which looks like a comment only if it is one. -/
structure Line.Legible (line : Line) : Prop where
  unbroken : Unbroken line.print
  isNote : Text.isNote line.print = line.isComment

theorem Label.Named.inline {label : Label} (named : label.Named) : Inline label.print := by
  cases label with
  | function name => exact named
  | start => exact ⟨by decide, by decide⟩
  | holds op number | compared op number =>
      refine ⟨by simp +decide [print], ?_⟩
      cases op <;> simp +decide [print, BinOp.name, isNote_append]
  | _ => exact ⟨by simp +decide [print], by simp +decide [print, isNote_append]⟩

theorem Instr.unbroken {op : Instr} (named : (Line.instr op).Named) : Unbroken op.print := by
  cases op with
  | jump _ target | call target =>
      have named : target.Named := named
      simp +decide [print, named.inline.unbroken]
  | _ => simp +decide [print]

theorem Line.Named.legible {line : Line} (named : line.Named) : line.Legible := by
  cases line with
  | text => exact ⟨by decide, by decide⟩
  | globl target =>
      have named : target.Named := named
      exact ⟨by simp +decide [print, named.inline.unbroken],
        by simp +decide [print, isNote_append, isComment]⟩
  | comment =>
      have unbroken : Unbroken _ := named
      exact ⟨by simp +decide [print, unbroken], by simp +decide [print, isNote_append, isComment]⟩
  | label place =>
      have named : place.Named := named
      obtain ⟨unbroken, noNote⟩ := named.inline
      refine ⟨by simp +decide [print, unbroken], ?_⟩
      by_cases empty : place.print = ""
      · simp +decide [print, empty, isComment]
      · exact (isNote_append empty).trans noNote
  | instr op => exact ⟨by simp +decide [print, Instr.unbroken named],
      by simp +decide [print, isNote_append, isComment]⟩

/-- All lines of a piece of code can be read off its text. -/
def Code.Named (code : Code) : Prop := ∀ line ∈ code, line.Named

section Pieces

variable {ctx : Context} {first second : Code}

@[simp] theorem Code.named_nil : Code.Named [] := List.forall_mem_nil _

@[simp] theorem Code.named_cons {line : Line} :
    Code.Named (line :: first) ↔ line.Named ∧ Code.Named first := List.forall_mem_cons

@[simp] theorem Code.named_append :
    Code.Named (first ++ second) ↔ first.Named ∧ second.Named := List.forall_mem_append

theorem Line.named_instr {op : Instr} (plain : (Line.instr op).isPlain = true) :
    (Line.instr op).Named := by
  cases op with
  | jump | call => exact absurd plain nofun
  | _ => trivial

@[simp] theorem Code.named_of_plain (plain : Plain first) (bare : first.uncommented = first) :
    first.Named := by
  intro line mem
  have plain := List.all_eq_true.mp plain line mem
  have bare := List.filter_eq_self.mp bare line mem
  cases line with
  | instr op => exact Line.named_instr plain
  | comment => exact absurd bare nofun
  | text => trivial
  | globl | label => exact absurd plain nofun

@[simp] theorem named_note {text : String} (unbroken : Unbroken text) :
    (ctx.note text).Named := by
  unfold Context.note
  split
  · simpa [Line.Named] using unbroken
  · simp

end Pieces

/-- A generator succeeds with nothing else than what is wanted. -/
def Gen.Ensures {α : Type} (post : α → Prop) (gen : Gen α) : Prop :=
  ∀ n a n', gen.Makes n a n' → post a

namespace Gen.Ensures

variable {α β : Type} {post : α → Prop} {post' : β → Prop}

theorem pure {a : α} (holds : post a) : Ensures post (Pure.pure a) := by
  intro n b n' made
  obtain ⟨rfl, -⟩ := (makes_pure _ _ _ _).mp made
  exact holds

theorem bind {gen : Gen α} {next : α → Gen β} (first : Ensures post gen)
    (later : ∀ a, post a → Ensures post' (next a)) : Ensures post' (gen >>= next) := by
  intro n b n'' made
  obtain ⟨a, n', made, made'⟩ := (makes_bind _ _ _ _ _).mp made
  exact later a (first n a n' made) n' b n'' made'

theorem next {gen : Gen α} {next : α → Gen β} (later : ∀ a, Ensures post' (next a)) :
    Ensures post' (gen >>= next) := by
  intro n b n'' made
  obtain ⟨a, n', -, made⟩ := (makes_bind _ _ _ _ _).mp made
  exact later a n' b n'' made

theorem throw (error : CompileError) : Ensures post (MonadExcept.throw error) :=
  fun n a n' made => absurd made (makes_throw error n a n')

end Gen.Ensures

abbrev Gen.Names (gen : Gen Code) : Prop := Gen.Ensures Code.Named gen

open Gen (Names)

section Constructs

variable (ctx : Context)

private theorem unaryCode_named (op : UnOp) : (unaryCode ctx op).Named := by
  cases op <;> simp +decide [unaryCode, Line.Named]

private theorem binaryCode_names (op : BinOp) : Names (binaryCode op) := by
  have compared : ∀ jump, Names (comparisonCode op jump) := fun _ =>
    .next fun number => .pure (by simp [Line.Named, Label.Named])
  cases op with
  | plus | minus | times | div | and | or => exact .pure (by simp [Line.Named])
  | _ => exact compared _

theorem resultCode_names (op : BinOp) (total : Address) (place : Place) :
    Names (resultCode op total place) := by
  unfold resultCode
  split
  · exact .pure (by simp)
  · exact .bind (binaryCode_names op) fun computed named => .pure (by simp [named])

theorem exprCode_names (e : Expr) (place : Place) : Names (exprCode ctx e place) := by
  rw [exprCode.eq_def]
  cases ctx.known e with
  | some value => exact .pure (by simp)
  | none =>
      cases e with
      | int | bool => exact .pure (by simp)
      | var _ name => exact .next fun symbol => .pure (by simp)
      | index _ name element =>
          refine .next fun symbol => ?_
          split
          · exact .pure (by simp)
          · exact .bind (exprCode_names element _) fun code named => .pure (by simp [named])
      | unary _ op operand =>
          exact .bind (exprCode_names operand _) fun code named =>
            .pure (by simp [named, unaryCode_named])
      | binary _ op left right =>
          dsimp only
          split
          · exact .bind (exprCode_names right _) fun code named =>
              .bind (resultCode_names _ _ _) fun result computed =>
                .pure (by simp +decide [named, computed])
          · exact .bind (exprCode_names left _) fun code named =>
              .bind (resultCode_names _ _ _) fun result computed =>
                .pure (by simp +decide [named, computed])
          · exact .bind (exprCode_names right _) fun second named =>
              .bind (exprCode_names left _) fun first named' =>
                .bind (resultCode_names _ _ _) fun result computed =>
                  .pure (by simp [named, named', computed, Line.Named])
termination_by sizeOf e

theorem conditionCode_names (cond : Expr) : Names (conditionCode ctx cond) :=
  .bind (exprCode_names ctx cond _) fun test named =>
    .pure (by simp [named, Line.Named])

private theorem argsCode_names (args : List Expr) : Names (argsCode ctx args) := by
  induction args with
  | nil => exact .pure (by simp)
  | cons arg rest ih =>
      exact .bind ih fun later named => .bind (exprCode_names ctx arg _) fun first named' =>
        .pure (by simp [named, named'])

theorem callCode_names {callee : String} (isName : Lexeme.IsName callee) (args : List Expr) :
    Names (callCode ctx callee args) := by
  have callee := Text.inline_of_isName isName
  refine .next fun symbol => ?_
  split
  · exact .throw _
  · exact .bind (argsCode_names ctx args) fun pushes named =>
      .pure (by simp +decide [named, callee.unbroken, Line.Named, Label.Named, callee])

private theorem assignCode_names (slot : Address) (value : Expr) : Names
    (assignCode ctx slot value) := by
  unfold assignCode
  split
  · exact .pure (by simp)
  · exact .bind (exprCode_names ctx value _) fun computed named => .pure (by simp [named])

private theorem assignIndexCode_names (symbol : Symbol) (index value : Expr) :
    Names (assignIndexCode ctx symbol index value) := by
  unfold assignIndexCode
  split
  · exact .pure (by simp)
  · exact .bind (exprCode_names ctx value _) fun content named => .pure (by simp [named])
  · exact .bind (exprCode_names ctx index _) fun place named => .pure (by simp [named])
  · exact .bind (exprCode_names ctx index _) fun place named =>
      .bind (exprCode_names ctx value _) fun content named' =>
        .pure (by simp [named, named'])

private theorem callIndexCode_names (symbol : Symbol) (index : Expr) {callee : String}
    (isName : Lexeme.IsName callee) (args : List Expr) :
    Names (callIndexCode ctx symbol index callee args) := by
  unfold callIndexCode
  split
  · exact .bind (callCode_names ctx isName args) fun call named => .pure (by simp [named])
  · exact .bind (exprCode_names ctx index _) fun place named =>
      .bind (callCode_names ctx isName args) fun call named' =>
        .pure (by simp [named, named'])

mutual

theorem stmtCode_names {stmt : Stmt} (plain : stmt.Plain) : Names (stmtCode ctx stmt) := by
  cases stmt with
  | assign target value =>
      have target := (Text.inline_of_isName plain.1).unbroken
      simp only [stmtCode]
      exact .next fun symbol => .bind (assignCode_names ctx _ value) fun stored named =>
        .pure (by simp +decide [named, target])
  | assignIndex target index value =>
      have target := (Text.inline_of_isName plain.1).unbroken
      simp only [stmtCode]
      exact .next fun symbol =>
        .bind (assignIndexCode_names ctx symbol index value) fun stored named =>
          .pure (by simp +decide [named, target])
  | call line target callee args =>
      simp only [stmtCode]
      exact .next fun symbol => .bind (callCode_names ctx plain.2.1 args) fun call named =>
        .pure (by simp [named])
  | callIndex line target index callee args =>
      simp only [stmtCode]
      exact .next fun symbol => callIndexCode_names ctx symbol index plain.2.2.1 args
  | when cond body =>
      have inner := stmtsCode_names plain.2
      simp only [stmtCode]
      split
      · split
        · exact .bind inner fun inner named => .pure (by simp +decide [named])
        · exact .pure (by simp +decide)
      · exact .next fun number => .bind (conditionCode_names ctx cond) fun test named =>
          .bind inner fun inner named' =>
            .pure (by simp [named, named', Line.Named, Label.Named])
  | choose cond thens elses =>
      have first := stmtsCode_names plain.2.1
      have second := stmtsCode_names plain.2.2
      simp only [stmtCode]
      split
      · split
        · exact .bind first fun inner named => .pure (by simp +decide [named])
        · exact .bind second fun inner named => .pure (by simp +decide [named])
      · exact .next fun elseNumber => .next fun doneNumber =>
          .bind (conditionCode_names ctx cond) fun test named =>
            .bind first fun first named' => .bind second fun second named'' =>
              .pure (by simp [named, named', named'', Line.Named, Label.Named])
  | loop cond body =>
      have inner := stmtsCode_names plain.2
      simp only [stmtCode]
      split
      · split
        · exact .next fun number => .bind inner fun inner named =>
            .pure (by simp +decide [named, Line.Named, Label.Named])
        · exact .pure (by simp +decide)
      · exact .next fun number => .bind (conditionCode_names ctx cond) fun test named =>
          .bind inner fun inner named' =>
            .pure (by simp [named, named', Line.Named, Label.Named])
  | block body =>
      simp only [stmtCode]
      exact stmtsCode_names plain

theorem stmtsCode_names {stmts : List Stmt} (plain : Stmt.PlainAll stmts) :
    Names (stmtsCode ctx stmts) := by
  cases stmts with
  | nil =>
      simp only [stmtsCode]
      exact .pure (by simp)
  | cons stmt rest =>
      simp only [stmtsCode]
      exact .bind (stmtCode_names plain.1) fun first named =>
        .bind (stmtsCode_names plain.2) fun later named' => .pure (by simp [named, named'])

end

private theorem bodyCode_names {func : Func} (plain : func.Plain) (size : Nat) :
    Names (bodyCode ctx func size) := by
  have name := Text.inline_of_isName plain.name
  have start : ∀ locals params, (prologue ctx func.name locals params).Named := by
    intro locals params
    unfold prologue entryLabels
    split <;> split <;> simp +decide [name.unbroken, Line.Named, Label.Named, name]
  have stop : ∀ bytes, (epilogue ctx bytes).Named := fun _ => by simp +decide [epilogue, Line.Named]
  exact .bind (stmtsCode_names ctx plain.body) fun body named =>
    .bind (exprCode_names ctx func.result _) fun result named' =>
      .pure (by simp +decide [start, stop, named, named'])

end Constructs

private theorem funcsCode_names (options : Options) (facts : FactTable) (table : Table)
    {funcs : List Func} (plain : ∀ func ∈ funcs, func.Plain) :
    Names (funcsCode options facts table funcs) := by
  induction funcs with
  | nil => exact .pure (by simp)
  | cons func rest ih =>
      obtain ⟨own, others⟩ := List.forall_mem_cons.mp plain
      have first : Names (funcCode options facts table func) := by
        unfold funcCode
        split
        · exact .throw _
        · exact bodyCode_names _ own _
      exact .bind first fun first named => .bind (ih others) fun later named' =>
        .pure (by simp [named, named'])

private theorem generate_named {options : Options} {facts : FactTable} {table : Table}
    {program : Program} {code : Code} {labels : Nat} (plain : program.Plain)
    (made : generate options facts table program = .ok (code, labels)) : code.Named := by
  obtain ⟨body, rfl, makes⟩ := generate_makes made
  have own := funcsCode_names options facts table plain 0 body labels makes
  have main : Inline "Main" := ⟨by decide, by decide⟩
  simp [header, own, Line.Named, Label.Named, main]

namespace Code

variable {code : Code}

theorem toList_print (code : Code) :
    code.print.toList = ['\n'].intercalate (code.lines.map String.toList ++ [[]]) := by
  induction code with
  | nil => rfl
  | cons line rest ih =>
      calc (print (line :: rest)).toList
        _ = line.print.toList ++ ['\n'] ++ (print rest).toList := by
            simp [print, String.join_cons]
        _ = line.print.toList ++ ['\n'] ++
              ['\n'].intercalate ((lines rest).map String.toList ++ [[]]) := by rw [ih]
        _ = ['\n'].intercalate (line.print.toList :: ((lines rest).map String.toList ++ [[]])) :=
            (List.intercalate_cons_of_ne_nil (by simp)).symm

private theorem splitOn_print (named : code.Named) :
    code.print.toList.splitOn '\n' = code.lines.map String.toList ++ [[]] := by
  rw [toList_print, List.splitOn_intercalate _ ?unbroken (by simp)]
  intro line mem
  rcases List.mem_append.mp mem with inCode | isLast
  · simp only [lines, List.map_map, List.mem_map] at inCode
    obtain ⟨line, inCode, rfl⟩ := inCode
    exact (named line inCode).legible.unbroken
  · simp [List.mem_singleton.mp isLast]

theorem lines_uncommented (named : code.Named) :
    code.uncommented.lines = code.lines.filter fun line => !Text.isNote line := by
  rw [lines, lines, List.filter_map, uncommented]
  refine congrArg _ (List.filter_congr fun line mem => ?_)
  rw [Function.comp_apply, (named line mem).legible.isNote]

theorem print_uncommented (named : code.Named) :
    code.uncommented.print = Text.withoutNotes code.print := by
  have kept : (code.lines.map String.toList).filter (fun line => !Text.isNote (.ofList line)) =
      code.uncommented.lines.map String.toList := by
    simp [lines_uncommented named, List.filter_map, Function.comp_def]
  rw [Text.withoutNotes, splitOn_print named, List.filter_append, kept]
  exact (String.ofList_toList.symm.trans (congrArg _ (toList_print _)))

end Code

/-- The lines that begin with a number sign are all that the comments add to the code of a
    program that was read, whatever its scopes. -/
theorem generate_adds_comments {text : String} {calls : Nat} {program resolved : Program}
    (parsed : (Parser.ofText text).answer calls = .ok program)
    (same : resolved.map Func.unscoped = program.map Func.unscoped) (folding : Bool)
    (facts : FactTable) (table : Table) :
    (∀ error, generate { folding, trace := true } facts table resolved = .error error ↔
      generate { folding, trace := false } facts table resolved = .error error) ∧
    ∀ code labels, generate { folding, trace := true } facts table resolved = .ok (code, labels) →
      ∃ bare, generate { folding, trace := false } facts table resolved = .ok (bare, labels) ∧
        bare.lines = code.lines.filter (fun line => !Text.isNote line) ∧
        bare.print = Text.withoutNotes code.print := by
  have plain := (Program.plain_of_answer parsed).of_unscoped same
  rw [generate_silences folding facts table resolved]
  cases made : generate { folding, trace := true } facts table resolved with
  | error => exact ⟨fun error => Iff.rfl, nofun⟩
  | ok made' =>
      refine ⟨fun error => by simp [Except.map], fun code labels ended => ?_⟩
      obtain rfl := Except.ok.inj ended
      have named := generate_named plain made
      exact ⟨code.uncommented, rfl, Code.lines_uncommented named, Code.print_uncommented named⟩

/-- A loop with a call and a branch, which is left out when folding. -/
def remarkedText : String :=
  "function f(n: int): int \x7b
     while (n < 9) \x7b if (false) \x7b n = 1; \x7d n = f(n); \x7d
     return n; \x7d"

/-- Six lines of the code of this program are comments. -/
theorem remarked_adds_comments : ∃ program code labels bare,
    (Parser.ofText remarkedText).answer 0 = .ok program ∧
      program.withScopes.map Func.unscoped = program.map Func.unscoped ∧
      generate { folding := true, trace := true } (Program.flow program).table
        (.ofFuncs program program) program.withScopes = .ok (code, labels) ∧
      code.countP Line.isComment = 6 ∧
      generate { folding := true, trace := false } (Program.flow program).table
        (.ofFuncs program program) program.withScopes = .ok (bare, labels) ∧
      bare.lines = code.lines.filter (fun line => !Text.isNote line) ∧
      bare.print = Text.withoutNotes code.print := by
  obtain ⟨program, parsed, made⟩ := exists_ok_of_any (x := (Parser.ofText remarkedText).answer 0)
    (p := fun program => (generate { folding := true, trace := true } (Program.flow program).table
      (.ofFuncs program program) program.withScopes).toOption.any fun made =>
        made.1.countP Line.isComment == 6) (by decide +kernel)
  obtain ⟨⟨code, labels⟩, traced, counted⟩ := exists_ok_of_any made
  have same := program.unscoped_withScopes
  obtain ⟨bare, others⟩ := (generate_adds_comments parsed same true _ _).2 code labels traced
  exact ⟨program, code, labels, bare, parsed, same, traced, of_decide_eq_true counted, others⟩

end Asm

end Wordlang
