import Wordlang.Error
import Wordlang.Text.Cursor

/-! # Lexemes

How the front of a text is cut into tokens. A run of digits is one number, a
run of letters, digits and underscores is one name or keyword, and a mark of two
characters is taken before a mark of one. Anything else spoils one character.
-/

namespace Wordlang

namespace Lexeme

/-- The largest number that may be written: the largest word. -/
def maxNumber : Nat := 2147483647

/-- The most digits that a number may have behind its leading zeros. -/
def maxDigits : Nat := 10

/-- The characters that begin a name. Names are ASCII. -/
def isNameStart (c : Char) : Bool := c.isAlpha || c == '_'

def isNamePart (c : Char) : Bool := c.isAlphanum || c == '_'

/-- The number that a run of decimal digits stands for. -/
def decimal (digits : List Char) : Nat :=
  digits.foldl (fun value d => 10 * value + (d.toNat - '0'.toNat)) 0

/-- The token of a run of digits, or its last digit when the number is too large. A run
    that is too long is not worth its value. -/
def ofDigits (digits : List Char) : Except Char Token.Kind :=
  if maxDigits < (digits.dropWhile (· == '0')).length then .error (digits.getLastD '0')
  else
    let value := decimal digits
    if value ≤ maxNumber then .ok (.num value) else .error (digits.getLastD '0')

/-- The token of a run of letters, digits and underscores. -/
def ofWord (word : String) : Token.Kind :=
  match Keyword.ofText? word with
  | some keyword => .keyword keyword
  | none => .ident word

/-- The token of the mark of one character, or the character when it is none. -/
def ofMark (c : Char) : Except Char Token.Kind :=
  match Punct.ofChar? c with
  | some mark => .ok (.punct mark)
  | none => .error c

/-- The mark that a text of one or more characters begins with, and what follows it. -/
def readMark (c : Char) : List Char → Except Char Token.Kind × List Char
  | [] => (ofMark c, [])
  | d :: rest =>
      match Punct.ofPair? c d with
      | some mark => (.ok (.punct mark), rest)
      | none => (ofMark c, d :: rest)

/-- What a text without blanks at its front begins with, and what follows it. A
    character that spoils the text is passed, and so is a number that is too large. -/
def read : List Char → Except Char Token.Kind × List Char
  | [] => (.ok .eof, [])
  | c :: rest =>
      if c.isDigit then
        (ofDigits ((c :: rest).takeWhile Char.isDigit), (c :: rest).dropWhile Char.isDigit)
      else if isNameStart c then
        (.ok (ofWord (String.ofList ((c :: rest).takeWhile isNamePart))),
          (c :: rest).dropWhile isNamePart)
      else
        readMark c rest

theorem length_dropWhile_lt {p : Char → Bool} {c : Char} (rest : List Char) (h : p c = true) :
    ((c :: rest).dropWhile p).length < (c :: rest).length := by
  rw [List.dropWhile_cons_of_pos h]
  exact Nat.lt_succ_of_le (List.dropWhile_suffix p).length_le

theorem length_readMark_lt (c : Char) (rest : List Char) :
    (readMark c rest).2.length < (c :: rest).length := by
  unfold readMark
  split
  · simp
  · split
    · simp only [List.length_cons]
      omega
    · simp

/-- Reading takes at least one character, except at the end of the text. -/
theorem length_read_lt (c : Char) (rest : List Char) :
    (read (c :: rest)).2.length < (c :: rest).length := by
  simp only [read]
  split
  · next h => exact length_dropWhile_lt rest h
  · split
    · next h =>
      refine length_dropWhile_lt rest ?_
      simp only [isNameStart, isNamePart, Char.isAlphanum, Bool.or_eq_true] at h ⊢
      exact h.imp_left Or.inl
    · exact length_readMark_lt c rest

/-- The names: one or more characters of names, the first of which begins one, and not a
    keyword. -/
def IsName (name : String) : Prop :=
  (∃ c rest, name.toList = c :: rest ∧ isNameStart c = true ∧ rest.all isNamePart = true) ∧
    Keyword.ofText? name = none

/-- Nothing follows, or a blank. -/
def Ends (later : List Char) : Prop := ∀ c rest, later = c :: rest → Text.isBlank c = true

end Lexeme

/-- Pass over blanks and take the token that follows, or the error there. -/
def Cursor.scan (cursor : Cursor) : Except CompileError Token × Cursor :=
  let front := cursor.skipBlanks
  let (lexeme, rest) := Lexeme.read front.rest
  let item := match lexeme with
    | .ok kind => .ok { kind, line := front.line }
    | .error character => .error (.badCharacter character front.line)
  (item, { front with rest })

/-- A text holds some tokens in this order, and blanks between them. -/
inductive Text.Holds : List Token.Kind → List Char → Prop where
  | nil {blanks : List Char} : blanks.all isBlank = true → Holds [] blanks
  | cons {blanks : List Char} {kind : Token.Kind} {kinds : List Token.Kind} {later : List Char} :
      blanks.all isBlank = true → Lexeme.Ends later → Holds kinds later →
      Holds (kind :: kinds) (blanks ++ kind.text.toList ++ later)

end Wordlang
