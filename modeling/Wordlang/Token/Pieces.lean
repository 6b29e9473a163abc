import Wordlang.Token.Item

/-! # Pieces

How a text falls into blanks and lexemes, said without scanning it. Each piece of a text is
a lexeme with the blanks before it, and a lexeme takes as many characters as it can. Every
character belongs to one piece or to the blanks at the end.
-/

namespace Wordlang

open Token (Kind)

/-- Some characters of a class that cannot be continued: what follows is of another class. -/
structure Run (p : Char → Bool) (own later : List Char) : Prop where
  some : own ≠ []
  all : ∀ c ∈ own, p c = true
  stop : ∀ c rest, later = c :: rest → p c = false

namespace Lexeme

/-- No mark is written with a character and the one behind it. -/
def Alone (c : Char) (later : List Char) : Prop :=
  ∀ d rest, later = d :: rest → ∀ mark : Punct, mark.text.toList ≠ [c, d]

/-- The lexeme that the characters `own` make in front of `later`: a token, or the character
    for which there is none. -/
inductive Begins : List Char → List Char → Except Char Kind → Prop where
  /-- A run of digits is one number, however many zeros it begins with. -/
  | num {digits later : List Char} :
      Run Char.isDigit digits later → Nat.ofDigitChars 10 digits 0 ≤ maxNumber →
      Begins digits later (.ok (.num (Nat.ofDigitChars 10 digits 0)))
  /-- A number that is too large is passed as a whole, and its last digit is told. -/
  | tooLarge {digits : List Char} {last : Char} {later : List Char} :
      Run Char.isDigit (digits ++ [last]) later →
      maxNumber < Nat.ofDigitChars 10 (digits ++ [last]) 0 →
      Begins (digits ++ [last]) later (.error last)
  | keyword {word : Keyword} {later : List Char} :
      Run isNamePart word.text.toList later →
      Begins word.text.toList later (.ok (.keyword word))
  | name {c : Char} {rest later : List Char} :
      isNameStart c = true → Run isNamePart (c :: rest) later →
      (∀ word : Keyword, word.text.toList ≠ c :: rest) →
      Begins (c :: rest) later (.ok (.ident (String.ofList (c :: rest))))
  | pair {mark : Punct} {c d : Char} {later : List Char} :
      mark.text.toList = [c, d] → Begins [c, d] later (.ok (.punct mark))
  | single {mark : Punct} {c : Char} {later : List Char} :
      mark.text.toList = [c] → Alone c later → Begins [c] later (.ok (.punct mark))
  /-- A character that begins nothing is passed alone. -/
  | spoiled {c : Char} {later : List Char} :
      Text.isBlank c = false → c.isDigit = false → isNameStart c = false → Alone c later →
      (∀ mark : Punct, mark.text.toList ≠ [c]) → Begins [c] later (.error c)

end Lexeme

/-- A lexeme and the blanks before it. -/
@[ext]
structure Piece where
  blanks : List Char
  /-- The characters of the lexeme. -/
  own : List Char
  lexeme : Except Char Kind

/-- A text falls into some pieces, and the blanks at its end. -/
inductive Cut : List Char → List Piece → List Char → Prop where
  | ending {blanks : List Char} : (∀ c ∈ blanks, Text.isBlank c = true) → Cut blanks [] blanks
  | piece {piece : Piece} {later : List Char} {pieces : List Piece} {ending : List Char} :
      (∀ c ∈ piece.blanks, Text.isBlank c = true) →
      Lexeme.Begins piece.own later piece.lexeme → Cut later pieces ending →
      Cut (piece.blanks ++ piece.own ++ later) (piece :: pieces) ending

/-- The line behind some characters: one more than the number of newlines among them. -/
def lineBehind (before : List Char) : Nat := 1 + before.count '\n'

namespace Piece

def chars (piece : Piece) : List Char := piece.blanks ++ piece.own

def item (before : List Char) (piece : Piece) : Item :=
  match piece.lexeme with
  | .ok kind => .ok { kind, line := lineBehind (before ++ piece.blanks) }
  | .error character => .error (.badCharacter character (lineBehind (before ++ piece.blanks)))

/-- What is found in some pieces and the blanks at the end, given the characters before
    them. -/
def items : List Char → List Piece → List Char → List Item
  | before, [], ending => [.ok { kind := .eof, line := lineBehind (before ++ ending) }]
  | before, piece :: pieces, ending =>
      piece.item before :: items (before ++ piece.chars) pieces ending

end Piece

end Wordlang
