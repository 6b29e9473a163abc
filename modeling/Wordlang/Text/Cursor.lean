import Wordlang.Text.Blank

/-! # Cursors

A cursor is a place in a text. It knows what follows and on which line it stands.
-/

namespace Wordlang

/-- A place in a text. -/
structure Cursor where
  /-- The characters that follow. -/
  rest : List Char
  /-- One more than the number of newlines passed. -/
  line : Nat := 1
  deriving Repr, DecidableEq

namespace Cursor

/-- The place before the first character of a text. -/
def start (text : String) : Cursor := { rest := text.toList }

/-- Count a newline. -/
def lineAfter (line : Nat) (c : Char) : Nat := if c = '\n' then line + 1 else line

def pastBlanks : List Char → Nat → Cursor
  | [], line => { rest := [], line }
  | c :: rest, line =>
      if Text.isBlank c then pastBlanks rest (lineAfter line c) else { rest := c :: rest, line }

/-- Behind blanks there is no more text than before them. -/
theorem length_pastBlanks_le (rest : List Char) (line : Nat) :
    (pastBlanks rest line).rest.length ≤ rest.length := by
  induction rest generalizing line with
  | nil => exact Nat.le_refl _
  | cons c rest ih =>
    simp only [pastBlanks]
    split
    · exact Nat.le_succ_of_le (ih _)
    · exact Nat.le_refl _

def skipBlanks (cursor : Cursor) : Cursor := pastBlanks cursor.rest cursor.line

end Cursor

end Wordlang
