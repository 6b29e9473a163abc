import Wordlang.Token.Lexeme

/-! # Items

A text as the list of everything that scanning it to the end finds: tokens, and
errors behind which scanning goes on. The list ends with the end of the text.
-/

namespace Wordlang

abbrev Item := Except CompileError Token

namespace Item

def tokens : List Item → Except CompileError (List Token)
  | [] => .ok []
  | .ok token :: rest => (tokens rest).map (token :: ·)
  | .error error :: _ => .error error

end Item

namespace Cursor

def itemsWithin : Nat → Cursor → List Item
  | 0, _ => []
  | fuel + 1, cursor =>
      match cursor.scan with
      | (.ok token, after) =>
          if token.kind = .eof then [.ok token] else .ok token :: itemsWithin fuel after
      | (.error error, after) => .error error :: itemsWithin fuel after

/-- The items from a cursor to the end of the text. Each but the last takes at least
    one character, which bounds their number. -/
def items (cursor : Cursor) : List Item := cursor.itemsWithin (cursor.rest.length + 1)

end Cursor

/-- All tokens of a text, the end included, or the first error. -/
def tokenize (text : String) : Except CompileError (List Token) :=
  Item.tokens (Cursor.start text).items

end Wordlang
