import Wordlang.Token.Item
import Wordlang.Tree.Parser.Basic

/-! # Taken tokens

What a parser has taken, and what it has yet to take. A token in view is scanned and not taken.
-/

namespace Wordlang

/-- The items that a stream has yet to scan: none once the end of the text is in view. -/
def Stream.unscanned (stream : Stream) : List Item :=
  match stream.lookahead with
  | none => stream.cursor.items
  | some token => if token.kind = .eof then [] else stream.cursor.items

namespace Parser

/-- The tokens that a parser has taken: all that were scanned but the one in view. -/
def done (parser : Parser) : List Token :=
  match parser.stream.lookahead with
  | none => parser.stream.scanned.toList
  | some _ => parser.stream.scanned.toList.dropLast

/-- The tokens that were taken on the way from a parser to another one: what was in view and
    what was scanned since then, but for what is in view in the end. -/
def Takes (s : Parser) (tokens : List Token) (s' : Parser) : Prop :=
  ∃ found, s'.stream.scanned.toList = s.stream.scanned.toList ++ found ∧
    s.stream.lookahead.toList ++ found = tokens ++ s'.stream.lookahead.toList

/-- The tokens that a parser has yet to take, without the end of the text. -/
def left (s : Parser) : List Token :=
  (s.stream.lookahead.toList ++ s.stream.unscanned.filterMap Except.toOption).filter
    (·.kind ≠ .eof)

end Parser

end Wordlang
