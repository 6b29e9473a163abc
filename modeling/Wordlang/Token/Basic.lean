/-! # Tokens

What a program is written with: numbers, names, keywords and punctuation. A
token's kind says what it is and what it carries; its class forgets what it
carries.
-/

namespace Wordlang

/-- The punctuation marks. -/
inductive Punct where
  | plus
  | minus
  | star
  | slash
  | less
  | lessEq
  | greater
  | greaterEq
  | equalEqual
  | notEqual
  | andAnd
  | orOr
  | not
  | equal
  | semicolon
  | comma
  | colon
  | bar
  | openParen
  | closeParen
  | openBrace
  | closeBrace
  | openBracket
  | closeBracket
  deriving Repr, DecidableEq

/-- The reserved words. -/
inductive Keyword where
  | bool
  | int
  | intarray
  | true_
  | false_
  | var
  | function
  | return_
  | if_
  | else_
  | while_
  deriving Repr, DecidableEq

namespace Punct

/-- How a mark is written. -/
def text : Punct → String
  | plus => "+"
  | minus => "-"
  | star => "*"
  | slash => "/"
  | less => "<"
  | lessEq => "<="
  | greater => ">"
  | greaterEq => ">="
  | equalEqual => "=="
  | notEqual => "!="
  | andAnd => "&&"
  | orOr => "||"
  | not => "!"
  | equal => "="
  | semicolon => ";"
  | comma => ","
  | colon => ":"
  | bar => "|"
  | openParen => "("
  | closeParen => ")"
  | openBrace => "\x7b"
  | closeBrace => "\x7d"
  | openBracket => "["
  | closeBracket => "]"

/-- The mark written with two given characters. -/
def ofPair? : Char → Char → Option Punct
  | '=', '=' => some equalEqual
  | '!', '=' => some notEqual
  | '<', '=' => some lessEq
  | '>', '=' => some greaterEq
  | '&', '&' => some andAnd
  | '|', '|' => some orOr
  | _, _ => none

/-- The mark written with one given character. -/
def ofChar? : Char → Option Punct
  | '+' => some plus
  | '-' => some minus
  | '*' => some star
  | '/' => some slash
  | '<' => some less
  | '>' => some greater
  | '!' => some not
  | '=' => some equal
  | ';' => some semicolon
  | ',' => some comma
  | ':' => some colon
  | '|' => some bar
  | '(' => some openParen
  | ')' => some closeParen
  | '\x7b' => some openBrace
  | '\x7d' => some closeBrace
  | '[' => some openBracket
  | ']' => some closeBracket
  | _ => none

/-- A mark of two characters is written with them. -/
theorem text_of_ofPair? {c d : Char} {mark : Punct} (h : ofPair? c d = some mark) :
    mark.text.toList = [c, d] := by
  unfold ofPair? at h
  split at h <;> cases h <;> rfl

/-- A mark of one character is written with it. -/
theorem text_of_ofChar? {c : Char} {mark : Punct} (h : ofChar? c = some mark) :
    mark.text.toList = [c] := by
  unfold ofChar? at h
  split at h <;> cases h <;> rfl

end Punct

namespace Keyword

def text : Keyword → String
  | bool => "bool"
  | int => "int"
  | intarray => "intarray"
  | true_ => "true"
  | false_ => "false"
  | var => "var"
  | function => "function"
  | return_ => "return"
  | if_ => "if"
  | else_ => "else"
  | while_ => "while"

def ofText? : String → Option Keyword
  | "bool" => some bool
  | "int" => some int
  | "intarray" => some intarray
  | "true" => some true_
  | "false" => some false_
  | "var" => some var
  | "function" => some function
  | "return" => some return_
  | "if" => some if_
  | "else" => some else_
  | "while" => some while_
  | _ => none

theorem ofText?_text (word : Keyword) : ofText? word.text = some word := by
  cases word <;> rfl

/-- A keyword has one spelling. -/
theorem text_of_ofText? {spelling : String} {word : Keyword} (h : ofText? spelling = some word) :
    word.text = spelling := by
  unfold ofText? at h
  split at h <;> cases h <;> rfl

end Keyword

namespace Token

/-- What kind of token it is, leaving aside the number or name it carries. -/
inductive Class where
  /-- The end of the text. -/
  | eof
  | num
  | ident
  | punct (mark : Punct)
  | keyword (word : Keyword)
  deriving Repr, DecidableEq

/-- What a token is and carries. -/
inductive Kind where
  /-- The end of the text. -/
  | eof
  | num (value : Nat)
  | ident (name : String)
  | punct (mark : Punct)
  | keyword (word : Keyword)
  deriving Repr, DecidableEq

namespace Class

def name : Class → String
  | eof => "eof"
  | num => "num"
  | ident => "identifier"
  | punct mark => mark.text
  | keyword word => word.text

end Class

namespace Kind

def class_ : Kind → Class
  | eof => .eof
  | num _ => .num
  | ident _ => .ident
  | punct mark => .punct mark
  | keyword word => .keyword word

/-- The text of a token of this kind: numbers without leading zeros. -/
def text : Kind → String
  | num value => toString value
  | ident name => name
  | kind => kind.class_.name

end Kind

end Token

/-- A token and the line on which it stands. -/
structure Token where
  kind : Token.Kind
  line : Nat
  deriving Repr, DecidableEq

namespace Token

def kinds (tokens : List Token) : List Kind := tokens.map Token.kind

@[simp] theorem kinds_nil : kinds [] = [] := rfl

@[simp] theorem kinds_cons (token : Token) (tokens : List Token) :
    kinds (token :: tokens) = token.kind :: kinds tokens := rfl

@[simp] theorem kinds_append (first second : List Token) :
    kinds (first ++ second) = kinds first ++ kinds second := List.map_append

@[simp] theorem length_kinds (tokens : List Token) : (kinds tokens).length = tokens.length :=
  List.length_map _

/-- The texts of tokens, with a newline between each two of them. -/
def dump (tokens : List Token) : String :=
  "\n".intercalate (tokens.map fun token => token.kind.text)

end Token

end Wordlang
