import Wordlang.Token.Lexeme

/-! # Token streams

A text read as tokens on demand, with one token of look-ahead. A token is
scanned when somebody first looks at it; the stream remembers all tokens scanned
so far. Behind an error nothing is looked ahead, and reading goes on after what
was wrong.
-/

namespace Wordlang

/-- A text that is being read as tokens. -/
structure Stream where
  /-- The text that is not scanned yet. -/
  cursor : Cursor
  /-- The token that was looked at and not yet taken. -/
  lookahead : Option Token := none
  /-- All tokens scanned so far, in order. -/
  scanned : Array Token := #[]
  deriving Repr

/-- Work on a stream that may fail; the stream stays where the failure left it. -/
abbrev Reading := EStateM CompileError Stream

namespace Stream

def ofText (text : String) : Stream := { cursor := .start text }

def line (stream : Stream) : Nat := stream.cursor.line

def advance (cursor : Cursor) (scanned : Array Token) : EStateM.Result CompileError Stream Token :=
  match cursor.scan with
  | (.ok token, cursor) =>
      .ok token { cursor, lookahead := some token, scanned := scanned.push token }
  | (.error error, cursor) => .error error { cursor, lookahead := none, scanned }

/-- The next token, which stays in place. -/
def peek : Reading Token
  | { cursor, lookahead := some token, scanned } =>
      .ok token { cursor, lookahead := some token, scanned }
  | { cursor, lookahead := none, scanned } => advance cursor scanned

/-- Forget the token in view. -/
def drop : Reading Unit
  | { cursor, lookahead := _, scanned } => .ok () { cursor, lookahead := none, scanned }

def next : Reading Token := do
  let token ← peek
  drop
  return token

/-- The error of a token that stands where another one was wanted. -/
def refuse {α : Type} (found : Token.Kind) (expected : Expected) : Reading α :=
  fun stream => .error (.unexpected found expected stream.line) stream

/-- Take the next token if it is of the wanted class; otherwise it stays. -/
def consume (wanted : Token.Class) : Reading Unit := do
  let token ← peek
  if token.kind.class_ = wanted then drop else refuse token.kind (.token wanted)

def ident : Reading String := do
  let token ← peek
  match token.kind with
  | .ident name =>
      drop
      return name
  | found => refuse found (.token .ident)

def num : Reading Nat := do
  let token ← peek
  match token.kind with
  | .num value =>
      drop
      return value
  | found => refuse found (.token .num)

end Stream

end Wordlang
