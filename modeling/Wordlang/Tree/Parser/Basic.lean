import Wordlang.Token.Stream
import Wordlang.Tree.Basic

/-! # Parsing

The state of a parser, its dealings with tokens, and the ways to read a list of
parts. A parser reads a stream and numbers the expression nodes in the order in
which they are finished. Where it fails, it stays.

Lists are read by at most `fuel` parts. A part takes at least one token, so the
number of characters that are left bounds every list and every nesting.
-/

namespace Wordlang

/-- A stream that is being read as programs. -/
structure Parser where
  stream : Stream
  /-- The id of the next expression node. -/
  nextId : Nat := 0
  deriving Repr

abbrev Parse := EStateM CompileError Parser

namespace Parser

def ofText (text : String) : Parser := { stream := .ofText text }

def onStream {α : Type} (work : Reading α) : Parse α
  | { stream, nextId } =>
      match work stream with
      | .ok value stream => .ok value { stream, nextId }
      | .error error stream => .error error { stream, nextId }

/-- The next token, which stays in place. -/
def peek : Parse Token := onStream Stream.peek

def next : Parse Token := onStream Stream.next

def expect (wanted : Token.Class) : Parse Unit := onStream (Stream.consume wanted)

def mark (wanted : Punct) : Parse Unit := expect (.punct wanted)

def word (wanted : Keyword) : Parse Unit := expect (.keyword wanted)

def ident : Parse String := onStream Stream.ident

def num : Parse Nat := onStream Stream.num

def sees (wanted : Token.Class) : Parse Bool := do
  return (← peek).kind.class_ = wanted

/-- Take the next token if it is the wanted mark, and tell whether it was. -/
def accept (wanted : Punct) : Parse Bool := do
  if ← sees (.punct wanted) then
    mark wanted
    return true
  else return false

/-- Take the next token if it is the wanted keyword, and tell whether it was. -/
def acceptWord (wanted : Keyword) : Parse Bool := do
  if ← sees (.keyword wanted) then
    word wanted
    return true
  else return false

/-- Fail because the next token begins no part of the wanted sort. -/
def unexpected {α : Type} (wanted : Nonterminal) : Parse α := do
  let token ← peek
  onStream (Stream.refuse token.kind (.part wanted))

def node (line : Nat) : Parse Node
  | { stream, nextId } => .ok { id := nextId, line } { stream, nextId := nextId + 1 }

def whileM {α : Type} (test : Parse Bool) (item : Parse α) : Nat → Parse (List α)
  | 0 => return []
  | fuel + 1 => do
      if ← test then
        let first ← item
        return first :: (← whileM test item fuel)
      else return []

def commaList {α : Type} (item : Parse α) (fuel : Nat) : Parse (List α) := do
  let first ← item
  return first :: (← whileM (accept .comma) item fuel)

/-- Read the rest of a list in parentheses, of which the first one is taken. -/
def parenList {α : Type} (item : Parse α) (fuel : Nat) : Parse (List α) := do
  if ← accept .closeParen then return []
  else
    let items ← commaList item fuel
    mark .closeParen
    return items

end Parser

end Wordlang
