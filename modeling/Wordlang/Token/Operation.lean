import Wordlang.Token.Item
import Wordlang.Token.Stream

/-! # Operations on a stream

What can be asked of a stream, one operation after the other, and what the same operations
answer on a list of items that is there from the beginning.
-/

namespace Wordlang

/-- The line that an error tells. An inconsistent tree has none. -/
def CompileError.line : CompileError → Nat
  | badCharacter _ line => line
  | unexpected _ _ line => line
  | misuse _ line => line
  | inconsistent _ => 0

def Item.line : Item → Nat
  | .ok token => token.line
  | .error error => error.line

namespace Stream

/-- The operations on a stream. -/
inductive Op where
  | peek
  | next
  | consume (wanted : Token.Class)
  | ident
  | num
  deriving Repr, DecidableEq

/-- What an operation hands out when it succeeds. -/
inductive Answer where
  | token (token : Token)
  | taken
  | name (name : String)
  | value (value : Nat)
  deriving Repr, DecidableEq

/-- What can be seen of an operation: its answer or error, and the line of the stream behind
    it. -/
structure Reply where
  answer : Except CompileError Answer
  line : Nat

def Op.run : Op → Reading Answer
  | peek => Answer.token <$> Stream.peek
  | next => Answer.token <$> Stream.next
  | consume wanted => (fun _ => Answer.taken) <$> Stream.consume wanted
  | ident => Answer.name <$> Stream.ident
  | num => Answer.value <$> Stream.num

def Op.outcome (op : Op) (stream : Stream) : Except CompileError Answer × Stream :=
  match op.run stream with
  | .ok answer stream => (.ok answer, stream)
  | .error error stream => (.error error, stream)

/-- The replies to some operations, one after the other. An error ends no stream. -/
def replies : Stream → List Op → List Reply
  | _, [] => []
  | stream, op :: ops =>
      let (answer, stream) := op.outcome stream
      { answer, line := stream.line } :: replies stream ops

end Stream

open Wordlang.Stream (Op Answer Reply)

namespace Item

/-- A place in a list of items. -/
structure Place where
  /-- The index of the item that comes next. -/
  next : Nat := 0
  /-- The index of the furthest item that was looked at. -/
  seen : Nat := 0
  deriving Repr, DecidableEq

/-- What is answered at a token where another one was wanted: the token stays. -/
def refusal (token : Token) (wanted : Token.Class) : Except CompileError Answer × Bool :=
  (.error (.unexpected token.kind (.token wanted) token.line), false)

/-- What an operation answers at an item, and whether it moves past the item. -/
def answer : Op → Item → Except CompileError Answer × Bool
  | _, .error error => (.error error, true)
  | .peek, .ok token => (.ok (.token token), false)
  | .next, .ok token => (.ok (.token token), true)
  | .consume wanted, .ok token =>
      if token.kind.class_ = wanted then (.ok .taken, true) else refusal token wanted
  | .ident, .ok token =>
      match token.kind with
      | .ident name => (.ok (.name name), true)
      | _ => refusal token .ident
  | .num, .ok token =>
      match token.kind with
      | .num value => (.ok (.value value), true)
      | _ => refusal token .num

/-- Whether an item is the end of the text, which nothing moves past. -/
def isEnd : Item → Bool
  | .ok token => token.kind = .eof
  | .error _ => false

namespace Place

def step (items : List Item) (op : Op) (place : Place) : Option (Reply × Place) := do
  let item ← items[place.next]?
  let seen := max place.seen place.next
  let furthest ← items[seen]?
  let (answer, moves) := answer op item
  let next := if moves && !isEnd item then place.next + 1 else place.next
  return ({ answer, line := furthest.line }, { next, seen })

def replies (items : List Item) : List Op → Place → Option (List Reply)
  | [], _ => some []
  | op :: ops, place => do
      let (reply, place) ← place.step items op
      let later ← replies items ops place
      return reply :: later

end Place

end Item

end Wordlang
