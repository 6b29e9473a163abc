import Wordlang.Compile
import Wordlang.Token.Item

/-! # Repeated parsing

A parser can be called again, whatever came of the calls before. It goes on where it stayed, with
the ids that are left.
-/

namespace Wordlang

/-- What is found by taking one token after the other from a stream. An error ends no stream. -/
def Stream.takes : Nat → Stream → List Item
  | 0, _ => []
  | count + 1, stream =>
      match Stream.next stream with
      | .ok token stream => .ok token :: takes count stream
      | .error error stream => .error error :: takes count stream

namespace Parser

def call (parser : Parser) : Except CompileError Program × Parser :=
  match program.run parser with
  | .ok found parser => (.ok found, parser)
  | .error error parser => (.error error, parser)

def behind (parser : Parser) : Nat → Parser
  | 0 => parser
  | calls + 1 => (parser.behind calls).call.2

def answer (parser : Parser) (calls : Nat) : Except CompileError Program :=
  (parser.behind calls).call.1

/-- The programs that some calls return; the others fail. -/
def programs (parser : Parser) (calls : Nat) : List Program :=
  (List.range calls).filterMap fun earlier => (parser.answer earlier).toOption

/-- What one call finds in the text: the tokens that it scans, and then the character that it
    fails on if it does. -/
def found (parser : Parser) : List Item :=
  let (answer, after) := parser.call
  let tokens := after.stream.scanned.toList.drop parser.stream.scanned.size
  tokens.map .ok ++
    match answer with
    | .error (.badCharacter character line) => [.error (.badCharacter character line)]
    | _ => []

/-- What some calls find in the text, one after the other. -/
def log (parser : Parser) (calls : Nat) : List Item :=
  (List.range calls).flatMap fun earlier => (parser.behind earlier).found

end Parser

end Wordlang
