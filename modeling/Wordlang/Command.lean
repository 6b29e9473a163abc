import Wordlang.Compile
import Wordlang.Token.Item

/-! # The command

What the command does with a source: it writes assembly or lists tokens, and it
tells by its exit code whether that went well.
-/

namespace Wordlang

/-- What a user asks of the command. -/
structure Request where
  options : Options := {}
  /-- List the tokens and do nothing else. -/
  tokens : Bool := false
  /-- Write the assembly to a file. -/
  toFile : Bool := false
  deriving Repr, DecidableEq

/-- What the command leaves behind. -/
structure Response where
  code : Nat := 0
  stdout : String := ""
  stderr : String := ""
  /-- The contents of the file that is written, if one is. -/
  file : Option String := none
  deriving Repr, DecidableEq

namespace Response

def failure (error : CompileError) : Response :=
  { code := 1, stderr := error.message ++ "\n" }

end Response

def tokenLines (tokens : List Token) : String :=
  String.join (tokens.map fun token => token.kind.text ++ "\n")

/-- Answer a request. Blanks at the end of the source are dropped first. -/
def Request.answer (request : Request) (source : String) : Response :=
  let source := Text.trimEnd source
  if request.tokens then
    match tokenize source with
    | .ok tokens => { stdout := tokenLines tokens }
    | .error error => .failure error
  else
    match compile request.options source with
    | .ok code =>
        if request.toFile then { file := some code.print } else { stdout := code.print }
    | .error error => .failure error

end Wordlang
