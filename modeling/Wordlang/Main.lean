import Wordlang.Command

/-! # Command line

Reads the arguments and the source, and writes what the command answers.
-/

namespace Wordlang

/-- The arguments of the command line. -/
structure Arguments where
  request : Request := {}
  /-- The source file, or `-` for the standard input. -/
  input : Option String := none
  /-- Where the assembly goes. -/
  output : Option String := none
  deriving Repr

namespace Arguments

/-- Read the arguments, or name the first one that makes no sense. -/
def read : List String → Arguments → Except String Arguments
  | [], arguments => .ok arguments
  | "--no-folding" :: rest, arguments =>
      let options := { arguments.request.options with folding := false }
      read rest { arguments with request := { arguments.request with options } }
  | "--trace" :: rest, arguments =>
      let options := { arguments.request.options with trace := true }
      read rest { arguments with request := { arguments.request with options } }
  | "--tokens" :: rest, arguments =>
      read rest { arguments with request := { arguments.request with tokens := true } }
  | "-o" :: path :: rest, arguments =>
      read rest { arguments with
        request := { arguments.request with toFile := true }
        output := some path }
  | "--output" :: path :: rest, arguments =>
      read rest { arguments with
        request := { arguments.request with toFile := true }
        output := some path }
  | argument :: rest, arguments =>
      if arguments.input.isSome || (argument.startsWith "-" && argument != "-") then
        .error s!"unexpected argument {argument}"
      else read rest { arguments with input := some argument }

end Arguments

def readSource (input : String) : IO String := do
  if input = "-" then (← IO.getStdin).readToEnd else IO.FS.readFile input

def perform (arguments : Arguments) (input : String) : IO UInt32 := do
  let response := arguments.request.answer (← readSource input)
  IO.print response.stdout
  IO.eprint response.stderr
  match arguments.output, response.file with
  | some path, some text => IO.FS.writeFile path text
  | _, _ => pure ()
  return UInt32.ofNat response.code

end Wordlang

open Wordlang in
def main (args : List String) : IO UInt32 := do
  match Arguments.read args {} with
  | .error problem =>
      IO.eprintln problem
      return 2
  | .ok arguments =>
      match arguments.input with
      | some input => perform arguments input
      | none =>
          IO.eprintln "no source file"
          return 2
