import Wordlang.Asm.Printer
import Wordlang.Asm.Program
import Wordlang.Fact.Flow
import Wordlang.Tree.Parser.Program

/-! # Compilation

From a source text to assembly: the program is read, its names are checked, facts
are found if they are wanted, and code is generated.
-/

namespace Wordlang

/-- How a compilation ends, and what it reported on the way. -/
structure Outcome (α : Type) where
  result : Except CompileError α
  events : List Event
  deriving Repr

namespace Parser

def scannedEvents (parser : Parser) : List Event :=
  parser.stream.scanned.toList.map .scanned

end Parser

def readProgram (text : String) : Outcome Program :=
  match Parser.program.run (.ofText text) with
  | .ok program parser =>
      { result := .ok program
        events := parser.scannedEvents ++ [.parsed program.length parser.nextId] }
  | .error error parser => { result := .error error, events := parser.scannedEvents }

/-- Check a program and find the scopes of its functions. -/
def checkProgram (program : Program) : Outcome (Program × Table) :=
  match program.check with
  | .ok checked checker =>
      { result := .ok (checked, checker.table), events := checker.events.toList }
  | .error error checker => { result := .error error, events := checker.events.toList }

def findFacts (options : Options) (program : Program) : Outcome FactTable :=
  if options.folding then
    let flow := Program.flow program
    let facts := flow.table
    { result := .ok facts, events := flow.events.toList ++ [.analyzed facts.size] }
  else { result := .ok .empty, events := [.analyzed FactTable.empty.size] }

def generateCode (options : Options) (facts : FactTable) (table : Table) (program : Program) :
    Outcome Asm.Code :=
  match Asm.generate options facts table program with
  | .ok (code, labels) => { result := .ok code, events := [.generated labels] }
  | .error error => { result := .error error, events := [] }

namespace Outcome

/-- Go on with a result; what was reported before stays. -/
def andThen {α β : Type} (outcome : Outcome α) (step : α → Outcome β) : Outcome β :=
  match outcome.result with
  | .error error => { result := .error error, events := outcome.events }
  | .ok value =>
      let later := step value
      { later with events := outcome.events ++ later.events }

end Outcome

def compileReporting (options : Options) (text : String) : Outcome Asm.Code :=
  (readProgram text).andThen fun program =>
    (checkProgram program).andThen fun (program, table) =>
      (findFacts options program).andThen fun facts =>
        generateCode options facts table program

def compileRead (options : Options) (program : Program) : Except CompileError Asm.Code :=
  ((checkProgram program).andThen fun (program, table) =>
    (findFacts options program).andThen fun facts =>
      generateCode options facts table program).result

def compile (options : Options) (text : String) : Except CompileError Asm.Code :=
  (compileReporting options text).result

end Wordlang
