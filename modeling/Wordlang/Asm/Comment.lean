import Wordlang.Asm.Context
import Wordlang.Asm.Printer

/-! # Comments

Where comments stand in code and in its text. In a text they are the lines that begin with a
number sign, whoever wrote them.
-/

namespace Wordlang

namespace Text

def isNote (line : String) : Bool := line.toList.head? == some '#'

def withoutNotes (text : String) : String :=
  String.ofList <| ['\n'].intercalate <|
    (text.toList.splitOn '\n').filter fun line => !isNote (String.ofList line)

end Text

namespace Asm

/-- The lines of assembly as they are written, one after the other. -/
def Code.lines (code : Code) : List String := code.map Line.print

def Code.uncommented (code : Code) : Code := code.filter fun line => !line.isComment

def Context.quiet (ctx : Context) : Context :=
  { ctx with options := { ctx.options with trace := false } }

end Asm

end Wordlang
