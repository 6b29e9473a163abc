import Wordlang.Fact.State
import Wordlang.Token.Basic

/-! # Events

What a compilation reports about its progress, and how each report is worded.
-/

namespace Wordlang

/-- How much a reader has to want to know in order to see an event. -/
inductive Detail where
  | debug
  | trace
  deriving Repr, DecidableEq

/-- A step of a compilation. -/
inductive Event where
  | scanned (token : Token)
  | parsed (functions nodes : Nat)
  | scopeDeclared (function : String) (scope size : Nat)
  /-- One pass over the body of a loop, and the joined state behind it. -/
  | loopPass (pass : Nat) (state : State)
  | propagated (function : String) (state : State)
  | analyzed (nodes : Nat)
  | generated (labels : Nat)
  deriving Repr, DecidableEq

def Punct.eventName : Punct → String
  | plus => "Plus"
  | minus => "Minus"
  | star => "Star"
  | slash => "Slash"
  | less => "LessThan"
  | lessEq => "LessEqual"
  | greater => "GreaterThan"
  | greaterEq => "GreaterEqual"
  | equalEqual => "DoubleEqual"
  | notEqual => "NotEqual"
  | andAnd => "DoubleAmpersand"
  | orOr => "DoublePipe"
  | not => "Not"
  | equal => "Equal"
  | semicolon => "SemiColon"
  | comma => "Comma"
  | colon => "Colon"
  | bar => "Pipe"
  | openParen => "OpenParen"
  | closeParen => "CloseParen"
  | openBrace => "OpenCurlyBrace"
  | closeBrace => "CloseCurlyBrace"
  | openBracket => "OpenSquareBrace"
  | closeBracket => "CloseSquareBrace"

def Keyword.eventName : Keyword → String
  | bool => "Bool"
  | int => "Int"
  | intarray => "IntArray"
  | true_ => "True"
  | false_ => "False"
  | var => "Var"
  | function => "Function"
  | return_ => "Return"
  | if_ => "If"
  | else_ => "Else"
  | while_ => "While"

def Token.Kind.eventText : Token.Kind → String
  | eof => "Eof"
  | num value => s!"Num({value})"
  | ident name => s!"Ident(\"{name}\")"
  | punct mark => mark.eventName
  | keyword word => word.eventName

def Detail.name : Detail → String
  | debug => "DEBUG"
  | trace => "TRACE"

namespace Event

def detail : Event → Detail
  | scanned _ => .trace
  | loopPass _ _ => .trace
  | _ => .debug

def message : Event → String
  | scanned _ => "scanned token"
  | parsed _ _ => "parsed program"
  | scopeDeclared _ _ _ => "declared function scope"
  | loopPass _ _ => "while loop iteration"
  | propagated _ _ => "constant propagation done"
  | analyzed _ => "analysis done"
  | generated _ => "code generation done"

def fields : Event → List (String × String)
  | scanned token => [("kind", token.kind.eventText), ("line", toString token.line)]
  | parsed functions nodes =>
      [("functions", toString functions), ("expr_nodes", toString nodes)]
  | scopeDeclared function scope size =>
      [("func", function), ("scope", toString scope), ("size", toString size)]
  | loopPass pass state => [("iterations", toString pass), ("next", state.text)]
  | propagated function state => [("func", function), ("state", state.text)]
  | analyzed nodes => [("nodes", toString nodes)]
  | generated labels => [("labels", toString labels)]

end Event

end Wordlang
