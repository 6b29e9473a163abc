import Wordlang.Token.Basic

/-! # Errors

Every reason for which a compilation stops, and the wording of each. The first
error ends the work.
-/

namespace Wordlang

/-- The parts of a program that begin with a choice of tokens. -/
inductive Nonterminal where
  | program
  | type
  | stmt
  | expr
  deriving Repr, DecidableEq

/-- What would have been in place where another token stands. -/
inductive Expected where
  /-- One class of tokens. -/
  | token (wanted : Token.Class)
  /-- Whatever may begin a part of a program. -/
  | part (wanted : Nonterminal)
  deriving Repr, DecidableEq

/-- How a name can be used against its declaration. -/
inductive Misuse where
  | functionRedefined (name : String)
  | arrayParameter (name : String)
  | emptyArray (name : String)
  | redeclared (name : String)
  | undeclaredVariable (name : String)
  | notScalar (name : String)
  | notArray (name : String)
  | undeclaredFunction (name : String)
  | notFunction (name : String)
  | arity (name : String) (wanted given : Nat)
  deriving Repr, DecidableEq

/-- How a tree can be unfit for code generation. -/
inductive Inconsistency where
  | undeclared (name : String) (scope : Nat)
  | noScope (function : String)
  | notFunction (name : String)
  deriving Repr, DecidableEq

/-- Why a compilation stopped. -/
inductive CompileError where
  /-- A character that begins no token, or the last digit of a number that is
      too large. -/
  | badCharacter (character : Char) (line : Nat)
  /-- A token that cannot follow the ones before it. -/
  | unexpected (found : Token.Kind) (expected : Expected) (line : Nat)
  /-- A name used against its declaration. -/
  | misuse (cause : Misuse) (line : Nat)
  /-- A tree that was not checked. -/
  | inconsistent (cause : Inconsistency)
  deriving Repr, DecidableEq

def Nonterminal.name : Nonterminal → String
  | program => "Program"
  | type => "Type"
  | stmt => "Stmt"
  | expr => "Expr"

def Expected.text : Expected → String
  | token wanted => s!"expecting {wanted.name}"
  | part wanted => s!"in parsing {wanted.name}"

def Misuse.text : Misuse → String
  | functionRedefined name => s!"function {name} is already defined"
  | arrayParameter name => s!"parameter {name} cannot be an intarray"
  | emptyArray name => s!"{name} must have at least one element"
  | redeclared name => s!"{name} is already declared"
  | undeclaredVariable name => s!"undeclared variable {name}"
  | notScalar name => s!"{name} is not an int or bool variable"
  | notArray name => s!"{name} is not an intarray"
  | undeclaredFunction name => s!"undeclared function {name}"
  | notFunction name => s!"{name} is not a function"
  | arity name wanted given => s!"{name} takes {wanted} arguments but {given} were given"

def Misuse.subject : Misuse → String
  | functionRedefined name => name
  | arrayParameter name => name
  | emptyArray name => name
  | redeclared name => name
  | undeclaredVariable name => name
  | notScalar name => name
  | notArray name => name
  | undeclaredFunction name => name
  | notFunction name => name
  | arity name _ _ => name

def Inconsistency.text : Inconsistency → String
  | undeclared name scope => s!"{name} is not declared in scope {scope}"
  | noScope function => s!"function {function} has no scope"
  | notFunction name => s!"{name} is not a function"

def CompileError.message : CompileError → String
  | badCharacter character line =>
      s!"scan error: unrecognized character '{character}' -line {line}"
  | unexpected found expected line =>
      s!"syntax error: found {found.text} {expected.text} - line {line}"
  | misuse cause line => s!"semantic error: {cause.text} - line {line}"
  | inconsistent cause => s!"internal error: {cause.text}"

def CompileError.unlined : CompileError → CompileError
  | badCharacter character _ => badCharacter character 0
  | unexpected found expected _ => unexpected found expected 0
  | misuse cause _ => misuse cause 0
  | inconsistent cause => inconsistent cause

end Wordlang
