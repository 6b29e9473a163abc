import Wordlang.Asm.Basic

/-! # Assembly text

How assembly is written in AT&T style: registers with a percent sign, constants
with a dollar sign, instructions indented and labels not.
-/

namespace Wordlang.Asm

/-- The name of a register. -/
def Reg.print : Reg → String
  | eax => "%eax"
  | ebx => "%ebx"
  | esi => "%esi"
  | edi => "%edi"
  | esp => "%esp"
  | ebp => "%ebp"

def ByteReg.print : ByteReg → String
  | al => "%al"
  | bl => "%bl"

def Address.print : Address → String
  | based disp base => s!"{disp}({base.print})"
  | scaled disp base index scale => s!"{disp}({base.print},{index.print},{scale})"
  | sum base index => s!"({base.print}, {index.print})"

def Operand.print : Operand → String
  | imm value => s!"${value}"
  | reg register => register.print
  | mem address => address.print

def Label.print : Label → String
  | function name => name
  | start => "_Main"
  | holds op number => s!"{op.name}{number}"
  | compared op number => s!"{op.name}Done{number}"
  | whenDone number => s!"IfNoElseDone{number}"
  | otherwise number => s!"IfWithElse{number}"
  | chooseDone number => s!"IfWithElseDone{number}"
  | loop number => s!"While{number}"
  | loopDone number => s!"WhileDone{number}"

def Jump.mnemonic : Jump → String
  | always => "jmp"
  | equal => "je"
  | notEqual => "jne"
  | greater => "jg"
  | greaterEq => "jge"
  | less => "jl"
  | lessEq => "jle"

def Arith.mnemonic : Arith → String
  | add => "add"
  | sub => "sub"
  | imul => "imul"
  | and => "and"
  | or => "or"
  | sbb => "sbb"

def Width.letter : Width → String
  | plain => ""
  | long => "l"

/-- The text of an instruction. -/
def Instr.print : Instr → String
  | push width source => s!"push{width.letter} {source.print}"
  | pop dest => s!"pop {dest.print}"
  | mov width source dest => s!"mov{width.letter} {source.print}, {dest.print}"
  | movzbl source dest => s!"movzbl {source.print}, {dest.print}"
  | leal source dest => s!"leal {source.print}, {dest.print}"
  | arith op source dest => s!"{op.mnemonic} {source.print}, {dest.print}"
  | cmp source dest => s!"cmp {source.print}, {dest.print}"
  | test source dest => s!"test {source.print}, {dest.print}"
  | setne dest => s!"setne {dest.print}"
  | neg dest => s!"neg {dest.print}"
  | inc dest => s!"inc {dest.print}"
  | cdq => "cdq"
  | idiv divisor => s!"idiv {divisor.print}"
  | cmovl source dest => s!"cmovl {source.print}, {dest.print}"
  | jump cond target => s!"{cond.mnemonic} {target.print}"
  | call target => s!"call {target.print}"
  | leave => "leave"
  | ret => "ret"

def Line.print : Line → String
  | text => ".text"
  | globl target => s!".globl {target.print}"
  | comment words => s!"# {words}"
  | label place => s!"{place.print}:"
  | instr op => s!"    {op.print}"

def Line.defined? : Line → Option String
  | label place => some place.print
  | _ => none

/-- The names that assembly defines as labels, as often as it defines them. -/
def Code.labels (code : Code) : List String := code.filterMap Line.defined?

/-- The text of assembly: every line ends with a newline. -/
def Code.print (code : Code) : String :=
  String.join (code.map fun line => line.print ++ "\n")

end Wordlang.Asm
