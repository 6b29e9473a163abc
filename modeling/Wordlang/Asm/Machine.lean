import Wordlang.Asm.Image
import Wordlang.Asm.Printer

/-! # The machine

A machine that runs loaded code line by line. Its memory holds words and, on the
stack, the places at which calls go on; a place is no word, and code that mixes
them up gets stuck. Memory that was never written holds zero. The numbers of loaded
code are the words that they stand for (`Image.toInt_ofInt`).
-/

namespace Wordlang.Asm

/-- What a place in memory holds. -/
inductive Content where
  | word (value : Word)
  /-- The line at which a call goes on, or nothing if it came from outside. -/
  | back (line : Option Nat)
  deriving Repr, DecidableEq

/-- What the last operation found out about its result. -/
structure Flags where
  zero : Bool := false
  sign : Bool := false
  overflow : Bool := false
  carry : Bool := false
  deriving Repr, DecidableEq

/-- The state of the machine. -/
structure Machine where
  regs : Reg → Word
  /-- The register that division uses beside `%eax`. -/
  edx : Word := 0
  memory : Word → Content
  flags : Flags := {}
  /-- The line that comes next. -/
  line : Nat

/-- What a step leads to. -/
inductive Progress where
  | goes (machine : Machine)
  /-- The outermost call is over. -/
  | ends (machine : Machine)
  | stuck

/-- The register that a byte register belongs to. -/
def ByteReg.whole : ByteReg → Reg
  | al => .eax
  | bl => .ebx

namespace Flags

def ofResult (flags : Flags) (result : Word) : Flags :=
  { flags with zero := result == 0, sign := result.msb }

def ofCompare (source dest : Word) : Flags :=
  { zero := dest - source == 0
    sign := (dest - source).msb
    overflow := BitVec.ssubOverflow dest source
    carry := dest.ult source }

def holds (flags : Flags) : Jump → Bool
  | .always => true
  | .equal => flags.zero
  | .notEqual => !flags.zero
  | .greater => !flags.zero && flags.sign == flags.overflow
  | .greaterEq => flags.sign == flags.overflow
  | .less => flags.sign != flags.overflow
  | .lessEq => flags.zero || flags.sign != flags.overflow

end Flags

def Arith.result (carry : Bool) (source dest : Word) : Arith → Word
  | add => dest + source
  | sub => dest - source
  | imul => dest * source
  | and => dest &&& source
  | or => dest ||| source
  | sbb => dest - source - .ofBool carry

namespace Machine

def setReg (m : Machine) (reg : Reg) (value : Word) : Machine :=
  { m with regs := fun other => if other = reg then value else m.regs other }

def setMem (m : Machine) (address : Word) (content : Content) : Machine :=
  { m with memory := fun other => if other = address then content else m.memory other }

def goto (m : Machine) (line : Nat) : Machine := { m with line }

def next (m : Machine) : Machine := m.goto (m.line + 1)

def load? (m : Machine) (address : Word) : Option Word :=
  match m.memory address with
  | .word value => some value
  | .back _ => none

def address (m : Machine) : Address → Word
  | .based disp base => .ofInt 32 disp + m.regs base
  | .scaled disp base index scale =>
      .ofInt 32 disp + m.regs base + m.regs index * .ofNat 32 scale
  | .sum base index => m.regs base + m.regs index

def read? (m : Machine) : Operand → Option Word
  | .imm value => some (.ofInt 32 value)
  | .reg reg => some (m.regs reg)
  | .mem address => m.load? (m.address address)

/-- Store a word in an operand, which cannot be a constant. -/
def write? (m : Machine) (value : Word) : Operand → Option Machine
  | .imm _ => none
  | .reg reg => some (m.setReg reg value)
  | .mem address => some (m.setMem (m.address address) (.word value))

def push (m : Machine) (content : Content) : Machine :=
  (m.setReg .esp (m.regs .esp - 4)).setMem (m.regs .esp - 4) content

/-- The machine without the top of the stack. -/
def drop (m : Machine) : Machine := m.setReg .esp (m.regs .esp + 4)

/-- Take a word off the stack into a register. -/
def pop? (m : Machine) (reg : Reg) : Option Machine := do
  return m.drop.setReg reg (← m.load? (m.regs .esp))

/-- Do what an instruction does, unless it goes to another line. -/
def execute? (m : Machine) : Instr → Option Machine
  | .push _ source => do return m.push (.word (← m.read? source))
  | .pop dest => m.pop? dest
  | .mov _ source dest => do m.write? (← m.read? source) dest
  | .movzbl source dest => some (m.setReg dest (m.regs source.whole &&& 0xFF))
  | .leal source dest => some (m.setReg dest (m.address source))
  | .arith op source dest => do
      let result := op.result m.flags.carry (← m.read? source) (m.regs dest)
      let flags := if op = .sbb then m.flags else m.flags.ofResult result
      return { m.setReg dest result with flags }
  | .cmp source dest => do
      return { m with flags := .ofCompare (← m.read? source) (m.regs dest) }
  | .test source dest =>
      some { m with flags := Flags.ofResult {} (m.regs source &&& m.regs dest) }
  | .setne dest =>
      let byte := Word.ofBool !m.flags.zero
      some (m.setReg dest.whole ((m.regs dest.whole &&& ~~~0xFF) ||| byte))
  | .neg dest =>
      let value := m.regs dest
      let flags := { Flags.ofResult {} (-value) with
        carry := value != 0, overflow := value == .intMin 32 }
      some { m.setReg dest (-value) with flags }
  | .inc dest => some (m.setReg dest (m.regs dest + 1))
  | .cdq => some { m with edx := if (m.regs .eax).msb then -1 else 0 }
  | .idiv divisor =>
      let by_ := m.regs divisor
      let value := m.regs .eax
      if by_ = 0 then none
      else some { m.setReg .eax (value.sdiv by_) with edx := value.srem by_ }
  | .cmovl source dest =>
      some (if m.flags.holds .less then m.setReg dest (m.regs source) else m)
  | .leave => (m.setReg .esp (m.regs .ebp)).pop? .ebp
  | .jump _ _ | .call _ | .ret => none

/-- The line that defines a label of some name. Of several ones the last counts. -/
def find? : Code → String → Option Nat
  | [], _ => none
  | line :: rest, name =>
      match find? rest name with
      | some below => some (below + 1)
      | none => if line.defined? = some name then some 0 else none

def step (image : Image) (m : Machine) : Progress :=
  match image.code[m.line]? with
  | none => .stuck
  | some (.instr (.jump cond target)) =>
      if m.flags.holds cond then
        match find? image.code target.print with
        | some line => .goes (m.goto line)
        | none => .stuck
      else .goes m.next
  | some (.instr (.call target)) =>
      match find? image.code target.print with
      | some line => .goes ((m.push (.back (some (m.line + 1)))).goto line)
      | none => .stuck
  | some (.instr .ret) =>
      match m.memory (m.regs .esp) with
      | .back (some line) => .goes (m.drop.goto line)
      | .back none => .ends m.drop
      | .word _ => .stuck
  | some (.instr instr) =>
      match m.execute? instr with
      | some machine => .goes machine.next
      | none => .stuck
  | some _ => .goes m.next

/-- Run for at most so many steps, up to the end of the outermost call. -/
def run (image : Image) : Nat → Machine → Option Machine
  | 0, _ => none
  | steps + 1, m =>
      match m.step image with
      | .goes machine => run image steps machine
      | .ends machine => some machine
      | .stuck => none

/-- Push arguments from the last to the first. -/
def pushArgs (m : Machine) (args : List Word) : Machine :=
  args.foldr (fun arg m => m.push (.word arg)) m

/-- The machine as it enters a function from outside, behind the pushed arguments. -/
def enter (m : Machine) (image : Image) (name : String) : Option Machine := do
  return (m.push (.back none)).goto (← find? image.code name)

/-- A function that is called from outside returns a value in `%eax`. All other registers
    hold what they held before the call. -/
def CallReturns (image : Image) (m : Machine) (name : String) (args : List Word) (value : Word) :
    Prop :=
  ∃ start steps last, (m.pushArgs args).enter image name = some start ∧
    run image steps start = some last ∧ last.regs .eax = value ∧
    ∀ reg, reg ≠ .eax → last.regs reg = (m.pushArgs args).regs reg

def top (m : Machine) : Nat := (m.regs .esp).toNat

/-- Whether what the next line takes from the stack pointer leaves an address. -/
def hasRoom (image : Image) (m : Machine) : Bool :=
  match image.code[m.line]? with
  | some (.instr (.push _ _)) => 4 ≤ m.top
  | some (.instr (.call _)) => 4 ≤ m.top
  | some (.instr (.arith .sub (.imm bytes) .esp)) => bytes ≤ m.top
  | _ => true

/-- Whether the stack stays inside the address space for so many steps. -/
def fitsFor (image : Image) : Nat → Machine → Bool
  | 0, _ => true
  | steps + 1, m =>
      m.hasRoom image && match m.step image with
        | .goes machine => fitsFor image steps machine
        | _ => true

/-- The stack stays inside the address space when a function is called from outside. -/
def StackFits (image : Image) (m : Machine) (name : String) (args : List Word) : Prop :=
  4 * (args.length + 1) ≤ m.top ∧
    ∀ start, (m.pushArgs args).enter image name = some start →
      ∀ steps, fitsFor image steps start = true

/-- A machine with an empty stack of one page. -/
def fresh : Machine :=
  { regs := fun _ => 4096, memory := fun _ => .word 0, line := 0 }

end Machine

end Wordlang.Asm
