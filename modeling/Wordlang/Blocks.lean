import Wordlang.Compile

/-! # Blocks

The code of a program function by function. Behind the header stands one block of lines for
each function, in the order of the program. Where a function stands decides nothing about its
block but the numbers of its labels.
-/

namespace Wordlang

namespace Asm

def blocksCode (options : Options) (facts : FactTable) (table : Table) (funcs : List Func) :
    Gen (List Code) :=
  funcs.mapM (funcCode options facts table)

/-- Lines that can be those of a function. Control leaves them only by calls and returns. -/
structure IsBlock (name : String) (block : Code) : Prop where
  /-- Behind comments stand the labels of the function. All its other labels are generated. -/
  starts : ∃ comments inner, block = comments ++ entryLabels name ++ inner ∧
    (∀ line ∈ comments, line.isComment = true) ∧
    ∀ label, .label label ∈ inner → label.isGenerated = true
  /-- A jump goes to one of its own generated labels. -/
  jumps : ∀ cond target, .instr (.jump cond target) ∈ block →
    target.isGenerated = true ∧ .label target ∈ block

def Label.renumber (shift : Int) : Label → Label
  | function name => function name
  | start => start
  | holds op number => holds op (number + shift).toNat
  | compared op number => compared op (number + shift).toNat
  | whenDone number => whenDone (number + shift).toNat
  | otherwise number => otherwise (number + shift).toNat
  | chooseDone number => chooseDone (number + shift).toNat
  | loop number => loop (number + shift).toNat
  | loopDone number => loopDone (number + shift).toNat

def Line.renumber (shift : Int) : Line → Line
  | text => text
  | globl target => globl (target.renumber shift)
  | comment words => comment words
  | label place => label (place.renumber shift)
  | instr (.jump cond target) => instr (.jump cond (target.renumber shift))
  | instr (.call target) => instr (.call (target.renumber shift))
  | instr op => instr op

end Asm

/-- The code of a program function by function, and how many label numbers it uses. -/
def Program.blocks (options : Options) (program : Program) :
    Except CompileError (List Asm.Code × Nat) := do
  let (checked, table) ← (checkProgram program).result
  let facts ← (findFacts options checked).result
  (Asm.blocksCode options facts table checked).run 0

end Wordlang
