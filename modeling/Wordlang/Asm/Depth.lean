import Wordlang.Asm.Layout
import Wordlang.Asm.Live

/-! # Depth of the stack

How many bytes a function has pushed since it was entered, line by line. A depth for every
line is right when each instruction changes it by what it pushes or takes off, and when all
ways to a label come with the same depth.
-/

namespace Wordlang

namespace Asm

/-- The register is neither the stack pointer nor the frame pointer. -/
def Reg.isGeneral : Reg → Bool
  | esp => false
  | ebp => false
  | _ => true

namespace Instr

/-- By how many bytes an instruction makes the stack deeper. A call gives back what it takes,
    and `leave` takes off the word that the frame pointer points to. -/
def shift : Instr → Int
  | .push _ _ => 4
  | .pop _ => -4
  | .arith .sub (.imm bytes) .esp => bytes
  | .arith .add (.imm bytes) .esp => -bytes
  | .leave => -4
  | _ => 0

/-- The instruction writes the stack pointer in no other way, and the frame pointer only to keep
    or to restore the stack pointer. -/
def tracked : Instr → Bool
  | .pop dest => dest.isGeneral
  | .mov _ (.reg .esp) (.reg .ebp) => true
  | .mov _ _ (.reg dest) => dest.isGeneral
  | .movzbl _ dest => dest.isGeneral
  | .leal _ dest => dest.isGeneral
  | .arith .sub (.imm _) .esp => true
  | .arith .add (.imm _) .esp => true
  | .arith _ _ dest => dest.isGeneral
  | .neg dest => dest.isGeneral
  | .inc dest => dest.isGeneral
  | .cmovl _ dest => dest.isGeneral
  | _ => true

end Instr

namespace Line

/-- By how many bytes a line makes the stack deeper. -/
def shift : Line → Int
  | .instr op => op.shift
  | _ => 0

/-- The line writes stack pointer and frame pointer in no other way. -/
def tracked : Line → Bool
  | .instr op => op.tracked
  | _ => true

end Line

/-- By how many bytes some code makes the stack deeper. -/
def Code.shift : Code → Int
  | [] => 0
  | line :: rest => line.shift + shift rest

/-- The depth of every line of some code that starts with nothing pushed. -/
def depthAt (code : Code) (line : Nat) : Nat := (Code.shift (code.take line)).toNat

/-- A depth for the start of every line of some code, and for its end. -/
structure Annotates (depth : Nat → Nat) (code : Code) : Prop where
  step : ∀ (i : Nat) (line : Line), code[i]? = some line →
    line.tracked = true ∧ (depth (i + 1) : Int) = depth i + line.shift
  /-- A generated label has the depth of every jump to it. -/
  jump : ∀ (i j : Nat) (cond : Jump) (target place : Label),
    code[i]? = some (.instr (.jump cond target)) → code[j]? = some (.label place) →
      place.isGenerated = true → place.print = target.print → depth i = depth j
  /-- There are no jumps to other labels. -/
  generated : ∀ (i : Nat) (cond : Jump) (target : Label),
    code[i]? = some (.instr (.jump cond target)) → target.isGenerated = true

/-- What a line before `entry` pushes is what a line at or behind `exit` reads: there the stack
    is as deep as behind the push, and it is never less deep in between. -/
def Restores (depth : Nat → Nat) (code : Code) (entry exit : Nat) (push read : Instr) : Prop :=
  ∃ i j, i < entry ∧ exit ≤ j ∧ code[i]? = some (.instr push) ∧ code[j]? = some (.instr read) ∧
    depth (i + 1) = depth j ∧ ∀ k, i < k → k ≤ j → depth j ≤ depth k

section Levels

variable (ctx : Context) (depth : Nat → Nat) (base : Nat)

mutual

/-- Statements whose code begins at some line start and end at the same depth, each of them,
    and so do the statements in their bodies. -/
def Levels : List Stmt → Nat → Code → Prop
  | [], _, code => code = []
  | stmt :: rest, line, code => ∃ own later, code = own ++ later ∧
      (∃ n n', (stmtCode ctx stmt).run n = .ok (own, n')) ∧
      depth line = base ∧ depth (line + own.length) = base ∧
      LevelsInside stmt line own ∧ Levels rest (line + own.length) later

/-- The statements in the bodies of a statement start and end at the same depth. -/
def LevelsInside : Stmt → Nat → Code → Prop
  | .when _ body, line, code => ∃ before inner after, code = before ++ inner ++ after ∧
      Levels body (line + before.length) inner
  | .choose _ thens elses, line, code => ∃ before first between second after,
      code = before ++ first ++ between ++ second ++ after ∧
      Levels thens (line + before.length) first ∧
      Levels elses (line + (before ++ first ++ between).length) second
  | .loop _ body, line, code => ∃ before inner after, code = before ++ inner ++ after ∧
      Levels body (line + before.length) inner
  | .block body, line, code => Levels body line code
  | _, _, _ => True

end

end Levels

/-- The depths in the code of a function, which consists of a start, the statements, the
    result and an end. Between start and end the function works at a depth of its own. -/
structure Discipline (ctx : Context) (func : Func) (base : Nat) (depth : Nat → Nat)
    (first body result last : Code) : Prop where
  /-- A function is entered with nothing pushed. -/
  entry : depth 0 = 0
  enters : depth first.length = base
  floor : ∀ k ≤ (body ++ result).length, base ≤ depth (first.length + k)
  statements : Levels ctx depth base (Stmt.liveAll ctx.known func.body) first.length body
  exits : depth (first ++ body ++ result).length = base
  /-- The end takes off what the start saved. -/
  restores : ∀ reg ∈ [Reg.ebx, .esi, .edi], Restores depth (first ++ body ++ result ++ last)
    first.length (first ++ body ++ result).length (.push .plain (.reg reg)) (.pop reg)
  /-- The frame pointer is all that is left before it is restored as well. -/
  frame : Restores depth (first ++ body ++ result ++ last) first.length
    (first ++ body ++ result).length (.push .plain (.reg .ebp)) .leave
  leaves : ∃ before, last = before ++ [.instr .leave, .instr .ret] ∧
    depth (first ++ body ++ result ++ before).length = 4 ∧
    depth ((first ++ body ++ result ++ before).length + 1) = 0

end Asm

open Asm in
/-- The code of a function keeps the stack in order. Below the four saved registers there is
    room for the parameters and for what the scope takes beyond them. -/
def Func.Disciplined (ctx : Context) (func : Func) (size : Nat) (depth : Nat → Nat)
    (code : Code) : Prop :=
  let params := func.params.length * wordSize
  let room := params + (size - params)
  ∃ body result, code = start ctx func size ++ body ++ result ++ epilogue ctx room ∧
    Discipline ctx func (16 + room) depth (start ctx func size) body result (epilogue ctx room)

open Asm in
/-- Functions whose code begins at some line keep the stack in order one after the other. -/
def Program.Disciplined (options : Options) (facts : FactTable) (table : Table)
    (depth : Nat → Nat) : Program → Nat → Code → Prop
  | [], _, code => code = []
  | func :: rest, line, code => ∃ scope own later, func.scope = some scope ∧
      code = own ++ later ∧ (∃ n n', (funcCode options facts table func).run n = .ok (own, n')) ∧
      func.Disciplined { options, facts, lookup := table.lookup scope, scope }
        (table.scopeSize scope) (fun i => depth (line + i)) own ∧
      Disciplined options facts table depth rest (line + own.length) later

end Wordlang
