import Wordlang.Asm.Context
import Wordlang.Asm.Frame

/-! # Code of expressions

The code of an expression leaves its value in a place. Operators work on `%eax`
and `%ebx`; what is known about an expression or an operand takes the place of its
code.
-/

namespace Wordlang.Asm

/-- Where the value of an expression has to end up. -/
inductive Place where
  /-- On top of the stack. -/
  | stack
  | eax
  | ebx
  deriving Repr, DecidableEq

namespace Place

/-- The register through which a value reaches its place. -/
def reg : Place → Reg
  | stack => .eax
  | eax => .eax
  | ebx => .ebx

def immediate (place : Place) (value : Word) : Code :=
  match place with
  | stack => [.instr (.push .long (.imm value.toInt))]
  | _ => [.instr (.mov .long (.imm value.toInt) (.reg place.reg))]

def load (place : Place) (address : Address) : Code :=
  match place with
  | stack => [.instr (.push .long (.mem address))]
  | _ => [.instr (.mov .long (.mem address) (.reg place.reg))]

def store : Place → Code
  | stack => [.instr (.push .plain (.reg .eax))]
  | eax => []
  | ebx => [.instr (.mov .plain (.reg .eax) (.reg .ebx))]

def sum (place : Place) (address : Address) : Code :=
  .instr (.leal address place.reg) ::
    match place with
    | stack => [.instr (.push .plain (.reg .eax))]
    | _ => []

end Place

/-- Compute an operator on `%eax`. Negation sets the carry exactly when the word was
    not zero, and it finds "less" exactly when the word was positive. -/
def unaryCode (ctx : Context) : UnOp → Code
  | .not => ctx.note "not" ++
      [.instr (.neg .eax), .instr (.arith .sbb (.reg .eax) .eax), .instr (.inc .eax)]
  | .neg => ctx.note "unary minus" ++ [.instr (.neg .eax)]
  | .magnitude => ctx.note "magnitude" ++
      [.instr (.mov .plain (.reg .eax) (.reg .ebx)), .instr (.neg .eax),
        .instr (.cmovl .ebx .eax)]

def truthValues : Code :=
  [.instr (.test .eax .eax), .instr (.setne .al), .instr (.movzbl .al .eax),
    .instr (.test .ebx .ebx), .instr (.setne .bl), .instr (.movzbl .bl .ebx)]

def comparisonCode (op : BinOp) (jump : Jump) : Gen Code := do
  let number ← newNumber
  return [.instr (.cmp (.reg .ebx) .eax),
    .instr (.jump jump (.holds op number)),
    .instr (.mov .plain (.imm 0) (.reg .eax)),
    .instr (.jump .always (.compared op number)),
    .label (.holds op number),
    .instr (.mov .plain (.imm 1) (.reg .eax)),
    .label (.compared op number)]

def binaryCode (op : BinOp) : Gen Code :=
  match op with
  | .plus => return [.instr (.arith .add (.reg .ebx) .eax)]
  | .minus => return [.instr (.arith .sub (.reg .ebx) .eax)]
  | .times => return [.instr (.arith .imul (.reg .ebx) .eax)]
  | .div => return [.instr .cdq, .instr (.idiv .ebx)]
  | .and => return truthValues ++ [.instr (.arith .and (.reg .ebx) .eax)]
  | .or => return truthValues ++ [.instr (.arith .or (.reg .ebx) .eax)]
  | .equal => comparisonCode op .equal
  | .notEqual => comparisonCode op .notEqual
  | .greater => comparisonCode op .greater
  | .greaterEq => comparisonCode op .greaterEq
  | .less => comparisonCode op .less
  | .lessEq => comparisonCode op .lessEq

/-- Compute an operator whose operands are loaded, except that a known operand of a
    sum stands only in the address of that sum. -/
def resultCode (op : BinOp) (total : Address) (place : Place) : Gen Code :=
  match op with
  | .plus => return place.sum total
  | _ => return (← binaryCode op) ++ place.store

def knownOperand (op : BinOp) (value : Word) (reg : Reg) : Code :=
  if op = .plus then [] else [.instr (.mov .plain (.imm value.toInt) (.reg reg))]

def exprCode (ctx : Context) (e : Expr) (place : Place) : Gen Code :=
  match ctx.known e with
  | some value => return place.immediate value
  | none =>
      match e with
      | .int _ value => return place.immediate (.ofNat 32 value)
      | .bool _ value => return place.immediate (.ofBool value)
      | .var _ name => return place.load (← ctx.find name).slot
      | .index _ name index => do
          let symbol ← ctx.find name
          match ctx.known index with
          | some value => return place.load (symbol.elementSlot value)
          | none => return (← exprCode ctx index .ebx) ++ place.load symbol.indexedSlot
      | .unary _ op operand => do
          return (← exprCode ctx operand .eax) ++ unaryCode ctx op ++ place.store
      | .binary _ op left right =>
          match ctx.known left, ctx.known right with
          | some value, _ => do
              let operand ← exprCode ctx right .ebx
              let result ← resultCode op (.based value.toInt .ebx) place
              return ctx.note s!"{op.name}, left folded" ++ operand ++
                knownOperand op value .eax ++ result
          | none, some value => do
              let operand ← exprCode ctx left .eax
              let result ← resultCode op (.based value.toInt .eax) place
              return ctx.note s!"{op.name}, right folded" ++ operand ++
                knownOperand op value .ebx ++ result
          | none, none => do
              let second ← exprCode ctx right .stack
              let first ← exprCode ctx left .eax
              let result ← resultCode op (.sum .eax .ebx) place
              return ctx.note op.name ++ second ++ first ++ [.instr (.pop .ebx)] ++ result

end Wordlang.Asm
