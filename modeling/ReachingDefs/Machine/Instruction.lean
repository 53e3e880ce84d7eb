import ReachingDefs.Machine.Opcode
import ReachingDefs.Machine.Register
import ReachingDefs.Machine.Shift

/-!
# Decoded instructions

An instruction is an address, a size and, if decoding succeeded, an operation:
an opcode with its operands, a condition and the writeback of its address. The
shape of the operands is all that a log line says about operands that do not fit
their opcode.
-/

namespace ReachingDefs

/-- A memory operand: a base register with an index register or a displacement. -/
structure MemOperand where
  base : Register
  index : Option (Register × Option Shift)
  disp : Int64
deriving DecidableEq

/-- Whether, and when, an access moves its base register. -/
inductive Writeback where
  | none
  /-- The base takes the accessed address. -/
  | preIndex
  /-- The base moves by this amount after the access. -/
  | postIndex (amount : Int64)
deriving DecidableEq

/-- An operand. Register widths are in bytes. -/
inductive Operand where
  | reg (r : Register) (width : UInt8)
  | imm (n : Int64)
  | shifted (r : Register) (width : UInt8) (shift : Shift)
  | mem (m : MemOperand)
  | sys (r : Register)
deriving DecidableEq

namespace Operand

/-- A 64-bit register operand. -/
def x (r : Register) : Operand := .reg r 8

/-- A 32-bit register operand. -/
def w (r : Register) : Operand := .reg r 4

/-- The operand `[base, #disp]`. -/
def based (base : Register) (disp : Int64) : Operand :=
  .mem ⟨base, none, disp⟩

/-- The operand `[base, index, shift]`. -/
def indexed (base index : Register) (shift : Option Shift) : Operand :=
  .mem ⟨base, some (index, shift), 0⟩

end Operand

/-- The kinds of a list of operands, as far as opcodes tell them apart. -/
inductive OperandShape where
  | none | reg | imm
  | regReg | regImm | regShifted | regSys | regMem
  | regRegReg | regRegImm | regRegShifted | regRegMem | regImmImm
  /-- Any other list of operands. -/
  | other
deriving DecidableEq

namespace OperandShape

def of : List Operand → OperandShape
  | [] => none
  | [.reg ..] => reg
  | [.imm _] => imm
  | [.reg .., .reg ..] => regReg
  | [.reg .., .imm _] => regImm
  | [.reg .., .shifted ..] => regShifted
  | [.reg .., .sys _] => regSys
  | [.reg .., .mem _] => regMem
  | [.reg .., .reg .., .reg ..] => regRegReg
  | [.reg .., .reg .., .imm _] => regRegImm
  | [.reg .., .reg .., .shifted ..] => regRegShifted
  | [.reg .., .reg .., .mem _] => regRegMem
  | [.reg .., .imm _, .imm _] => regImmImm
  | _ => other

/-- The shape as log lines write it. -/
def name : OperandShape → String
  | none => "None" | reg => "Reg" | imm => "Imm"
  | regReg => "RegReg" | regImm => "RegImm" | regShifted => "RegShifted"
  | regSys => "RegSys" | regMem => "RegMem" | regRegReg => "RegRegReg"
  | regRegImm => "RegRegImm" | regRegShifted => "RegRegShifted"
  | regRegMem => "RegRegMem" | regImmImm => "RegImmImm" | other => "Other"

end OperandShape

/-- What a decoded instruction does: an opcode applied to operands. -/
structure Operation where
  opcode : Opcode
  operands : List Operand := []
  cond : Option Condition := none
  writeback : Writeback := .none
deriving DecidableEq

namespace Operation

/-- The operation with one more operand. -/
def push (o : Operation) (x : Operand) : Operation :=
  { o with operands := o.operands ++ [x] }

def shape (o : Operation) : OperandShape :=
  OperandShape.of o.operands

/-- Operand `i`, if it is a plain register, with its width. -/
def regAt? (o : Operation) (i : Nat) : Option (Register × UInt8) :=
  match o.operands[i]? with
  | some (.reg r width) => some (r, width)
  | _ => none

/-- Operand `i`, if it is an immediate. -/
def immAt? (o : Operation) (i : Nat) : Option Int64 :=
  match o.operands[i]? with
  | some (.imm n) => some n
  | _ => none

/-- Operand `i`, if it is a shifted register, with its width and shift. -/
def shiftedAt? (o : Operation) (i : Nat) : Option (Register × UInt8 × Shift) :=
  match o.operands[i]? with
  | some (.shifted r width shift) => some (r, width, shift)
  | _ => none

/-- Operand `i`, if it is a memory operand. -/
def memAt? (o : Operation) (i : Nat) : Option MemOperand :=
  match o.operands[i]? with
  | some (.mem m) => some m
  | _ => none

/-- Operand `i`, if it is a system register. -/
def sysAt? (o : Operation) (i : Nat) : Option Register :=
  match o.operands[i]? with
  | some (.sys r) => some r
  | _ => none

end Operation

/-- An instruction of a block; its operation is absent if it was not decoded. -/
structure Instruction where
  address : UInt64
  size : UInt8
  operation : Option Operation
deriving DecidableEq

namespace Instruction

/-- A decoded instruction of the usual four bytes. -/
def decoded (address : UInt64) (operation : Operation) : Instruction :=
  ⟨address, 4, some operation⟩

/-- Bytes that were not decoded; the analysis leaves them alone. -/
def undecoded (address : UInt64) (size : UInt8) : Instruction :=
  ⟨address, size, none⟩

def isDecoded (i : Instruction) : Bool :=
  i.operation.isSome

end Instruction

end ReachingDefs
