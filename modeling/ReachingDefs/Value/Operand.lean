import ReachingDefs.Machine.Instruction
import ReachingDefs.Value.Basic

/-!
# The values of operands

How a register operand, a shifted operand and a memory operand are read.
-/

namespace ReachingDefs

namespace Value

/-- The value read from a register; the zero register reads as zero. -/
def read (r : Register) (width : UInt8) : Value :=
  if r.isZero then const 0 else reg r width

/-- `v` joined by `op` to a shift amount; an amount of zero leaves `v` as it is. -/
def shiftBy (op : BinOp) (v : Value) (amount : UInt8) : Value :=
  if amount = 0 then v else binary op v (const (Int64.ofNat amount.toNat))

/-- The low bits of `v`, extended; all 64 bits are `v` itself. -/
def extend (v : Value) (kind : ShiftKind) : Value :=
  match kind.extendBits with
  | some bits =>
    if bits < 64 then (if kind.isSigned then sext v bits else zext v bits) else v
  | none => v

/-- `v` after the shift or extension of its operand. An extension is followed by
a left shift. -/
def shifted (v : Value) (shift : Shift) : Value :=
  match shift.kind with
  | .lsl => shiftBy .lsl v shift.amount
  | .lsr => shiftBy .lsr v shift.amount
  | .asr => shiftBy .asr v shift.amount
  | .ror => shiftBy .ror v shift.amount
  | kind => shiftBy .lsl (v.extend kind) shift.amount

end Value

namespace MemOperand

/-- The width at which an index register is read: an extension from 32 bits reads
the 32-bit register. -/
def indexWidth (shift : Shift) : UInt8 :=
  if shift.kind = .uxtw ∨ shift.kind = .sxtw then 4 else 8

/-- What the operand adds to its base. -/
def offset (m : MemOperand) : Value :=
  match m.index with
  | none => .const m.disp
  | some (r, none) => .read r 8
  | some (r, some shift) => (Value.read r (indexWidth shift)).shifted shift

/-- The accessed address. -/
def place (m : MemOperand) : Value :=
  .binary .add (.reg m.base 8) m.offset

/-- The address of the second of two adjacent cells of `width` bytes. -/
def nextPlace (m : MemOperand) (width : UInt8) : Value :=
  .binary .add m.place (.const (Int64.ofNat width.toNat))

/-- The new value of the base register, if the access moves it. -/
def update? (m : MemOperand) : Writeback → Option Value
  | .none => none
  | .preIndex => some m.place
  | .postIndex amount => some (.binary .add (.reg m.base 8) (.const amount))

/-- The registers that the address is computed from. -/
def registers (m : MemOperand) : List Register :=
  m.base :: (m.index.map (·.1)).toList

end MemOperand

end ReachingDefs
