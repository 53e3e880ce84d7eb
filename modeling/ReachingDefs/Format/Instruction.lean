import ReachingDefs.Format.Json
import ReachingDefs.Machine.Instruction

/-!
# Instructions as JSON

Writing always gives the object form with every field. Reading takes what
`ReachingDefs.Format.Json` allows for alternatives and structures; a missing
field is refused, except where the value may be absent.
-/

namespace ReachingDefs

/-- A register is its number. -/
def Register.toJson (r : Register) : Json := .nat r.id.toNat

def Register.ofJson? (j : Json) : Option Register := j.uint8?.map Register.mk

/-- An opcode is its name, or a number without a meaning. -/
def Opcode.toJson : Opcode → Json
  | other id => .obj [("other", .nat id.toNat)]
  | op => .str op.name

def Opcode.ofJson? (j : Json) : Option Opcode :=
  match j.variant? with
  | some ("other", id) => id.uint32?.map other
  | _ => j.constant? name known

def Condition.toJson (c : Condition) : Json := .str c.name

def Condition.ofJson? (j : Json) : Option Condition := j.constant? name all

def ShiftKind.toJson (k : ShiftKind) : Json := .str k.name

def ShiftKind.ofJson? (j : Json) : Option ShiftKind := j.constant? name all

namespace Shift

def toJson (s : Shift) : Json :=
  .obj [("kind", s.kind.toJson), ("amount", .nat s.amount.toNat)]

def ofJson? (j : Json) : Option Shift :=
  match j.members? ["kind", "amount"] with
  | some [some kind, some amount] => return ⟨← ShiftKind.ofJson? kind, ← amount.uint8?⟩
  | _ => none

end Shift

namespace MemOperand

/-- An index is the pair of its register and its shift. -/
def indexToJson (i : Register × Option Shift) : Json :=
  .arr [i.1.toJson, .ofOption Shift.toJson i.2]

def indexOfJson? : Json → Option (Register × Option Shift)
  | .arr [r, shift] => return (← Register.ofJson? r, ← Json.optional? Shift.ofJson? (some shift))
  | _ => none

def toJson (m : MemOperand) : Json :=
  .obj [("base", m.base.toJson), ("index", .ofOption indexToJson m.index),
    ("disp", .int m.disp.toInt)]

def ofJson? (j : Json) : Option MemOperand :=
  match j.members? ["base", "index", "disp"] with
  | some [some base, index, some disp] =>
    return ⟨← Register.ofJson? base, ← Json.optional? indexOfJson? index, ← disp.int64?⟩
  | _ => none

end MemOperand

namespace Writeback

def toJson : Writeback → Json
  | none => .str "None"
  | preIndex => .str "PreIndex"
  | postIndex amount => .obj [("PostIndex", .int amount.toInt)]

def ofJson? (j : Json) : Option Writeback :=
  match j.variant? with
  | some ("None", .null) => some none
  | some ("PreIndex", .null) => some preIndex
  | some ("PostIndex", amount) => amount.int64?.map postIndex
  | _ => Option.none

end Writeback

namespace Operand

def toJson : Operand → Json
  | reg r width => .obj [("Reg", .obj [("reg", r.toJson), ("width", .nat width.toNat)])]
  | imm n => .obj [("Imm", .int n.toInt)]
  | shifted r width shift =>
    .obj [("Shifted",
      .obj [("reg", r.toJson), ("width", .nat width.toNat), ("shift", shift.toJson)])]
  | mem m => .obj [("Mem", m.toJson)]
  | sys r => .obj [("Sys", r.toJson)]

/-- Reads an operand. The register forms are objects only. -/
def ofJson? (j : Json) : Option Operand :=
  match j.variant? with
  | some ("Reg", .obj fields) => do
    return .reg (← Register.ofJson? (← fields.lookup "reg")) (← (← fields.lookup "width").uint8?)
  | some ("Imm", n) => n.int64?.map imm
  | some ("Shifted", .obj fields) => do
    return .shifted (← Register.ofJson? (← fields.lookup "reg"))
      (← (← fields.lookup "width").uint8?) (← Shift.ofJson? (← fields.lookup "shift"))
  | some ("Mem", m) => (MemOperand.ofJson? m).map mem
  | some ("Sys", r) => (Register.ofJson? r).map sys
  | _ => none

end Operand

namespace Operation

def toJson (o : Operation) : Json :=
  .obj [("opcode", o.opcode.toJson), ("operands", .arr (o.operands.map Operand.toJson)),
    ("cond", .ofOption Condition.toJson o.cond), ("writeback", o.writeback.toJson)]

def ofJson? (j : Json) : Option Operation :=
  match j.members? ["opcode", "operands", "cond", "writeback"] with
  | some [some opcode, some operands, cond, some writeback] =>
    return ⟨← Opcode.ofJson? opcode, ← Json.list? Operand.ofJson? operands,
      ← Json.optional? Condition.ofJson? cond, ← Writeback.ofJson? writeback⟩
  | _ => none

end Operation

namespace Instruction

def toJson (i : Instruction) : Json :=
  .obj [("address", .nat i.address.toNat), ("size", .nat i.size.toNat),
    ("assembly", .ofOption Operation.toJson i.operation)]

def ofJson? (j : Json) : Option Instruction :=
  match j.members? ["address", "size", "assembly"] with
  | some [some address, some size, operation] =>
    return ⟨← address.uint64?, ← size.uint8?, ← Json.optional? Operation.ofJson? operation⟩
  | _ => none

end Instruction

end ReachingDefs
