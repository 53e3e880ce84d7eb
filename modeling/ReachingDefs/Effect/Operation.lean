import ReachingDefs.Effect.Basic

/-!
# The effects of an operation

What the handler of an opcode does, written down as one list (`Opcode.on_handler`).
Operands beyond those that an opcode reads are ignored by the opcodes of addresses,
branches, calls and system registers, and refused by all others.
-/

namespace ReachingDefs

open Effect in
/-- What an operation does, or `none` if its operands do not fit its opcode.
`returnTo` is where a call comes back to. -/
def Operation.effects (o : Operation) (returnTo : UInt64) : Option (List Effect) :=
  match o.opcode with
  | .add => arithmetic .add o.operands
  | .sub => arithmetic .sub o.operands
  | .and => arithmetic .and o.operands
  | .orr => arithmetic .or o.operands
  | .lsl => arithmetic .lsl o.operands
  | .adr =>
    match o.operands with
    | .reg dst _ :: .imm n :: _ => some [define dst (.addr n.toUInt64)]
    | _ => none
  | .adrp =>
    match o.operands with
    | .reg dst _ :: .imm n :: _ => some [define dst (.addr (n.toUInt64 &&& ~~~0xfff))]
    | _ => none
  | .b => some (if o.cond.isSome then [use .nzcv] else [])
  | .bl =>
    match o.operands with
    | .imm _ :: _ => some (call returnTo)
    | _ => none
  | .blr =>
    match o.operands with
    | .reg target _ :: _ => some (use target :: call returnTo)
    | _ => none
  | .br =>
    match o.operands with
    | .reg target _ :: _ => some [use target]
    | _ => none
  | .cbz | .cbnz =>
    match o.operands with
    | [.reg a _, .imm _] => some [use a]
    | _ => none
  | .tbz | .tbnz =>
    match o.operands with
    | [.reg a _, .imm _, .imm _] => some [use a]
    | _ => none
  | .cmp => compare o.operands
  | .csel => choose o.cond o.operands
  | .ldaxr => loadExclusive o.writeback o.operands
  | .ldp => loadPair o.writeback o.operands
  | .ldr | .ldur => loadReg o.writeback none false o.operands
  | .ldrb => loadReg o.writeback (some 1) false o.operands
  | .ldrh => loadReg o.writeback (some 2) false o.operands
  | .ldrsb => loadReg o.writeback (some 1) true o.operands
  | .ldrsh => loadReg o.writeback (some 2) true o.operands
  | .ldrsw => loadReg o.writeback (some 4) true o.operands
  | .mov => move o.operands
  | .mrs =>
    match o.operands with
    | .reg dst _ :: .sys r :: _ => some [define dst (.reg r 8)]
    | _ => none
  | .nop => some []
  | .ret => leave o.operands
  | .stp => storePair o.writeback o.operands
  | .str | .strb | .strh => storeReg o.writeback o.operands
  | .sxtw =>
    match o.operands with
    | [.reg dst _, .reg a _] => some [use a, define dst (.sext (.read a 4) 32)]
    | _ => none
  | .other _ => none

end ReachingDefs
