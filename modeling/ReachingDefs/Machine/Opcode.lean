/-!
# Opcodes and condition codes

The opcodes whose meaning the analysis knows, and `other` for the rest, which
keeps the decoder's number. Each has the lowercase name that assembly text uses.
-/

namespace ReachingDefs

inductive Opcode where
  | add | adr | adrp | and | b | bl | blr | br | cbz | cbnz | cmp | csel
  | ldaxr | ldp | ldr | ldrb | ldrh | ldrsb | ldrsh | ldrsw | ldur | lsl
  | mov | mrs | nop | orr | ret | stp | str | strb | strh | sub | sxtw
  | tbz | tbnz
  /-- An opcode without a meaning here. -/
  | other (id : UInt32)
deriving DecidableEq

namespace Opcode

/-- The opcodes with a meaning. -/
def known : List Opcode :=
  [add, adr, adrp, and, b, bl, blr, br, cbz, cbnz, cmp, csel,
   ldaxr, ldp, ldr, ldrb, ldrh, ldrsb, ldrsh, ldrsw, ldur, lsl,
   mov, mrs, nop, orr, ret, stp, str, strb, strh, sub, sxtw,
   tbz, tbnz]

/-- The opcode as text; one without a meaning shows its number. -/
def name : Opcode → String
  | add => "add" | adr => "adr" | adrp => "adrp" | and => "and"
  | b => "b" | bl => "bl" | blr => "blr" | br => "br"
  | cbz => "cbz" | cbnz => "cbnz" | cmp => "cmp" | csel => "csel"
  | ldaxr => "ldaxr" | ldp => "ldp" | ldr => "ldr" | ldrb => "ldrb"
  | ldrh => "ldrh" | ldrsb => "ldrsb" | ldrsh => "ldrsh" | ldrsw => "ldrsw"
  | ldur => "ldur" | lsl => "lsl" | mov => "mov" | mrs => "mrs"
  | nop => "nop" | orr => "orr" | ret => "ret" | stp => "stp"
  | str => "str" | strb => "strb" | strh => "strh" | sub => "sub"
  | sxtw => "sxtw" | tbz => "tbz" | tbnz => "tbnz"
  | other id => "op#" ++ id.toNat.repr

/-- Does the analysis know what this opcode does? -/
def isKnown : Opcode → Bool
  | other _ => false
  | _ => true

end Opcode

/-- The condition under which a conditional instruction takes effect. -/
inductive Condition where
  | eq | ne | hs | lo | mi | pl | vs | vc | hi | ls | ge | lt | gt | le | al
deriving DecidableEq

namespace Condition

def all : List Condition :=
  [eq, ne, hs, lo, mi, pl, vs, vc, hi, ls, ge, lt, gt, le, al]

def name : Condition → String
  | eq => "eq" | ne => "ne" | hs => "hs" | lo => "lo" | mi => "mi"
  | pl => "pl" | vs => "vs" | vc => "vc" | hi => "hi" | ls => "ls"
  | ge => "ge" | lt => "lt" | gt => "gt" | le => "le" | al => "al"

end Condition

end ReachingDefs
