import ReachingDefs.Machine.Opcode
import ReachingDefs.Machine.Register

/-!
# Symbolic values

What an instruction computes, written as a tree over the values that registers
held before it. Equality is structural: two trees are equal when they were built
alike, whatever they evaluate to.
-/

namespace ReachingDefs

/-- The operators that join two values. -/
inductive BinOp where
  | add | sub | and | or | lsl | lsr | asr | ror
  /-- The flags of a comparison. -/
  | cmp
deriving DecidableEq

/-- The operator as text. -/
def BinOp.symbol : BinOp → String
  | add => "+" | sub => "-" | and => "&" | or => "|"
  | lsl => "<<" | lsr => ">>" | asr => "s>>" | ror => "ror"
  | cmp => "cmp"

/-- A symbolic value. Widths are in bytes, extensions in bits. -/
inductive Value where
  | reg (r : Register) (width : UInt8)
  | const (n : Int64)
  | addr (a : UInt64)
  /-- A value nothing is known about. -/
  | undef
  | deref (place : Value) (width : UInt8)
  | sext (v : Value) (bits : UInt8)
  | zext (v : Value) (bits : UInt8)
  | binary (op : BinOp) (left right : Value)
  | select (cond : Condition) (yes no : Value)
deriving DecidableEq

namespace Value

/-- The register, if the value is a plain register. -/
def register? : Value → Option Register
  | reg r _ => some r
  | _ => none

/-- The number, if the value is a constant. -/
def constant? : Value → Option Int64
  | const n => some n
  | _ => none

/-- A register leaf: the 32-bit view of a general purpose register has a name of its own. -/
def regText (r : Register) (width : UInt8) : String :=
  if width = 4 ∧ r.isGeneral then "%w" ++ r.id.toNat.repr else "%" ++ r.name

/-- A number in lowercase hexadecimal, with its mark. -/
def hexText (a : UInt64) : String :=
  "0x" ++ String.ofList (Nat.toDigits 16 a.toNat)

/-- The value in operator-first form. -/
def text : Value → String
  | reg r width => regText r width
  | const n => "#" ++ n.toInt.repr
  | addr a => hexText a
  | undef => "undef"
  | deref place width => "(deref." ++ width.toNat.repr ++ " " ++ place.text ++ ")"
  | sext v bits => "(sext." ++ bits.toNat.repr ++ " " ++ v.text ++ ")"
  | zext v bits => "(zext." ++ bits.toNat.repr ++ " " ++ v.text ++ ")"
  | binary op left right => "(" ++ op.symbol ++ " " ++ left.text ++ " " ++ right.text ++ ")"
  | select cond yes no => "(select." ++ cond.name ++ " " ++ yes.text ++ " " ++ no.text ++ ")"

end Value

end ReachingDefs
