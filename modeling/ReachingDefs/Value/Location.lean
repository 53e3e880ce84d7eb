import ReachingDefs.Value.Basic

/-!
# Locations in memory

Two address trees name the same cell when both come down to one register plus a
constant and agree on both. An address of any other form has no location, and
then matches nothing, itself included: nothing is known about where it points.
-/

namespace ReachingDefs

/-- A cell of memory: an offset from the value of a base register. -/
structure Location where
  base : Register
  width : UInt8
  offset : Int64
deriving DecidableEq

namespace Location

/-- The location `n` bytes further on; addresses wrap at 64 bits. -/
def forward (l : Location) (n : Int64) : Location :=
  { l with offset := l.offset + n }

/-- The location `n` bytes back. -/
def back (l : Location) (n : Int64) : Location :=
  { l with offset := l.offset - n }

/-- The base register as a value. -/
def baseValue (l : Location) : Value :=
  .reg l.base l.width

/-- The location as text. -/
def text (l : Location) : String :=
  "[" ++ l.baseValue.text ++ ", #" ++ l.offset.toInt.repr ++ "]"

end Location

namespace Value

/-- The location an address names, if it is a register with constants added and
subtracted. A sum of two constants has no base, and so no location. -/
def location? : Value → Option Location
  | reg r width => some ⟨r, width, 0⟩
  | binary .add left (const n) => left.location?.map (·.forward n)
  | binary .add (const n) right => right.location?.map (·.forward n)
  | binary .sub left (const n) => left.location?.map (·.back n)
  | _ => none

/-- Do both addresses name one location? -/
def sameLocation (a b : Value) : Bool :=
  match a.location?, b.location? with
  | some l, some m => l = m
  | _, _ => false

/-- The register that the location of an address is relative to. -/
def baseRegister? (a : Value) : Option Register :=
  a.location?.map (·.base)

/-- The location of an address as text. -/
def locationText (a : Value) : String :=
  match a.location? with
  | some l => l.text
  | none => "[unresolved]"

end Value

end ReachingDefs
