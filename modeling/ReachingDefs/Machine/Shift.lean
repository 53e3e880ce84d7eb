/-!
# Shifts and extensions of an operand

An operand register may be shifted, or narrowed to its low bits and extended
again before a left shift.
-/

namespace ReachingDefs

/-- What happens to an operand register before it is used. -/
inductive ShiftKind where
  | lsl | lsr | asr | ror
  | uxtb | uxth | uxtw | uxtx
  | sxtb | sxth | sxtw | sxtx
deriving DecidableEq

namespace ShiftKind

def all : List ShiftKind :=
  [lsl, lsr, asr, ror, uxtb, uxth, uxtw, uxtx, sxtb, sxth, sxtw, sxtx]

def name : ShiftKind → String
  | lsl => "lsl" | lsr => "lsr" | asr => "asr" | ror => "ror"
  | uxtb => "uxtb" | uxth => "uxth" | uxtw => "uxtw" | uxtx => "uxtx"
  | sxtb => "sxtb" | sxth => "sxth" | sxtw => "sxtw" | sxtx => "sxtx"

/-- How many low bits an extension keeps; a plain shift keeps no such count. -/
def extendBits : ShiftKind → Option UInt8
  | uxtb | sxtb => some 8
  | uxth | sxth => some 16
  | uxtw | sxtw => some 32
  | uxtx | sxtx => some 64
  | lsl | lsr | asr | ror => none

/-- Does the kind extend by the sign bit? -/
def isSigned : ShiftKind → Bool
  | sxtb | sxth | sxtw | sxtx => true
  | _ => false

end ShiftKind

/-- A shift of an operand by a number of bits. -/
structure Shift where
  kind : ShiftKind
  amount : UInt8
deriving DecidableEq

end ReachingDefs
