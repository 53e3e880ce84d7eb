/-!
# Numerals

A number as a text writes it: a sign, digits, a fraction and an exponent, the last two
of which may be missing. A numeral with neither of them is an integer.

A numeral also has to be in the range of double precision, whatever it is used for.
Its size is the product of a significand, which takes as many of the digits as 64 bits
have room for, and of the power of ten that the other digits and the exponent make.
The two factors are rounded before they are multiplied and the product is rounded
once more, so next to the limit it is these three roundings that decide.
-/

namespace ReachingDefs

/-- A number in its parts, as written. -/
structure Numeral where
  negative : Bool
  /-- The digits in front of the point. -/
  whole : List Char
  /-- The digits behind the point. -/
  fraction : List Char
  /-- The mark, the sign if there is one, and the digits. -/
  exponent : List Char

namespace Numeral

/-! ## Digits -/

/-- The value of a decimal digit. -/
def digit (c : Char) : Nat := c.toNat - '0'.toNat

/-- The number that decimal digits write. -/
def ofDigits (ds : List Char) : Nat := ds.foldl (fun n d => n * 10 + digit d) 0

/-- Appends digits to a number for as long as 64 bits have room for it, and answers
the digits that are left over as well. -/
def appendDigits (n : Nat) : List Char → Nat × List Char
  | [] => (n, [])
  | d :: ds =>
    if n * 10 + digit d < UInt64.size then appendDigits (n * 10 + digit d) ds else (n, d :: ds)

/-! ## Value -/

/-- The integer that a numeral writes. A zero with a minus sign is not one. -/
def integer? (n : Numeral) : Option Int :=
  let m := ofDigits n.whole
  if n.fraction.isEmpty && n.exponent.isEmpty && !(n.negative && m = 0) then
    some (if n.negative then -m else m)
  else none

/-- The exponent as a number. -/
def power (n : Numeral) : Int :=
  match n.exponent with
  | _ :: '-' :: ds => -ofDigits ds
  | _ :: '+' :: ds => ofDigits ds
  | _ :: ds => ofDigits ds
  | [] => 0

/-- The significand and the power of ten that it is scaled by. A digit of the whole part
that is left over counts up, a digit of the fraction that is taken counts down. -/
def scaled (n : Numeral) : Nat × Int :=
  let (whole, dropped) := appendDigits 0 n.whole
  let (significand, unused) := appendDigits whole n.fraction
  (significand, n.power + dropped.length + unused.length - n.fraction.length)

/-! ## Range -/

/-- The nearest number of 53 significant bits; of two that are equally near, the one
with an even last bit. -/
def roundDouble (n : Nat) : Nat :=
  let unit := 1 <<< (n.log2 - 52)
  let q := n / unit
  let r := n % unit
  if unit < 2 * r || (unit = 2 * r && q % 2 = 1) then (q + 1) * unit else q * unit

/-- Is the numeral in the range of double precision? A significand that is scaled down
is; scaled up by more than `10 ^ 308` only zero is. -/
def isFinite (n : Numeral) : Bool :=
  let (significand, power) := n.scaled
  significand = 0 || power < 0 ||
    (power ≤ 308 &&
      roundDouble (roundDouble significand * roundDouble (Nat.pow 10 power.toNat)) < 1 <<< 1024)

/-! ## Text -/

/-- The numeral as it was written. -/
def text (n : Numeral) : String :=
  let sign := if n.negative then ['-'] else []
  let point := if n.fraction.isEmpty then [] else ['.']
  String.ofList (sign ++ n.whole ++ point ++ n.fraction ++ n.exponent)

/-- The digits in front. -/
def readDigits (cs : List Char) : List Char × List Char := cs.span Char.isDigit

/-- The digits behind a point, if there is one. -/
def readFraction : List Char → Option (List Char × List Char)
  | '.' :: rest =>
    match readDigits rest with
    | ([], _) => none
    | (ds, rest) => some (ds, rest)
  | rest => some ([], rest)

/-- The sign of an exponent, if there is one. -/
def readSign : List Char → List Char × List Char
  | '+' :: rest => (['+'], rest)
  | '-' :: rest => (['-'], rest)
  | rest => ([], rest)

/-- An exponent, if there is one: its mark, sign and digits. -/
def readExponent : List Char → Option (List Char × List Char)
  | e :: rest =>
    if e = 'e' ∨ e = 'E' then
      let (sign, rest) := readSign rest
      match readDigits rest with
      | ([], _) => none
      | (ds, rest) => some (e :: sign ++ ds, rest)
    else some ([], e :: rest)
  | [] => some ([], [])

/-- The numeral in front. Its digits do not start with a zero unless it is the only one. -/
def read? (cs : List Char) : Option (Numeral × List Char) :=
  let (negative, cs) := match cs with
    | '-' :: rest => (true, rest)
    | _ => (false, cs)
  match readDigits cs with
  | ([], _) => none
  | ('0' :: _ :: _, _) => none
  | (whole, rest) => do
    let (fraction, rest) ← readFraction rest
    let (exponent, rest) ← readExponent rest
    return (⟨negative, whole, fraction, exponent⟩, rest)

end Numeral

end ReachingDefs
