/-!
# JSON values

A JSON value after its text has been read, and how numbers, alternatives and
structures are found in one. Reading a value answers nothing if the value is of
another kind or out of range.

An alternative is a name with an argument: an object of one field, or the bare
name if there is no argument. A structure is an object, whose further fields are
ignored, or the array of its fields in order.
-/

namespace ReachingDefs

inductive Json where
  | null
  | bool (b : Bool)
  /-- A number written without fraction and exponent. -/
  | int (n : Int)
  /-- Any other number, as written. -/
  | decimal (text : String)
  | str (s : String)
  | arr (items : List Json)
  /-- An object; no two fields have one name. -/
  | obj (fields : List (String × Json))

namespace Json

/-! ## Numbers -/

/-- An integer from `lo` up to, and not including, `hi`. -/
def intIn? (lo hi : Int) : Json → Option Int
  | int n => if lo ≤ n ∧ n < hi then some n else none
  | _ => none

/-- A natural number below `bound`. -/
def natBelow? (bound : Nat) (j : Json) : Option Nat :=
  (j.intIn? 0 bound).map Int.toNat

/-- A natural number of 64 bits. -/
def nat64? (j : Json) : Option Nat := j.natBelow? UInt64.size

def uint8? (j : Json) : Option UInt8 := (j.natBelow? UInt8.size).map UInt8.ofNat

def uint32? (j : Json) : Option UInt32 := (j.natBelow? UInt32.size).map UInt32.ofNat

def uint64? (j : Json) : Option UInt64 := j.nat64?.map UInt64.ofNat

def int64? (j : Json) : Option Int64 :=
  (j.intIn? Int64.minValue.toInt (Int64.maxValue.toInt + 1)).map Int64.ofInt

def nat (n : Nat) : Json := int n

/-! ## Lists and absent values -/

/-- An array, item by item. -/
def list? {α : Type} (item : Json → Option α) : Json → Option (List α)
  | arr items => items.mapM item
  | _ => none

/-- A value that may be missing or null. -/
def optional? {α : Type} (value : Json → Option α) : Option Json → Option (Option α)
  | none | some null => some none
  | some j => (value j).map some

/-- A value that may be missing, with a default. -/
def default? {α : Type} (value : Json → Option α) (default : α) : Option Json → Option α
  | none => some default
  | some j => value j

/-- A value that may be null, as JSON. -/
def ofOption {α : Type} (write : α → Json) : Option α → Json
  | none => null
  | some a => write a

/-! ## Alternatives and structures -/

/-- The name and the argument of an alternative; a bare name has the argument null. -/
def variant? : Json → Option (String × Json)
  | str name => some (name, null)
  | obj [(name, argument)] => some (name, argument)
  | _ => none

/-- The member of a list of constants that an alternative without argument names. -/
def constant? {α : Type} (name : α → String) (all : List α) (j : Json) : Option α :=
  match j.variant? with
  | some (s, null) => all.find? (name · = s)
  | _ => none

/-- The fields of a structure, by name or by position; an array has to have all. -/
def members? (names : List String) : Json → Option (List (Option Json))
  | obj fields => some (names.map fun name => fields.lookup name)
  | arr items => if items.length = names.length then some (items.map some) else none
  | _ => none

/-- The fields of a structure of which an array may leave off the last ones. -/
def leadingMembers? (names : List String) : Json → Option (List (Option Json))
  | obj fields => some (names.map fun name => fields.lookup name)
  | arr items =>
    if items.length ≤ names.length then
      some (items.map some ++ List.replicate (names.length - items.length) none)
    else none
  | _ => none

end Json

end ReachingDefs
