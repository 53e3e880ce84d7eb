import ReachingDefs.Format.Json
import ReachingDefs.Format.Numeral

/-!
# JSON text

Reading a JSON text to a value and writing a value as text. The reader walks the
characters from left to right; each of its steps answers what it read and the
characters that follow. Of two fields with one name the last one counts.
-/

namespace ReachingDefs.Json

/-! ## Reading -/

/-- The characters that may stand between any two parts of a text. -/
def isBlank (c : Char) : Bool :=
  c = ' ' || c = '\t' || c = '\n' || c = '\r'

/-- Leaves out leading blanks. -/
def skipBlank (cs : List Char) : List Char := cs.dropWhile isBlank

/-- The value of a hexadecimal digit. -/
def hexDigit? (c : Char) : Option Nat :=
  if '0' ≤ c ∧ c ≤ '9' then some (c.toNat - '0'.toNat)
  else if 'a' ≤ c ∧ c ≤ 'f' then some (c.toNat - 'a'.toNat + 10)
  else if 'A' ≤ c ∧ c ≤ 'F' then some (c.toNat - 'A'.toNat + 10)
  else none

/-- The value of four hexadecimal digits. -/
def hexUnit? (a b c d : Char) : Option Nat :=
  return (((← hexDigit? a) * 16 + (← hexDigit? b)) * 16 + (← hexDigit? c)) * 16 + (← hexDigit? d)

/-- The character that a one-letter escape stands for. -/
def escaped? : Char → Option Char
  | '"' => some '"'
  | '\\' => some '\\'
  | '/' => some '/'
  | 'b' => some '\x08'
  | 'f' => some '\x0c'
  | 'n' => some '\n'
  | 'r' => some '\r'
  | 't' => some '\t'
  | _ => none

/-- Is this the first half of a character that is written as two units? -/
def isLeading (u : Nat) : Bool := 0xd800 ≤ u && u < 0xdc00

/-- Is this the second half of such a character? -/
def isTrailing (u : Nat) : Bool := 0xdc00 ≤ u && u < 0xe000

/-- The character that two units stand for. -/
def joined (u v : Nat) : Char :=
  Char.ofNat (0x10000 + (u - 0xd800) * 0x400 + (v - 0xdc00))

/-- The characters of a string, up to its closing quote. -/
def readChars : List Char → Option (List Char × List Char)
  | '"' :: rest => some ([], rest)
  | '\\' :: 'u' :: a :: b :: c :: d :: '\\' :: 'u' :: e :: f :: g :: h :: rest => do
    let u ← hexUnit? a b c d
    let v ← hexUnit? e f g h
    if isLeading u then
      if isTrailing v then (readChars rest).map fun r => (joined u v :: r.1, r.2) else none
    else if isTrailing u then none
    else (readChars ('\\' :: 'u' :: e :: f :: g :: h :: rest)).map fun r => (Char.ofNat u :: r.1, r.2)
  | '\\' :: 'u' :: a :: b :: c :: d :: rest => do
    let u ← hexUnit? a b c d
    if isLeading u || isTrailing u then none
    else (readChars rest).map fun r => (Char.ofNat u :: r.1, r.2)
  | '\\' :: c :: rest => do
    let c ← escaped? c
    (readChars rest).map fun r => (c :: r.1, r.2)
  | c :: rest =>
    if c < ' ' ∨ c = '\\' then none else (readChars rest).map fun r => (c :: r.1, r.2)
  | [] => none

/-- A number: an integer or a decimal. One that is out of range cannot be read. -/
def readNumber (cs : List Char) : Option (Json × List Char) := do
  let (n, rest) ← Numeral.read? cs
  if n.isFinite then
    match n.integer? with
    | some i => return (int i, rest)
    | none => return (decimal n.text, rest)
  else none

/-- Puts a field in front of others, unless one of them has its name. -/
def putField (field : String × Json) (fields : List (String × Json)) : List (String × Json) :=
  if fields.any (·.1 = field.1) then fields else field :: fields

mutual

/-- A value. Every call that it makes follows a character it has read, so the number
of characters is fuel enough. -/
def readValue : (fuel : Nat) → List Char → Option (Json × List Char)
  | 0, _ => none
  | fuel + 1, cs =>
    match skipBlank cs with
    | 'n' :: 'u' :: 'l' :: 'l' :: rest => some (null, rest)
    | 't' :: 'r' :: 'u' :: 'e' :: rest => some (bool true, rest)
    | 'f' :: 'a' :: 'l' :: 's' :: 'e' :: rest => some (bool false, rest)
    | '"' :: rest => (readChars rest).map fun r => (str (String.ofList r.1), r.2)
    | '[' :: rest =>
      match skipBlank rest with
      | ']' :: rest => some (arr [], rest)
      | rest => (readItems fuel rest).map fun r => (arr r.1, r.2)
    | '\x7b' :: rest =>
      match skipBlank rest with
      | '\x7d' :: rest => some (obj [], rest)
      | rest => (readFields fuel rest).map fun r => (obj r.1, r.2)
    | rest => readNumber rest

/-- The items of an array, up to its closing bracket. -/
def readItems : (fuel : Nat) → List Char → Option (List Json × List Char)
  | 0, _ => none
  | fuel + 1, cs => do
    let (item, rest) ← readValue fuel cs
    match skipBlank rest with
    | ']' :: rest => return ([item], rest)
    | ',' :: rest => (readItems fuel rest).map fun r => (item :: r.1, r.2)
    | _ => none

/-- The fields of an object, up to its closing brace. -/
def readFields : (fuel : Nat) → List Char → Option (List (String × Json) × List Char)
  | 0, _ => none
  | fuel + 1, cs => do
    let '"' :: rest := skipBlank cs | none
    let (name, rest) ← readChars rest
    let ':' :: rest := skipBlank rest | none
    let (value, rest) ← readValue fuel rest
    let field := (String.ofList name, value)
    match skipBlank rest with
    | '\x7d' :: rest => return ([field], rest)
    | ',' :: rest => (readFields fuel rest).map fun r => (putField field r.1, r.2)
    | _ => none

end

/-- The value that a whole text writes. -/
def parse? (text : String) : Option Json :=
  let cs := text.toList
  match readValue (cs.length + 1) cs with
  | some (value, rest) => if (skipBlank rest).isEmpty then some value else none
  | none => none

/-! ## Writing -/

/-- A character inside a string. -/
def writeChar (c : Char) : String :=
  if c = '"' then "\\\""
  else if c = '\\' then "\\\\"
  else if c = '\n' then "\\n"
  else if c < ' ' then
    "\\u00" ++ String.ofList [Nat.digitChar (c.toNat / 16), Nat.digitChar (c.toNat % 16)]
  else c.toString

/-- A string with its quotes. -/
def writeString (s : String) : String :=
  "\"" ++ String.join (s.toList.map writeChar) ++ "\""

mutual

/-- A value as text, without blanks. -/
def render : Json → String
  | null => "null"
  | bool b => if b then "true" else "false"
  | int n => n.repr
  | decimal text => text
  | str s => writeString s
  | arr items => "[" ++ ",".intercalate (renderItems items) ++ "]"
  | obj fields => "\x7b" ++ ",".intercalate (renderFields fields) ++ "\x7d"

/-- The items of an array as texts. -/
def renderItems : List Json → List String
  | [] => []
  | j :: rest => render j :: renderItems rest

/-- The fields of an object as texts. -/
def renderFields : List (String × Json) → List String
  | [] => []
  | (name, j) :: rest => (writeString name ++ ":" ++ render j) :: renderFields rest

end

end ReachingDefs.Json
