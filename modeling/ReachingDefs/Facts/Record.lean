import ReachingDefs.Origin.Registers

/-!
# The record of an instruction

What the analysis has found out about one instruction: the registers it defines
and the origins of those it reads. With memory tracked, also the addresses it
stores to, under the stored register, and the origins of what it loads, under
the loaded register.
-/

namespace ReachingDefs

/-- Which facts an analysis keeps. -/
inductive Tracking where
  | registers
  | registersAndMemory
deriving DecidableEq

/-- Are facts about memory kept? -/
def Tracking.memory : Tracking → Bool
  | registers => false
  | registersAndMemory => true

/-- The memory side of a record. -/
structure MemRecord where
  /-- The address each register was stored to. -/
  defs : RegValues := .empty
  /-- The stores that may have written what was loaded into each register. -/
  refs : RegOrigins := .empty
deriving DecidableEq

/-- What is known about one instruction. -/
structure Record where
  site : Site
  address : UInt64
  /-- The value each register was set to. -/
  defs : RegValues := .empty
  /-- The sites that may have written each register that was read. -/
  refs : RegOrigins := .empty
  /-- The memory side; absent if memory is not tracked. -/
  mem : Option MemRecord
deriving DecidableEq

namespace Record

/-- The record of an instruction that has not been looked at. -/
def fresh (site : Site) (address : UInt64) (tracking : Tracking) : Record where
  site
  address
  mem := if tracking.memory then some {} else none

/-- Does the record have a memory side? -/
def tracksMemory (x : Record) : Bool := x.mem.isSome

/-- Notes the value that a register is set to. -/
def addDef (x : Record) (r : Register) (v : Value) : Record :=
  { x with defs := x.defs.insert r v }

/-- Notes one more origin of a register that is read. -/
def addRef (x : Record) (r : Register) (o : Site) : Record :=
  { x with refs := x.refs.addOrigin r o }

/-- Forgets the origins of a register that is read. -/
def eraseRef (x : Record) (r : Register) : Record :=
  { x with refs := x.refs.erase r }

/-- Changes the memory side, if there is one. -/
def onMem (x : Record) (f : MemRecord → MemRecord) : Record :=
  { x with mem := x.mem.map f }

/-- Notes the address that a register is stored to. -/
def addMemDef (x : Record) (r : Register) (place : Value) : Record :=
  x.onMem fun m => { m with defs := m.defs.insert r place }

/-- Notes one more store that may have written what is loaded into a register. -/
def addMemRef (x : Record) (r : Register) (o : Site) : Record :=
  x.onMem fun m => { m with refs := m.refs.addOrigin r o }

/-- Forgets the stores that may have written what is loaded into a register. -/
def eraseMemRef (x : Record) (r : Register) : Record :=
  x.onMem fun m => { m with refs := m.refs.erase r }

/-- The address that `r` is stored to. -/
def memDef? (x : Record) (r : Register) : Option Value :=
  x.mem.bind (·.defs.get? r)

/-- The stores that may have written what is loaded into `r`. -/
def memRef? (x : Record) (r : Register) : Option (List Site) :=
  x.mem.bind (·.refs.get? r)

/-- Does the record hold a store? -/
def stores (x : Record) : Bool :=
  x.mem.any (!·.defs.isEmpty)

/-- The memory side as text. -/
def memText : Option MemRecord → String
  | none => ""
  | some m => "\n  mem def: " ++ m.defs.valuesText ++ "\n  mem ref: " ++ m.refs.originsText

/-- The record as text. -/
def text (x : Record) : String :=
  "state " ++ x.site.text ++ " @ " ++ Value.hexText x.address ++
    "\n  reg def: " ++ x.defs.valuesText ++
    "\n  reg ref: " ++ x.refs.originsText ++ memText x.mem

end Record

end ReachingDefs
