import ReachingDefs.Facts.Event
import ReachingDefs.Facts.Record

/-!
# What a block exposes

The origins that hold at a point of a block. While a block is visited they move
past one instruction after another; afterwards they are what the block passes on
to its successors.
-/

namespace ReachingDefs

/-- The origins of registers and memory cells at one point. -/
structure Exposed where
  regs : RegOrigins := .empty
  mems : MemOrigins := .empty
deriving DecidableEq

namespace Exposed

/-- Makes `o` the only origin of `r`. -/
def setReg (x : Exposed) (r : Register) (o : Site) : Exposed :=
  { x with regs := x.regs.setOrigin r o }

def addReg (x : Exposed) (r : Register) (o : Site) : Exposed :=
  { x with regs := x.regs.addOrigin r o }

/-- Makes `o` the only store to the location of `place`. An address without a
location is not entered. -/
def setMem (x : Exposed) (place : Value) (o : Site) : Exposed :=
  if place.location?.isSome then { x with mems := x.mems.set place o } else x

/-- Adds a store to the location of `place`. An address without a location is not
entered. -/
def addMem (x : Exposed) (place : Value) (o : Site) : Exposed :=
  if place.location?.isSome then { x with mems := x.mems.add place o } else x

/-- Drops the stores to locations relative to `r`. -/
def dropBase (x : Exposed) (r : Register) : Exposed :=
  { x with mems := x.mems.eraseBase r }

/-- Both sets joined to those of another point. -/
def merge (x y : Exposed) : Exposed :=
  ⟨x.regs.mergeOrigins y.regs, x.mems.merge y.mems⟩

/-- What is reported about a store to `place`. -/
def storeEvents (place : Value) (o : Site) : List Event :=
  if place.location?.isSome then [] else [.storeUntracked place o]

/-- What is reported about a load from `place`. -/
def loadEvents (place : Value) (site : Site) : List Event :=
  if place.location?.isSome then [] else [.loadUnresolved place site]

/-- What is reported when `r` gets a new value. -/
def dropEvents (x : Exposed) (r : Register) : List Event :=
  let killed := x.mems.countBase r
  if killed = 0 then [] else [.baseRedefined r killed]

end Exposed

namespace Record

/-- Notes the origins that `r` has at `x` as origins of a register that is read. -/
def linkReg (i : Record) (x : Exposed) (r : Register) : Record :=
  (x.regs.origins r).foldl (·.addRef r) i

/-- Notes the stores to the location of `place` at `x` as origins of what is
loaded into `r`. -/
def linkMem (i : Record) (x : Exposed) (place : Value) (r : Register) : Record :=
  (x.mems.origins place).foldl (·.addMemRef r) i

end Record

end ReachingDefs
