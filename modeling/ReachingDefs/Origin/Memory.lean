import ReachingDefs.Origin.Site
import ReachingDefs.Value.Location

/-!
# Origins of memory cells

The stores whose value may still be in memory, each with the address it wrote
to. Addresses are compared by location, so two trees for one cell share their
origins, and an address without a location shares them with nothing.
-/

namespace ReachingDefs

/-- A store that may have written a cell. -/
structure StoreOrigin where
  place : Value
  origin : Site
deriving DecidableEq

/-- The stores that may have written to memory, in order of discovery. -/
structure MemOrigins where
  stores : List StoreOrigin := []
deriving DecidableEq

namespace MemOrigins

/-- No stores. -/
def empty : MemOrigins := {}

/-- The number of stores. -/
def size (m : MemOrigins) : Nat := m.stores.length

/-- Are there no stores? -/
def isEmpty (m : MemOrigins) : Bool := m.stores.isEmpty

/-- The sites that may have written the cell at `place`. -/
def origins (m : MemOrigins) (place : Value) : List Site :=
  (m.stores.filter (·.place.sameLocation place)).map (·.origin)

/-- Is the store of `origin` to `place` listed, under this tree or another one for
the same location? -/
def holds (m : MemOrigins) (place : Value) (origin : Site) : Bool :=
  m.stores.any fun s => s.origin = origin && (s.place = place || s.place.sameLocation place)

/-- Adds a store, unless it is listed already. -/
def add (m : MemOrigins) (place : Value) (origin : Site) : MemOrigins :=
  if m.holds place origin then m else ⟨m.stores ++ [⟨place, origin⟩]⟩

/-- Is some store to the location of `place` listed? -/
def covers (m : MemOrigins) (place : Value) : Bool :=
  m.stores.any (·.place.sameLocation place)

/-- Adds a store, but only if there is one to its location already. -/
def addIfCovered (m : MemOrigins) (place : Value) (origin : Site) : MemOrigins :=
  if m.covers place then m.add place origin else m

/-- Removes the stores to the location of `place`. -/
def erase (m : MemOrigins) (place : Value) : MemOrigins :=
  ⟨m.stores.filter (!·.place.sameLocation place)⟩

/-- Makes `origin` the only store to the location of `place`. -/
def set (m : MemOrigins) (place : Value) (origin : Site) : MemOrigins :=
  (m.erase place).add place origin

/-- Adds all stores of another list. -/
def merge (m n : MemOrigins) : MemOrigins :=
  n.stores.foldl (fun m s => m.add s.place s.origin) m

/-- Removes the stores to locations relative to `r`: once `r` has a new value,
those addresses name other cells. -/
def eraseBase (m : MemOrigins) (r : Register) : MemOrigins :=
  ⟨m.stores.filter (·.place.baseRegister? ≠ some r)⟩

/-- How many stores are to locations relative to `r`. -/
def countBase (m : MemOrigins) (r : Register) : Nat :=
  m.size - (m.eraseBase r).size

/-- The stores as text. -/
def text (m : MemOrigins) : String :=
  String.join (m.stores.map fun s => "[" ++ s.place.text ++ "] " ++ s.origin.text ++ " ")

end MemOrigins

end ReachingDefs
