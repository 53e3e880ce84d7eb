import ReachingDefs.Facts.Exposed

/-!
# The facts about a graph

For every block, what it exposes and a slot for the record of each of its
instructions. A slot is empty until its instruction has been visited. One block
may be current: it is the one whose exposed sets the single-step operations act
on.

The operations that can report something answer the new facts together with
their events.
-/

namespace ReachingDefs

structure BlockFacts where
  exposed : Exposed := {}
  slots : List (Option Record) := []
deriving DecidableEq

/-- The facts about all blocks of a graph. -/
structure Facts where
  tracking : Tracking
  blocks : Array BlockFacts
  current : Option BlockId := none
deriving DecidableEq

namespace Facts

/-- No facts yet about the blocks of `g`: nothing exposed, all slots empty. -/
def fresh (g : FlowGraph) (tracking : Tracking) : Facts where
  tracking
  blocks := g.blocks.map fun b => { slots := List.replicate b.instructions.length none }

def size (f : Facts) : Nat := f.blocks.size

/-- Are facts about memory kept? -/
def tracksMemory (f : Facts) : Bool := f.tracking.memory

def block (f : Facts) (b : BlockId) : BlockFacts := f.blocks.getD b {}

/-- What block `b` exposes. -/
def exposed? (f : Facts) (b : BlockId) : Option Exposed :=
  f.blocks[b]?.map (·.exposed)

/-- What block `b` exposes; nothing if there is no block `b`. -/
def exposed (f : Facts) (b : BlockId) : Exposed := (f.block b).exposed

/-- The record at a site, if the site has been visited. -/
def record? (f : Facts) (s : Site) : Option Record :=
  (f.block s.block).slots[s.index]?.join

/-- The records of block `b`, in order. -/
def recordsOf (f : Facts) (b : BlockId) : List Record :=
  (f.block b).slots.filterMap id

/-- All records, by block and position. -/
def records (f : Facts) : List Record :=
  f.blocks.toList.flatMap (·.slots.filterMap id)

/-- Changes what block `b` exposes. -/
def onExposed (f : Facts) (b : BlockId) (change : Exposed → Exposed) : Facts :=
  { f with blocks := f.blocks.modify b fun x => { x with exposed := change x.exposed } }

/-- Changes the record at a site, if the site has been visited. -/
def onRecord (f : Facts) (s : Site) (change : Record → Record) : Facts :=
  { f with blocks := f.blocks.modify s.block fun x =>
      { x with slots := x.slots.modify s.index (·.map change) } }

/-- The union of what several blocks expose, in their order. -/
def union (f : Facts) (bs : List BlockId) : Exposed :=
  bs.foldl (fun x b => x.merge (f.exposed b)) {}

/-! ## Single steps at the current block

Without a current block they change nothing. -/

/-- Changes what the current block exposes. -/
def onCurrent (f : Facts) (change : Exposed → Exposed) : Facts :=
  match f.current with
  | some b => f.onExposed b change
  | none => f

/-- The origins of `r` at the current block. -/
def currentOrigins? (f : Facts) (r : Register) : Option (List Site) :=
  (f.current.bind f.exposed?).bind (·.regs.get? r)

/-- Makes `o` the only origin of `r`. -/
def setReg (f : Facts) (r : Register) (o : Site) : Facts :=
  f.onCurrent (·.setReg r o)

def addReg (f : Facts) (r : Register) (o : Site) : Facts :=
  f.onCurrent (·.addReg r o)

/-- Makes `o` the only store to the location of `place`. -/
def setMem (f : Facts) (place : Value) (o : Site) : Facts × List Event :=
  (f.onCurrent (·.setMem place o), Exposed.storeEvents place o)

/-- Adds a store to the location of `place`. -/
def addMem (f : Facts) (place : Value) (o : Site) : Facts :=
  f.onCurrent (·.addMem place o)

/-- Drops the stores to locations relative to `r`. -/
def dropBase (f : Facts) (r : Register) : Facts × List Event :=
  match f.current with
  | some b => (f.onExposed b (·.dropBase r), (f.exposed b).dropEvents r)
  | none => (f, [])

/-- Notes the current origins of `r` in the record at `s`. -/
def linkReg (f : Facts) (s : Site) (r : Register) : Facts :=
  match f.current with
  | some b => f.onRecord s (·.linkReg (f.exposed b) r)
  | none => f

/-- Notes the current stores to the location of `place` in the record at `s`, as
origins of what is loaded into `r`. -/
def linkMem (f : Facts) (s : Site) (r : Register) (place : Value) : Facts × List Event :=
  match f.current with
  | some b => (f.onRecord s (·.linkMem (f.exposed b) place r), Exposed.loadEvents place s)
  | none => (f, [])

/-- What the current block exposes, as an event. -/
def currentEvent (f : Facts) : Event :=
  match f.current with
  | some b => .current b (f.exposed b).regs (f.exposed b).mems
  | none => .noCurrent

end Facts

end ReachingDefs
