import ReachingDefs.Fault
import ReachingDefs.Machine.Instruction
import ReachingDefs.OrderedSet

/-!
# Control-flow graphs

Basic blocks, named by their position, and edges between them. Both ends of an
edge know it: `v` is a successor of `u` exactly when `u` is a predecessor of `v`.
Neighbours are listed in the order in which their edges were first added.
-/

namespace ReachingDefs

/-- A block of a graph, named by its position. -/
abbrev BlockId := Nat

/-- The block's name in answers and log lines. -/
def BlockId.name (b : BlockId) : String :=
  "node" ++ b.repr

/-- A basic block: its name, instructions that run in order, and its neighbours. -/
structure Block where
  id : BlockId
  instructions : List Instruction
  predecessors : List BlockId := []
  successors : List BlockId := []
deriving DecidableEq

/-- A control-flow graph. -/
structure FlowGraph where
  blocks : Array Block := #[]
deriving DecidableEq

namespace FlowGraph

/-- The graph without blocks. -/
def empty : FlowGraph := {}

def size (g : FlowGraph) : Nat := g.blocks.size

/-- The block named `b`. -/
def get? (g : FlowGraph) (b : BlockId) : Option Block := g.blocks[b]?

/-- Refuses an id that names no block. -/
def check (g : FlowGraph) (b : BlockId) : Except Fault Unit :=
  Fault.unlessOutOfRange g.size [b] ()

/-- The blocks that `b` has edges to; none if there is no block `b`. -/
def successors (g : FlowGraph) (b : BlockId) : List BlockId :=
  ((g.get? b).map (·.successors)).getD []

/-- The blocks that have edges to `b`; none if there is no block `b`. -/
def predecessors (g : FlowGraph) (b : BlockId) : List BlockId :=
  ((g.get? b).map (·.predecessors)).getD []

/-- Does `b` have an edge to itself? -/
def isSelfLoop (g : FlowGraph) (b : BlockId) : Bool :=
  (g.successors b).contains b

/-- The graph with one more block, without edges. The block's id is the number of
blocks before it. -/
def addBlock (g : FlowGraph) (instructions : List Instruction) : FlowGraph :=
  { blocks := g.blocks.push { id := g.size, instructions } }

/-- Lists `v` as a successor of `u`, once. -/
def addSuccessor (g : FlowGraph) (u v : BlockId) : FlowGraph :=
  { blocks := g.blocks.modify u fun b =>
      { b with successors := OrderedSet.insert b.successors v } }

/-- Lists `u` as a predecessor of `v`, once. -/
def addPredecessor (g : FlowGraph) (u v : BlockId) : FlowGraph :=
  { blocks := g.blocks.modify v fun b =>
      { b with predecessors := OrderedSet.insert b.predecessors u } }

/-- Records an edge at both ends; an edge that is there already stays one edge. -/
def link (g : FlowGraph) (u v : BlockId) : FlowGraph :=
  (g.addSuccessor u v).addPredecessor u v

/-- Adds an edge from `u` to `v`, if both are blocks; of two bad ends the first is
reported. -/
def addEdge (g : FlowGraph) (u v : BlockId) : Except Fault FlowGraph :=
  Fault.unlessOutOfRange g.size [u, v] (g.link u v)

/-- Adds an edge to a graph in place: checks both ends, and then records the edge at one end
after the other. A fault leaves the graph as it then is. -/
def insertEdge (u v : BlockId) : ExceptT Fault (StateM FlowGraph) Unit := do
  (← get).check u
  (← get).check v
  modify (·.addSuccessor u v)
  modify (·.addPredecessor u v)

/-- The graph of the given blocks and edges, or the fault of the first bad edge. -/
def build (blocks : List (List Instruction)) (edges : List (BlockId × BlockId)) :
    Except Fault FlowGraph :=
  edges.foldlM (fun g e => g.addEdge e.1 e.2) (blocks.foldl addBlock empty)

end FlowGraph

end ReachingDefs
