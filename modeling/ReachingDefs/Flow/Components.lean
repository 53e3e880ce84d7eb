import ReachingDefs.Flow.Search

/-!
# Strongly connected components in topological order

Two blocks belong together when each can be reached from the other. The
components are listed so that every edge between two of them points forward.

The order comes from a depth-first search from each block in turn, in which the
edge added last is followed first. Components are listed by the moment at which
the search leaves the last of their blocks, the latest one first. An edge from one
component to another is followed before the first one is left for good, so the
second one was left earlier and is listed later.
-/

namespace ReachingDefs.FlowGraph

/-- The edges out of `b`, the one added last first. -/
def searchOrder (g : FlowGraph) (b : BlockId) : List BlockId :=
  (g.successors b).reverse

/-- All blocks, in the reverse of the order in which the search leaves them. -/
def reverseFinish (g : FlowGraph) : List BlockId :=
  ((List.range g.size).foldl (Trail.explore g.searchOrder g.size) (Trail.start g.size)).finished

/-- The component of `b`: the blocks that `b` reaches and that reach `b`, ascending. -/
def component (g : FlowGraph) (b : BlockId) : List BlockId :=
  let down := Trail.explore g.successors g.size (Trail.start g.size) b
  let up := Trail.explore g.predecessors g.size (Trail.start g.size) b
  (List.range g.size).filter fun c => !down.isOpen c && !up.isOpen c

/-- The components, in topological order. -/
def componentOrder (g : FlowGraph) : List (List BlockId) :=
  OrderedSet.ofList (g.reverseFinish.map g.component)

end ReachingDefs.FlowGraph
