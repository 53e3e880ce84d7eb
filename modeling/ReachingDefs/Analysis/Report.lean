import ReachingDefs.Analysis.Passes
import ReachingDefs.Flow.Components
import ReachingDefs.UseChain

/-!
# The analysis of a whole graph

The components of the graph are visited in topological order, starting from no
facts, so what a component exposes is settled before any later one is visited.
The facts are then turned around into chains from definitions to uses.
-/

namespace ReachingDefs

/-- The result of an analysis. -/
structure Report where
  /-- The components, in the order of their visits. -/
  order : List (List BlockId)
  facts : Facts
  chains : UseChains
  log : List Event

/-- Analyses a graph: its components in topological order, from no facts. -/
def FlowGraph.analyze (g : FlowGraph) (options : Options) : Except Fault Report :=
  let order := g.componentOrder
  let o := (Facts.fresh g options.tracking).analyze options.toSettings g order
  match o.fault with
  | some fault => .error fault
  | none => .ok {
      order
      facts := o.facts
      chains := .ofFacts o.facts
      log := .started g.size order.length options.level :: o.log }

end ReachingDefs
