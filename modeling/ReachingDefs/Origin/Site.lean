import ReachingDefs.Flow.Graph

/-!
# Sites

A site is the place of an instruction: its block and its position there. Facts
name the instruction that wrote a value by its site.
-/

namespace ReachingDefs

/-- The place of an instruction in a graph. -/
structure Site where
  block : BlockId
  index : Nat
deriving DecidableEq

/-- The site as text. -/
def Site.text (s : Site) : String :=
  s.block.repr ++ ":" ++ s.index.repr

end ReachingDefs
