import ReachingDefs.Flow.Graph

/-!
# Depth-first search

A search enters every block at most once, follows the edges out of it, and then
leaves it. The order in which blocks are left is what the ordering of components
is read from. The search takes its edges from a function, so that it runs along
the edges of a graph or against them.
-/

namespace ReachingDefs

/-- How far a search has come. -/
structure Trail where
  /-- The blocks the search may still enter. -/
  unseen : Array Bool
  /-- The blocks it has left, the last one first. -/
  finished : List BlockId

namespace Trail

/-- The search before its first step, over `n` blocks. -/
def start (n : Nat) : Trail := ⟨Array.replicate n true, []⟩

/-- May the search enter `b`? -/
def isOpen (t : Trail) (b : BlockId) : Bool :=
  t.unseen.getD b false

/-- Marks `b` as entered. -/
def enter (t : Trail) (b : BlockId) : Trail :=
  { t with unseen := t.unseen.setIfInBounds b false }

/-- Lists `b` as left. -/
def leave (t : Trail) (b : BlockId) : Trail :=
  { t with finished := b :: t.finished }

/-- Searches from `b` along the edges that `next` gives. The depth bounds the
length of the path from the first block to the current one; no path of distinct
blocks is longer than the number of blocks, so that number is deep enough. -/
def explore (next : BlockId → List BlockId) : (depth : Nat) → Trail → BlockId → Trail
  | 0, t, _ => t
  | depth + 1, t, b =>
    if t.isOpen b then
      ((next b).foldl (explore next depth) (t.enter b)).leave b
    else t

end Trail

end ReachingDefs
