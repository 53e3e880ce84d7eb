import ReachingDefs.Analysis.Handler

/-!
# Passes over groups of blocks

Blocks are visited in groups. A group that control can go around is visited again
and again until a pass changes nothing that its blocks expose, or the number of
passes allowed is used up; any other group is visited once.

An analysis that is stopped by a fault keeps what it found before.
-/

namespace ReachingDefs

namespace Facts

/-- Visits the instructions of block `b` from position `index` on, each with its record.
The visit ends early where the slots do. -/
def visitInstructions (s : Settings) (b : BlockId) :
    (index : Nat) → List Instruction → Facts → Outcome
  | _, [], f => { facts := f }
  | index, i :: rest, f =>
    ((f.ensureRecord ⟨b, index⟩ i.address).andThen fun f => f.carryOut s ⟨b, index⟩ i).andThen
      (visitInstructions s b (index + 1) rest)

/-- Visits block `b` of `g`: resets what it exposes to the union of its predecessors, makes
it current, and visits its instructions. -/
def visitBlock (s : Settings) (g : FlowGraph) (b : BlockId) (f : Facts) : Outcome :=
  match g.get? b with
  | none => { facts := f, fault := some (.nodeOutOfRange b g.size) }
  | some block =>
    ((f.join b block.predecessors).andThen fun f => f.enter b).andThen
      (visitInstructions s b 0 block.instructions)

/-- Visits several blocks, one after another. -/
def sweep (s : Settings) (g : FlowGraph) : List BlockId → Facts → Outcome
  | [], f => { facts := f }
  | b :: rest, f => (f.visitBlock s g b).andThen (sweep s g rest)

/-- What the blocks of a group expose. -/
def snapshot (f : Facts) (group : List BlockId) : List Exposed :=
  group.map f.exposed

/-- Passes over a group until one changes nothing that it exposes, with `left` of
the allowed passes still to go. -/
def iterate (s : Settings) (g : FlowGraph) (group : List BlockId) : (left : Nat) → Facts → Outcome
  | 0, f => { facts := f, log := [.boundHit group s.maxPasses] }
  | left + 1, f =>
    (f.sweep s g group).andThen fun f' =>
      if f'.snapshot group = f.snapshot group then
        { facts := f', log := [.converged group (s.maxPasses - left)] }
      else iterate s g group left f'

end Facts

/-- Can control go around in this group? Several blocks are taken for a cycle. -/
def FlowGraph.isCyclic (g : FlowGraph) : List BlockId → Bool
  | [] => false
  | [b] => g.isSelfLoop b
  | _ => true

namespace Facts

/-- Visits a group, as often as it needs. -/
def analyzeGroup (s : Settings) (g : FlowGraph) (group : List BlockId) (f : Facts) : Outcome :=
  if g.isCyclic group then f.iterate s g group s.maxPasses else f.sweep s g group

/-- Visits groups, one after another. -/
def analyzeGroups (s : Settings) (g : FlowGraph) : List (List BlockId) → Facts → Outcome
  | [], f => { facts := f }
  | group :: rest, f => (f.analyzeGroup s g group).andThen (analyzeGroups s g rest)

/-- Refuses facts of another size, and then groups with an id that names no block. -/
def accept (f : Facts) (g : FlowGraph) (order : List (List BlockId)) : Except Fault Unit :=
  if g.size = f.size then Fault.unlessOutOfRange g.size order.flatten ()
  else .error (.sizeMismatch g.size f.size)

/-- Brings the facts up to date with `g`, group by group. A refused request leaves
them as they were. -/
def analyze (s : Settings) (g : FlowGraph) (order : List (List BlockId)) (f : Facts) : Outcome :=
  match f.accept g order with
  | .error fault => { facts := f, fault := some fault }
  | .ok () => f.analyzeGroups s g order

end Facts

end ReachingDefs
