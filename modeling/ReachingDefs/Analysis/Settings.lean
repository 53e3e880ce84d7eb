import ReachingDefs.Facts.Record
import ReachingDefs.Machine.Opcode

/-!
# Settings of an analysis

The level bounds the work on cycles: a cyclic group gets one pass and at most
`level` more. Opcodes can be switched off; their instructions are then visited
without effect.
-/

namespace ReachingDefs

/-- How the facts are computed. -/
structure Settings where
  /-- How many passes over a cyclic group may follow the first one. -/
  level : Nat := 16
  /-- The opcodes whose effects are applied; an empty list stands for all. -/
  enabled : List Opcode := []
deriving DecidableEq

namespace Settings

/-- Are the effects of this opcode applied? -/
def isEnabled (s : Settings) (op : Opcode) : Bool :=
  s.enabled.isEmpty || s.enabled.contains op

/-- How many passes over a cyclic group are allowed; there is no highest number. -/
def maxPasses (s : Settings) : Nat := s.level + 1

end Settings

/-- The options of a whole analysis: the settings, and which facts to keep. -/
structure Options extends Settings where
  tracking : Tracking := .registersAndMemory
deriving DecidableEq

end ReachingDefs
