import ReachingDefs.Origin.Memory
import ReachingDefs.Origin.Registers

/-!
# Log events

What the analysis has to say while it works. An event is data; its severity,
message and fields are computed from it.
-/

namespace ReachingDefs

/-- How much attention an event asks for. -/
inductive Severity where
  | trace | debug | warn
deriving DecidableEq

/-- The severity as text. -/
def Severity.name : Severity → String
  | trace => "trace" | debug => "debug" | warn => "warn"

/-- Something the analysis reports while it works. -/
inductive Event where
  /-- An analysis of a whole graph begins. -/
  | started (blocks groups level : Nat)
  /-- A pass over a cyclic group changed nothing. -/
  | converged (group : List BlockId) (pass : Nat)
  /-- The last pass allowed over a cyclic group still changed something. -/
  | boundHit (group : List BlockId) (passes : Nat)
  /-- An instruction whose opcode is not enabled, or has no meaning. -/
  | skipped (site : Site) (opcode : Opcode)
  /-- Operands that do not fit their opcode. -/
  | misshapen (site : Site) (opcode : Opcode) (shape : OperandShape)
  /-- A store to an address without a location. -/
  | storeUntracked (place : Value) (origin : Site)
  /-- A load from an address without a location. -/
  | loadUnresolved (place : Value) (site : Site)
  /-- A definition of a register that stores were relative to. -/
  | baseRedefined (r : Register) (killed : Nat)
  /-- A look at the current block when there is none. -/
  | noCurrent
  /-- A look at what the current block exposes. -/
  | current (block : BlockId) (regs : RegOrigins) (mems : MemOrigins)
deriving DecidableEq

namespace Event

/-- A group of blocks as log lines write it. -/
def groupText (group : List BlockId) : String :=
  "[" ++ ", ".intercalate (group.map fun b => "NodeId(" ++ b.repr ++ ")") ++ "]"

/-- The severity of an event: only an iteration cut short is a warning. -/
def severity : Event → Severity
  | started .. | converged .. | noCurrent | current .. => .debug
  | boundHit .. => .warn
  | skipped .. | misshapen .. | storeUntracked .. | loadUnresolved .. | baseRedefined .. => .trace

/-- The event in words. -/
def message : Event → String
  | started .. => "running use-def analysis"
  | converged .. => "cyclic group converged"
  | boundHit .. => "cyclic group still changing at the iteration bound"
  | skipped .. => "instruction skipped"
  | misshapen .. => "unexpected operand shape"
  | storeUntracked .. => "store to unresolved location not tracked"
  | loadUnresolved .. => "load from unresolved location"
  | baseRedefined .. => "base register redefined"
  | noCurrent => "no current node"
  | current .. => "working set"

/-- The event's fields, each with its name. -/
def fields : Event → List (String × String)
  | started blocks groups level =>
    [("nodes", blocks.repr), ("groups", groups.repr), ("level", level.repr)]
  | converged group pass => [("order", groupText group), ("pass", pass.repr)]
  | boundHit group passes => [("order", groupText group), ("max_passes", passes.repr)]
  | skipped site opcode => [("state", site.text), ("opcode", opcode.name)]
  | misshapen site opcode shape =>
    [("state", site.text), ("opcode", opcode.name), ("mode", shape.name)]
  | storeUntracked place origin => [("place", place.text), ("origin", origin.text)]
  | loadUnresolved place site => [("place", place.text), ("state", site.text)]
  | baseRedefined r killed => [("reg", r.name), ("killed", killed.repr)]
  | noCurrent => []
  | current block regs mems =>
    [("node", BlockId.name block), ("regs", regs.originsText), ("mems", mems.text)]

end Event

end ReachingDefs
