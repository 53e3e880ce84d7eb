import ReachingDefs.Analysis.Settings
import ReachingDefs.Format.Instruction

/-!
# Options as JSON

Every option may be left out, and then has its default; an option that is null is
refused.
-/

namespace ReachingDefs

namespace Tracking

def all : List Tracking := [registers, registersAndMemory]

def name : Tracking → String
  | registers => "reg" | registersAndMemory => "reg_mem"

def toJson (t : Tracking) : Json := .str t.name

def ofJson? (j : Json) : Option Tracking := j.constant? name all

end Tracking

namespace Options

def toJson (o : Options) : Json :=
  .obj [("level", .nat o.level), ("state_kind", o.tracking.toJson),
    ("enabled", .arr (o.enabled.map Opcode.toJson))]

/-- Reads options. The level is a number of 64 bits. -/
def ofJson? (j : Json) : Option Options :=
  match j.leadingMembers? ["level", "state_kind", "enabled"] with
  | some [level, tracking, enabled] => do
    let standard : Options := {}
    return {
      level := ← Json.default? Json.nat64? standard.level level
      tracking := ← Json.default? Tracking.ofJson? standard.tracking tracking
      enabled := ← Json.default? (Json.list? Opcode.ofJson?) standard.enabled enabled }
  | _ => none

end Options

end ReachingDefs
