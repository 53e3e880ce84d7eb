import ReachingDefs.Analysis.Settings
import ReachingDefs.Effect.Operation
import ReachingDefs.Facts.Basic

/-!
# A visit, as the instructions see it

Visiting an instruction takes what is exposed in front of it, and its record, to
what is exposed behind it and a richer record. It looks at nothing else, so a
visit of a block is a walk along its instructions.

The analysis runs handlers on all of the facts. That it comes to this walk, and
touches nothing besides, is `Facts.visitInstructions_eq`.
-/

namespace ReachingDefs

/-- An instruction being visited: what is exposed at it, and its record. -/
structure Point where
  exposed : Exposed
  record : Record
deriving DecidableEq

namespace Point

/-- Carries out one effect. The zero register is never read and never set; effects
on memory count only if memory is tracked. -/
def apply (tracking : Tracking) (p : Point) : Effect → Point
  | .use r =>
    if r.isZero then p else { p with record := p.record.linkReg p.exposed r }
  | .load place dst =>
    if tracking.memory then { p with record := p.record.linkMem p.exposed place dst } else p
  | .define r v =>
    if r.isZero then p
    else
      let x := p.exposed.setReg r p.record.site
      ⟨if tracking.memory then x.dropBase r else x, p.record.addDef r v⟩
  | .store place src =>
    if tracking.memory then
      ⟨p.exposed.setMem place p.record.site, p.record.addMemDef src place⟩
    else p

/-- What is reported when an effect is carried out. -/
def events (tracking : Tracking) (p : Point) : Effect → List Event
  | .use _ => []
  | .load place _ => if tracking.memory then Exposed.loadEvents place p.record.site else []
  | .define r _ => if !r.isZero && tracking.memory then p.exposed.dropEvents r else []
  | .store place _ => if tracking.memory then Exposed.storeEvents place p.record.site else []

/-- Carries out effects in order. -/
def applyAll (tracking : Tracking) (p : Point) (effects : List Effect) : Point :=
  effects.foldl (apply tracking) p

/-- What is reported when effects are carried out in order. -/
def allEvents (tracking : Tracking) : Point → List Effect → List Event
  | _, [] => []
  | p, e :: rest => p.events tracking e ++ allEvents tracking (p.apply tracking e) rest

end Point

/-- Does the analysis act on this operation? Its opcode has to be enabled and to
have a meaning. -/
def Settings.actsOn (s : Settings) (o : Operation) : Bool :=
  s.isEnabled o.opcode && o.opcode.isKnown

/-- The effects of an instruction whose record holds `address`: none if it was not
decoded, is not acted on, or has operands that do not fit. A call returns four
bytes further on. -/
def Settings.effects (s : Settings) (i : Instruction) (address : UInt64) : List Effect :=
  match i.operation with
  | none => []
  | some o => if s.actsOn o then (o.effects (address + 4)).getD [] else []

/-- What is reported about an instruction as a whole. -/
def Settings.events (s : Settings) (i : Instruction) (p : Point) : List Event :=
  match i.operation with
  | none => []
  | some o =>
    if s.actsOn o then
      if (o.effects (p.record.address + 4)).isSome then []
      else [.misshapen p.record.site o.opcode o.shape]
    else [.skipped p.record.site o.opcode]

/-- Visits an instruction. -/
def Point.visit (s : Settings) (tracking : Tracking) (i : Instruction) (p : Point) : Point :=
  p.applyAll tracking (s.effects i p.record.address)

/-- What is reported when an instruction is visited. -/
def Point.visitEvents (s : Settings) (tracking : Tracking) (i : Instruction) (p : Point) :
    List Event :=
  s.events i p ++ p.allEvents tracking (s.effects i p.record.address)

/-- A visited run of instructions. -/
structure Visited where
  facts : BlockFacts
  /-- Was there a slot for every instruction? -/
  complete : Bool
  log : List Event

/-- Visits the instructions of block `b` from position `index` on, each with its
slot; an empty slot gets a record first. The visit ends early where the slots do. -/
def visitFrom (s : Settings) (tracking : Tracking) (b : BlockId) :
    (index : Nat) → List Instruction → BlockFacts → Visited
  | _, [], f => ⟨f, true, []⟩
  | _, _ :: _, ⟨x, []⟩ => ⟨⟨x, []⟩, false, []⟩
  | index, i :: rest, ⟨x, slot :: slots⟩ =>
    let p : Point := ⟨x, slot.getD (.fresh ⟨b, index⟩ i.address tracking)⟩
    let q := p.visit s tracking i
    let v := visitFrom s tracking b (index + 1) rest ⟨q.exposed, slots⟩
    ⟨{ v.facts with slots := some q.record :: v.facts.slots }, v.complete,
      p.visitEvents s tracking i ++ v.log⟩

end ReachingDefs
