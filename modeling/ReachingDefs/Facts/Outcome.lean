import ReachingDefs.Facts.Basic

/-!
# Requests that can be refused

Work on the facts comes to an outcome: the facts as they then are, the fault that
stopped the work if one did, and what was reported on the way. A fault undoes
nothing. What was done before it stays done, so a request that is to be refused
without a trace has to make all its checks before its first change.
-/

namespace ReachingDefs

/-- What became of the facts, whether a fault stopped the work, and what was
reported on the way. -/
structure Outcome where
  facts : Facts
  fault : Option Fault := none
  log : List Event := []

/-- Goes on from an outcome, unless a fault stopped the work. -/
def Outcome.andThen (o : Outcome) (next : Facts → Outcome) : Outcome :=
  match o.fault with
  | some _ => o
  | none =>
    let n := next o.facts
    { n with log := o.log ++ n.log }

namespace Outcome

theorem andThen_eq {o : Outcome} (h : o.fault = none) (next : Facts → Outcome) :
    o.andThen next = { next o.facts with log := o.log ++ (next o.facts).log } := by
  unfold andThen
  rw [h]

theorem andThen_eq_self {o : Outcome} {fault : Fault} (h : o.fault = some fault)
    (next : Facts → Outcome) : o.andThen next = o := by
  unfold andThen
  rw [h]

theorem andThen_preserves {P : Facts → Prop} {o : Outcome} {next : Facts → Outcome}
    (ho : P o.facts) (hnext : ∀ f, P f → P (next f).facts) : P (o.andThen next).facts := by
  unfold andThen
  split
  · exact ho
  · exact hnext _ ho

end Outcome

namespace Facts

/-- Stops the work if there is no block `b`. -/
def check (f : Facts) (b : BlockId) : Outcome :=
  { facts := f, fault := if b < f.size then none else some (.nodeOutOfRange b f.size) }

/-- Stops the work at the first id that names no block. -/
def checkAll : List BlockId → Facts → Outcome
  | [], f => { facts := f }
  | b :: rest, f => (f.check b).andThen (checkAll rest)

/-- Resets what `b` exposes to the union of what its predecessors expose, first the
registers and then the memory. -/
def join (f : Facts) (b : BlockId) (predecessors : List BlockId) : Outcome :=
  (f.check b).andThen fun f => (f.checkAll predecessors).andThen fun f =>
    let x := f.union predecessors
    let f := f.onExposed b ({ · with regs := x.regs })
    { facts := f.onExposed b ({ · with mems := x.mems }) }

/-- Makes `b` the current block. -/
def enter (f : Facts) (b : BlockId) : Outcome :=
  (f.check b).andThen fun f => { facts := { f with current := some b } }

/-- Puts a record with nothing noted into the slot at `o` if the slot is empty. -/
def ensureRecord (f : Facts) (o : Site) (address : UInt64) : Outcome :=
  if o.index < (f.block o.block).slots.length then
    let fill (slot : Option Record) : Option Record :=
      some (slot.getD (.fresh o address f.tracking))
    { facts := { f with blocks := f.blocks.modify o.block fun x =>
        { x with slots := x.slots.modify o.index fill } } }
  else { facts := f, fault := some (.nodeOutOfRange o.block f.size) }

/-! ## What becomes of a request -/

theorem checkAll_eq (bs : List BlockId) (f : Facts) :
    f.checkAll bs =
      { facts := f, fault := (bs.find? (f.size ≤ ·)).map (.nodeOutOfRange · f.size) } := by
  induction bs with
  | nil => rfl
  | cons b bs ih =>
      unfold checkAll check Outcome.andThen
      by_cases hb : b < f.size
      · simp [hb, ih]
      · simp [hb, Nat.le_of_not_lt hb]

theorem onExposed_onExposed (f : Facts) (b : BlockId) (change change' : Exposed → Exposed) :
    (f.onExposed b change).onExposed b change' = f.onExposed b (change' ∘ change) := by
  have hblocks : ((f.onExposed b change).onExposed b change').blocks =
      (f.onExposed b (change' ∘ change)).blocks := by
    refine Array.ext_getElem? fun d => ?_
    unfold onExposed
    simp only [Array.getElem?_modify]
    split
    · rw [Option.map_map]
      rfl
    · rfl
  exact congrArg (fun blocks => { f with blocks }) hblocks

/-- **A join is made in one piece or not at all.** -/
theorem join_eq (f : Facts) (b : BlockId) (ps : List BlockId) :
    f.join b ps =
      match (b :: ps).find? (f.size ≤ ·) with
      | some id => { facts := f, fault := some (.nodeOutOfRange id f.size) }
      | none => { facts := f.onExposed b fun _ => f.union ps } := by
  unfold join check
  rw [List.find?_cons]
  by_cases hb : b < f.size
  · rw [if_pos hb, Outcome.andThen_eq rfl, checkAll_eq, decide_eq_false (Nat.not_le.mpr hb)]
    dsimp only
    cases ps.find? (f.size ≤ ·) with
    | some id => rfl
    | none =>
        dsimp only [Option.map_none, Outcome.andThen]
        rw [onExposed_onExposed]
        rfl
  · rw [if_neg hb, Outcome.andThen_eq_self rfl, decide_eq_true (Nat.le_of_not_lt hb)]

theorem enter_eq (f : Facts) (b : BlockId) :
    f.enter b =
      if b < f.size then { facts := { f with current := some b } }
      else { facts := f, fault := some (.nodeOutOfRange b f.size) } := by
  unfold enter check
  by_cases hb : b < f.size
  · rw [if_pos hb, if_pos hb, Outcome.andThen_eq rfl]
    rfl
  · rw [if_neg hb, if_neg hb, Outcome.andThen_eq_self rfl]

end Facts

end ReachingDefs
