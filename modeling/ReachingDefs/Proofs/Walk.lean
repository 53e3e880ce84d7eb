import ReachingDefs.Proofs.Handler

/-!
# The loop over the instructions of a block

The instructions of a block are visited in a loop that works on all of the facts. It makes sure
that there is a record, and looks for a handler; the handler changes that record, and what the
current block exposes. `Facts.visitInstructions_eq` says that this is a walk along the block
(`visitFrom`), each step of which sees no more than what is exposed at its instruction and the
record of it, and that nothing else is touched.

Three things make it so: the block that is visited is the current one, there is such a block, and
every record stands in the slot of its own site.
-/

namespace ReachingDefs

/-! ## Records stay in their slots -/

/-- Every record of block `b` stands in its slot, the first slot being that of position
`index`. -/
def BlockFacts.PlacedFrom (b : BlockId) (index : Nat) (x : BlockFacts) : Prop :=
  ∀ (j : Nat) (y : Record), x.slots[j]? = some (some y) → y.site = ⟨b, index + j⟩

section PlacedFrom

variable {b : BlockId} {index : Nat} {x : Exposed} {slot : Option Record}
  {slots : List (Option Record)}

/-- A fresh record that is put into an empty slot is placed as well. -/
theorem BlockFacts.PlacedFrom.site_getD (h : PlacedFrom b index ⟨x, slot :: slots⟩)
    (address : UInt64) (tracking : Tracking) :
    (slot.getD (.fresh ⟨b, index⟩ address tracking)).site = ⟨b, index⟩ := by
  cases slot with
  | none => rfl
  | some y => exact h 0 y rfl

theorem BlockFacts.PlacedFrom.tail (h : PlacedFrom b index ⟨x, slot :: slots⟩) (y : Exposed) :
    PlacedFrom b (index + 1) ⟨y, slots⟩ := by
  intro j z hz
  rw [h (j + 1) z hz, Nat.add_right_comm, Nat.add_assoc]

end PlacedFrom

namespace Facts

variable {s : Settings} {f : Facts} {b : BlockId}

/-- Every block has the property. -/
def Each (P : BlockId → BlockFacts → Prop) (f : Facts) : Prop :=
  ∀ (b : BlockId) x, f.blocks[b]? = some x → P b x

theorem Each.modify {P : BlockId → BlockFacts → Prop} (hf : f.Each P) (b : BlockId)
    {change : BlockFacts → BlockFacts} (hchange : ∀ x, P b x → P b (change x)) :
    Each P { f with blocks := f.blocks.modify b change } := by
  intro d x hx
  rw [Array.getElem?_modify] at hx
  split at hx
  · rename_i hd
    subst hd
    obtain ⟨y, hy, rfl⟩ := Option.map_eq_some_iff.mp hx
    exact hchange y (hf b y hy)
  · exact hf d x hx

/-- Every record stands in the slot of its own site. -/
def Placed (f : Facts) : Prop := ∀ o x, f.record? o = some x → x.site = o

theorem Placed.site_eq (hf : f.Placed) {b j : Nat} {y : BlockFacts} {x : Record}
    (hy : f.blocks[b]? = some y) (hx : y.slots[j]? = some (some x)) : x.site = ⟨b, j⟩ := by
  refine hf ⟨b, j⟩ x ?_
  unfold record? block
  rw [Array.getD_eq_getD_getElem?, hy, Option.getD_some, hx]
  rfl

theorem placed_iff : f.Placed ↔ f.Each fun b x => x.PlacedFrom b 0 := by
  constructor
  · intro hf b x hx j y hy
    rw [Nat.zero_add]
    exact hf.site_eq hx hy
  · rintro h ⟨b, j⟩ y hy
    unfold record? block at hy
    rw [Array.getD_eq_getD_getElem?] at hy
    cases hx : f.blocks[b]? with
    | none => simp [hx] at hy
    | some x =>
        rw [hx, Option.getD_some, Option.join_eq_some_iff] at hy
        simpa using h b x hx j y hy

theorem Placed.placedFrom (hf : f.Placed) (b : BlockId) : (f.block b).PlacedFrom b 0 := by
  intro j y hy
  rw [Nat.zero_add]
  refine hf ⟨b, j⟩ y ?_
  unfold record?
  rw [hy]
  rfl

theorem Placed.modify (hf : f.Placed) (b : BlockId) {change : BlockFacts → BlockFacts}
    (hchange : ∀ x, x.PlacedFrom b 0 → (change x).PlacedFrom b 0) :
    Placed { f with blocks := f.blocks.modify b change } :=
  placed_iff.mpr ((placed_iff.mp hf).modify b hchange)

theorem Placed.onExposed (hf : f.Placed) (b : BlockId) (change : Exposed → Exposed) :
    (f.onExposed b change).Placed :=
  hf.modify b fun _ hx => hx

theorem Placed.onCurrent (hf : f.Placed) (change : Exposed → Exposed) :
    (f.onCurrent change).Placed := by
  unfold Facts.onCurrent
  split
  · exact hf.onExposed _ change
  · exact hf

theorem Placed.onRecord (hf : f.Placed) (o : Site) {change : Record → Record}
    (hchange : ∀ x, (change x).head = x.head) : (f.onRecord o change).Placed := by
  refine hf.modify o.block fun x hx j y hy => ?_
  rw [List.getElem?_modify] at hy
  obtain ⟨slot, hslot, hy⟩ := Option.map_eq_some_iff.mp hy
  split at hy
  · obtain ⟨z, rfl, rfl⟩ := Option.map_eq_some_iff.mp hy
    exact (congrArg (·.1) (hchange z)).trans (hx j z hslot)
  · exact hx j y (hslot.trans (congrArg some hy))

theorem Placed.dropBase (hf : f.Placed) (r : Register) : (f.dropBase r).1.Placed := by
  unfold Facts.dropBase
  split
  · exact hf.onExposed _ _
  · exact hf

theorem Placed.ensureRecord (hf : f.Placed) (o : Site) (address : UInt64) :
    (f.ensureRecord o address).facts.Placed := by
  unfold Facts.ensureRecord
  split
  · refine hf.modify o.block fun x hx j y hy => ?_
    rw [List.getElem?_modify] at hy
    obtain ⟨slot, hslot, hmade⟩ := Option.map_eq_some_iff.mp hy
    split at hmade
    · rename_i hj
      subst hj
      obtain rfl := Option.some.inj hmade
      cases slot with
      | none =>
          rw [Nat.zero_add]
          rfl
      | some z => exact hx o.index z hslot
    · exact hx j y (hslot.trans (congrArg some hmade))
  · exact hf

/-! ## One block in the facts -/

/-- The facts with `x` about block `b`. -/
def put (f : Facts) (b : BlockId) (x : BlockFacts) : Facts :=
  { f with blocks := f.blocks.setIfInBounds b x }

theorem block_put (f : Facts) (b d : BlockId) (x : BlockFacts) (hb : b < f.size) :
    (f.put b x).block d = if d = b then x else f.block d := by
  unfold block put
  simp only [Array.getD_eq_getD_getElem?, Array.getElem?_setIfInBounds]
  by_cases h : d = b
  · subst h
    simp [show d < f.blocks.size from hb]
  · simp [h, Ne.symm h]

theorem block_put_current (f : Facts) (b d : BlockId) (x : BlockFacts) (hb : b < f.size) :
    (put { f with current := some b } b x).block d = if d = b then x else f.block d :=
  block_put { f with current := some b } b d x hb

theorem block_put_self (hb : b < f.size) (x : BlockFacts) : (f.put b x).block b = x :=
  (block_put f b b x hb).trans (if_pos rfl)

theorem put_block (f : Facts) (b : BlockId) : f.put b (f.block b) = f := by
  have hblocks : f.blocks.setIfInBounds b (f.block b) = f.blocks := by
    refine Array.ext_getElem? fun d => ?_
    rw [Array.getElem?_setIfInBounds]
    split
    · rename_i hd
      subst hd
      split
      · rename_i hb
        rw [block, Array.getD_eq_getD_getElem?, Array.getElem?_eq_getElem hb, Option.getD_some]
      · rename_i hb
        exact (Array.getElem?_eq_none (Nat.le_of_not_lt hb)).symm
    · rfl
  unfold put
  rw [hblocks]

theorem block_onExposed (f : Facts) (b d : BlockId) (change : Exposed → Exposed)
    (hb : b < f.size) :
    (f.onExposed b change).block d =
      if d = b then { f.block b with exposed := change (f.exposed b) } else f.block d := by
  unfold exposed block onExposed
  simp only [Array.getD_eq_getD_getElem?, Array.getElem?_modify]
  by_cases h : d = b
  · subst h
    simp [show d < f.blocks.size from hb]
  · simp [h, Ne.symm h]

/-- What is put in takes the place of all that was exposed. -/
theorem put_onExposed (f : Facts) (b : BlockId) (change : Exposed → Exposed) (x : BlockFacts) :
    (f.onExposed b change).put b x = f.put b x := by
  have hblocks : (f.onExposed b change).blocks.setIfInBounds b x = f.blocks.setIfInBounds b x := by
    refine Array.ext_getElem? fun d => ?_
    unfold onExposed
    rw [Array.getElem?_setIfInBounds, Array.getElem?_setIfInBounds, Array.getElem?_modify,
      Array.size_modify]
    split <;> rfl
  exact congrArg (fun blocks => { f with blocks }) hblocks

theorem modify_put (f : Facts) (x : BlockFacts) (change : BlockFacts → BlockFacts)
    (hb : b < f.size) :
    { f.put b x with blocks := (f.put b x).blocks.modify b change } = f.put b (change x) := by
  have hblocks : (f.blocks.setIfInBounds b x).modify b change =
      f.blocks.setIfInBounds b (change x) := by
    refine Array.ext_getElem? fun d => ?_
    rw [Array.getElem?_modify, Array.getElem?_setIfInBounds, Array.getElem?_setIfInBounds]
    split
    · simp [show b < f.blocks.size from hb]
    · rfl
  exact congrArg (fun blocks => { f with blocks }) hblocks

/-! ## One instruction -/

section Standing

variable {front back : List (Option Record)} {p : Point}

/-- The facts in a visit of block `b` that has come to `p`, with `front` in the slots behind it
and `back` in those before it. -/
def standing (f : Facts) (b : BlockId) (front back : List (Option Record)) (p : Point) : Facts :=
  f.put b ⟨p.exposed, front ++ some p.record :: back⟩

theorem exposed_standing (hb : b < f.size) : (f.standing b front back p).exposed b = p.exposed :=
  congrArg BlockFacts.exposed (block_put_self hb _)

theorem record?_standing (hb : b < f.size) :
    (f.standing b front back p).record? ⟨b, front.length⟩ = some p.record := by
  unfold record? standing
  rw [block_put_self hb]
  simp

theorem onExposed_standing (hb : b < f.size) (change : Exposed → Exposed) :
    (f.standing b front back p).onExposed b change =
      f.standing b front back { p with exposed := change p.exposed } :=
  modify_put f _ _ hb

theorem modify_slot (slot : Option Record) (change : Option Record → Option Record) :
    (front ++ slot :: back).modify front.length change = front ++ change slot :: back := by
  induction front with
  | nil => rfl
  | cons x front ih => simpa using ih

theorem onRecord_standing (hb : b < f.size) (change : Record → Record) :
    (f.standing b front back p).onRecord ⟨b, front.length⟩ change =
      f.standing b front back { p with record := change p.record } := by
  refine (modify_put f _ _ hb).trans ?_
  dsimp only
  rw [modify_slot]
  rfl

theorem onCurrent_standing (hcurrent : f.current = some b) (hb : b < f.size)
    (change : Exposed → Exposed) :
    (f.standing b front back p).onCurrent change =
      f.standing b front back { p with exposed := change p.exposed } := by
  have hhere : (f.standing b front back p).current = some b := hcurrent
  unfold onCurrent
  rw [hhere]
  exact onExposed_standing hb change

/-- **An effect at the point where the visit stands changes the point**, and nothing else. -/
theorem perform_standing (hcurrent : f.current = some b) (hb : b < f.size)
    (hsite : p.record.site = ⟨b, front.length⟩) (e : Effect) :
    (f.standing b front back p).perform ⟨b, front.length⟩ e =
      (f.standing b front back (p.apply f.tracking e), p.events f.tracking e) := by
  have hhere : ∀ q, (f.standing b front back q).current = some b := fun _ => hcurrent
  have htracks : ∀ q, (f.standing b front back q).tracksMemory = f.tracking.memory := fun _ => rfl
  cases e with
  | use r =>
      dsimp only [perform, useReg, linkReg, Point.apply, Point.events]
      split
      · rfl
      · rw [hhere]
        dsimp only
        rw [onRecord_standing hb, exposed_standing hb]
  | load place dst =>
      dsimp only [perform, useMem, linkMem, Point.apply, Point.events]
      rw [htracks]
      split
      · rw [hhere]
        dsimp only
        rw [onRecord_standing hb, exposed_standing hb, hsite]
      · rfl
  | define r v =>
      dsimp only [perform, defReg, Point.apply, Point.events]
      cases hz : r.isZero with
      | true => rfl
      | false =>
          rw [onRecord_standing hb, setReg, onCurrent_standing hcurrent hb, htracks, hsite]
          cases f.tracking.memory with
          | false => rfl
          | true =>
              dsimp only [dropBase]
              rw [hhere]
              dsimp only
              rw [onExposed_standing hb, exposed_standing hb]
              rfl
  | store place src =>
      dsimp only [perform, defMem, setMem, Point.apply, Point.events]
      rw [htracks]
      split
      · rw [onCurrent_standing hcurrent hb, onRecord_standing hb, hsite]
      · rfl

theorem performAll_standing (hcurrent : f.current = some b) (hb : b < f.size)
    (hsite : p.record.site = ⟨b, front.length⟩) (es : List Effect) :
    (f.standing b front back p).performAll ⟨b, front.length⟩ es =
      (f.standing b front back (p.applyAll f.tracking es), p.allEvents f.tracking es) := by
  induction es generalizing p with
  | nil => rfl
  | cons e es ih =>
      unfold performAll
      rw [perform_standing hcurrent hb hsite]
      dsimp only
      rw [ih ((Point.site_apply p e).trans hsite)]
      rfl

/-- **Carrying out the instruction where the visit stands is visiting it there.** -/
theorem carryOut_standing (hcurrent : f.current = some b) (hb : b < f.size)
    (hsite : p.record.site = ⟨b, front.length⟩) (i : Instruction) :
    (f.standing b front back p).carryOut s ⟨b, front.length⟩ i =
      { facts := f.standing b front back (p.visit s f.tracking i)
        log := p.visitEvents s f.tracking i } := by
  have ha : (f.standing b front back p).address? ⟨b, front.length⟩ = some p.record.address := by
    rw [address?, record?_standing hb]
    rfl
  rw [carryOut_eq hsite ha, performAll_standing hcurrent hb hsite]
  rfl

theorem ensureRecord_put (hb : b < f.size) (x : Exposed) (slot : Option Record)
    (address : UInt64) :
    (f.put b ⟨x, front ++ slot :: back⟩).ensureRecord ⟨b, front.length⟩ address =
      { facts := f.standing b front back
          ⟨x, slot.getD (.fresh ⟨b, front.length⟩ address f.tracking)⟩ } := by
  have hroom : front.length < ((f.put b ⟨x, front ++ slot :: back⟩).block b).slots.length := by
    rw [block_put_self hb]
    simp
  unfold ensureRecord
  rw [if_pos hroom]
  refine congrArg (fun f => ({ facts := f } : Outcome)) ((modify_put f _ _ hb).trans ?_)
  dsimp only
  rw [modify_slot]
  rfl

theorem ensureRecord_put_refused (hb : b < f.size) (x : Exposed) (address : UInt64) :
    (f.put b ⟨x, front⟩).ensureRecord ⟨b, front.length⟩ address =
      { facts := f.put b ⟨x, front⟩, fault := some (.nodeOutOfRange b f.size) } := by
  have hroom : ¬ front.length < ((f.put b ⟨x, front⟩).block b).slots.length := by
    rw [block_put_self hb]
    exact Nat.lt_irrefl _
  have hsize : (f.put b ⟨x, front⟩).size = f.size := Array.size_setIfInBounds
  unfold ensureRecord
  rw [if_neg hroom, hsize]

end Standing

/-! ## All instructions of a block -/

/-- **One turn of the loop is one step of the walk**: the slot of the instruction joins those
that are done with. -/
theorem turn_put (hcurrent : f.current = some b) (hb : b < f.size)
    {front back : List (Option Record)} {x : Exposed} {slot : Option Record} (i : Instruction)
    (hplaced : BlockFacts.PlacedFrom b front.length ⟨x, slot :: back⟩) :
    let p : Point := ⟨x, slot.getD (.fresh ⟨b, front.length⟩ i.address f.tracking)⟩
    let q := p.visit s f.tracking i
    (((f.put b ⟨x, front ++ slot :: back⟩).ensureRecord ⟨b, front.length⟩ i.address).andThen
        fun f => f.carryOut s ⟨b, front.length⟩ i) =
      { facts := f.put b ⟨q.exposed, (front ++ [some q.record]) ++ back⟩
        log := p.visitEvents s f.tracking i } := by
  intro p q
  have hsite : p.record.site = ⟨b, front.length⟩ := hplaced.site_getD i.address f.tracking
  rw [ensureRecord_put hb, Outcome.andThen_eq rfl, carryOut_standing hcurrent hb hsite,
    List.append_assoc]
  rfl

/-- The walk from position `front.length` on, with `front` in the slots behind it. -/
theorem visitInstructions_put (hcurrent : f.current = some b) (hb : b < f.size)
    (front slots : List (Option Record)) (x : Exposed)
    (hplaced : BlockFacts.PlacedFrom b front.length ⟨x, slots⟩) (is : List Instruction) :
    (f.put b ⟨x, front ++ slots⟩).visitInstructions s b front.length is =
      let v := visitFrom s f.tracking b front.length is ⟨x, slots⟩
      { facts := f.put b ⟨v.facts.exposed, front ++ v.facts.slots⟩
        fault := if v.complete then none else some (.nodeOutOfRange b f.size)
        log := v.log } := by
  induction is generalizing front slots x with
  | nil => rfl
  | cons i rest ih =>
      unfold visitInstructions
      cases slots with
      | nil =>
          rw [List.append_nil, ensureRecord_put_refused hb, Outcome.andThen_eq_self rfl,
            Outcome.andThen_eq_self rfl]
          simp [visitFrom]
      | cons slot back =>
          let p : Point := ⟨x, slot.getD (.fresh ⟨b, front.length⟩ i.address f.tracking)⟩
          let q := p.visit s f.tracking i
          have hlength : (front ++ [some q.record]).length = front.length + 1 := List.length_append
          have hrest := ih (front ++ [some q.record]) back q.exposed
            (hlength ▸ hplaced.tail q.exposed)
          rw [hlength] at hrest
          rw [turn_put hcurrent hb i hplaced, Outcome.andThen_eq rfl]
          dsimp only
          rw [hrest, visitFrom]
          simp only [List.append_assoc, List.singleton_append]
          rfl

/-- **The loop over the instructions of the current block is a walk along the block**, and it
leaves all other blocks as they are. -/
theorem visitInstructions_eq (hcurrent : f.current = some b) (hb : b < f.size)
    (hplaced : (f.block b).PlacedFrom b 0) (is : List Instruction) :
    f.visitInstructions s b 0 is =
      let v := visitFrom s f.tracking b 0 is (f.block b)
      { facts := f.put b v.facts
        fault := if v.complete then none else some (.nodeOutOfRange b f.size)
        log := v.log } := by
  have h := visitInstructions_put (s := s) hcurrent hb [] (f.block b).slots (f.block b).exposed
    hplaced is
  rw [List.nil_append, put_block] at h
  exact h

/-- The same, with something else exposed at the start of the block. -/
theorem visitInstructions_onExposed (hcurrent : f.current = some b) (hb : b < f.size)
    (hplaced : (f.block b).PlacedFrom b 0) (x : Exposed) (is : List Instruction) :
    (f.onExposed b fun _ => x).visitInstructions s b 0 is =
      let v := visitFrom s f.tracking b 0 is ⟨x, (f.block b).slots⟩
      { facts := f.put b v.facts
        fault := if v.complete then none else some (.nodeOutOfRange b f.size)
        log := v.log } := by
  have hsize : (f.onExposed b fun _ => x).size = f.size := Array.size_modify
  have hblock : (f.onExposed b fun _ => x).block b = ⟨x, (f.block b).slots⟩ :=
    (block_onExposed f b b _ hb).trans (if_pos rfl)
  have hplaced' : ((f.onExposed b fun _ => x).block b).PlacedFrom b 0 := by
    rw [hblock]
    exact hplaced
  have hb' : b < (f.onExposed b fun _ => x).size := Nat.lt_of_lt_of_eq hb hsize.symm
  rw [visitInstructions_eq (f := f.onExposed b fun _ => x) hcurrent hb' hplaced', hblock, hsize]
  dsimp only
  rw [put_onExposed]
  rfl

/-! ## What a visit keeps -/

/-- Where there is room for a record, there is one afterwards. -/
theorem record?_ensureRecord {o : Site} (hroom : o.index < (f.block o.block).slots.length)
    (address : UInt64) :
    (f.ensureRecord o address).facts.record? o =
      some ((f.record? o).getD (.fresh o address f.tracking)) := by
  unfold ensureRecord
  rw [if_pos hroom]
  unfold record? block at *
  rw [Array.getD_eq_getD_getElem?] at hroom ⊢
  rw [Array.getD_eq_getD_getElem?, Array.getElem?_modify, if_pos rfl]
  cases hx : f.blocks[o.block]? with
  | none => simp [hx] at hroom
  | some x =>
      rw [hx] at hroom
      obtain ⟨slot, hslot⟩ : ∃ slot, x.slots[o.index]? = some slot :=
        ⟨_, List.getElem?_eq_getElem hroom⟩
      cases slot <;> simp [hslot]

/-- No record is made and nothing changes, or there is a record now. -/
theorem ensureRecord_cases (f : Facts) (o : Site) (address : UInt64) :
    f.ensureRecord o address = { facts := f, fault := some (.nodeOutOfRange o.block f.size) } ∨
      ∃ f' x, f.ensureRecord o address = { facts := f' } ∧ f'.record? o = some x := by
  by_cases hroom : o.index < (f.block o.block).slots.length
  · refine Or.inr ⟨_, _, ?_, record?_ensureRecord hroom address⟩
    unfold ensureRecord
    rw [if_pos hroom]
  · refine Or.inl ?_
    unfold ensureRecord
    rw [if_neg hroom]

/-- `P` is kept by all that a visit of a block is made of. -/
structure VisitClosed (P : Facts → Prop) : Prop extends StepClosed P where
  ensureRecord : ∀ {f : Facts} (o : Site) (address : UInt64), P f →
    P (f.ensureRecord o address).facts
  join : ∀ {f : Facts} (b : BlockId) (ps : List BlockId), P f → P (f.join b ps).facts
  enter : ∀ {f : Facts} (b : BlockId), P f → P (f.enter b).facts

section VisitClosed

variable {P : Facts → Prop} (hP : VisitClosed P) (hf : P f) (s : Settings)
include hP hf

theorem VisitClosed.visitInstructions (b : BlockId) (index : Nat) (is : List Instruction) :
    P (f.visitInstructions s b index is).facts := by
  induction is generalizing f index with
  | nil => exact hf
  | cons i rest ih =>
      refine Outcome.andThen_preserves ?_ fun f' hf' => ih hf' (index + 1)
      refine Outcome.andThen_preserves (hP.ensureRecord _ i.address hf) fun f' hf' => ?_
      exact hP.carryOut hf' s _ i

/-- **What all parts of a visit keep, the visit keeps**, also if it is refused. -/
theorem VisitClosed.visitBlock (g : FlowGraph) (b : BlockId) : P (f.visitBlock s g b).facts := by
  unfold Facts.visitBlock
  split
  · exact hf
  · refine Outcome.andThen_preserves ?_ fun f' hf' => hP.visitInstructions hf' s b 0 _
    exact Outcome.andThen_preserves (hP.join b _ hf) fun f' hf' => hP.enter b hf'

end VisitClosed

theorem placed_visitClosed : VisitClosed Placed where
  onRecord o _ hchange hf := hf.onRecord o hchange
  setReg _ _ hf := hf.onCurrent _
  setMem _ _ hf := hf.onCurrent _
  dropBase r hf := hf.dropBase r
  ensureRecord o address hf := hf.ensureRecord o address
  join b ps hf := by
    rw [join_eq]
    split
    · exact hf
    · exact hf.onExposed b _
  enter b hf := by
    rw [enter_eq]
    split <;> exact hf

end Facts

end ReachingDefs
