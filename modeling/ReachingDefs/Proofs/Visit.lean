import ReachingDefs.Proofs.Walk

/-!
# Visiting one block

A visit of a block resets what the block exposes to the union of its predecessors,
and takes it through the instructions one by one. `Facts.Visits` says all that
comes of it: every lane has been moved along the block, every instruction has been
visited with what was exposed in front of it, and no other block is touched.

A visit can be refused, when the facts have no room for the block or its
instructions. Facts that fit their graph never are, and visits keep them fitting.
-/

namespace ReachingDefs

variable {g : FlowGraph} {s : Settings} {tracking : Tracking} {b : BlockId}

/-! ## Through the instructions of a block -/

/-- `x` is what is exposed in front of instruction `i` of block `b` if `start` is
exposed at the start of the block: everything that moves along a lane has come that
far, and whatever visits of instructions keep has been kept. -/
structure Carries (g : FlowGraph) (s : Settings) (tracking : Tracking) (b : BlockId)
    (start : Exposed) (i : Nat) (x : Exposed) : Prop where
  along : ∀ {α : Type} [DecidableEq α] {c : Lane α} {view : Exposed → List α},
    Tracks g s tracking c view → view x = c.along b (view start) i
  keeps : ∀ {P : Exposed → Prop},
    (∀ (p : Point) (o : Site) (i : Instruction), p.Stands g tracking o i → P p.exposed →
      P (p.visit s tracking i).exposed) → P start → P x

theorem Carries.start (x : Exposed) : Carries g s tracking b x 0 x :=
  ⟨fun _ => rfl, fun _ h => h⟩

theorem Carries.next {start : Exposed} {n : Nat} {p : Point} {i : Instruction}
    (h : Carries g s tracking b start n p.exposed) (hp : p.Stands g tracking ⟨b, n⟩ i) :
    Carries g s tracking b start (n + 1) (p.visit s tracking i).exposed := by
  refine ⟨fun hc => ?_, fun hkeep hstart => hkeep p _ i hp (h.keeps hkeep hstart)⟩
  rw [hc.visit p _ i hp, h.along hc]
  rfl

/-- The visit `v` of the instructions `is` of block `b`, from position `index` on and
with these slots, did what it should. -/
structure Walked (g : FlowGraph) (s : Settings) (tracking : Tracking) (b : BlockId)
    (start : Exposed) (index : Nat) (is : List Instruction) (slots : List (Option Record))
    (v : Visited) : Prop where
  complete : v.complete = true
  exposed : Carries g s tracking b start (index + is.length) v.facts.exposed
  length : v.facts.slots.length = slots.length
  /-- Every instruction was visited, with its old record or a fresh one. -/
  slot : ∀ j i, is[j]? = some i → ∃ p : Point, p.Stands g tracking ⟨b, index + j⟩ i ∧
    Carries g s tracking b start (index + j) p.exposed ∧
    p.record = slots[j]?.join.getD (.fresh ⟨b, index + j⟩ i.address tracking) ∧
    v.facts.slots[j]? = some (some (p.visit s tracking i).record)

theorem visitFrom_walked {start x : Exposed} {index : Nat} {is : List Instruction}
    {slots : List (Option Record)} (his : ∀ j, is[j]? = g.instruction? ⟨b, index + j⟩)
    (hlen : slots.length = is.length)
    (hold : ∀ (j : Nat) (y : Record), slots[j]? = some (some y) → ∀ i, is[j]? = some i →
      y.head = (⟨b, index + j⟩, i.address, tracking.memory))
    (hx : Carries g s tracking b start index x) :
    Walked g s tracking b start index is slots (visitFrom s tracking b index is ⟨x, slots⟩) := by
  induction is generalizing index x slots with
  | nil =>
      obtain rfl : slots = [] := List.eq_nil_of_length_eq_zero hlen
      exact ⟨rfl, hx, rfl, fun j i hi => absurd hi (by simp)⟩
  | cons i rest ih =>
      obtain ⟨slot, slots, rfl⟩ := List.exists_cons_of_length_eq_add_one hlen
      -- the first instruction is visited, and the rest from what it leaves exposed
      let p : Point := ⟨x, slot.getD (.fresh ⟨b, index⟩ i.address tracking)⟩
      have hp : p.Stands g tracking ⟨b, index⟩ i := by
        refine ⟨(his 0).symm, ?_⟩
        cases slot with
        | none => exact Record.head_fresh ..
        | some y => exact hold 0 y rfl i rfl
      have hshift : ∀ j, index + 1 + j = index + (j + 1) := by omega
      have hrest : Walked g s tracking b start (index + 1) rest slots
          (visitFrom s tracking b (index + 1) rest ⟨(p.visit s tracking i).exposed, slots⟩) := by
        refine ih ?_ (by simpa using hlen) ?_ (Carries.next hx hp)
        · intro j
          rw [hshift]
          exact his (j + 1)
        · intro j y hy k hk
          rw [hshift]
          exact hold (j + 1) y hy k hk
      refine ⟨hrest.complete, ?_, ?_, ?_⟩
      · have hexp := hrest.exposed
        rw [hshift] at hexp
        exact hexp
      · exact congrArg (· + 1) hrest.length
      · intro j k hk
        cases j with
        | zero =>
            obtain rfl : i = k := Option.some.inj hk
            exact ⟨p, hp, hx, rfl, rfl⟩
        | succ j =>
            obtain ⟨q, hq⟩ := hrest.slot j k hk
            rw [hshift] at hq
            exact ⟨q, hq⟩

/-! ## Facts that fit a graph -/

namespace Facts

/-- The facts have one slot for every instruction of `g`, and every record is about
the instruction of its slot. -/
structure Fits (g : FlowGraph) (f : Facts) : Prop where
  size : f.size = g.size
  slots : ∀ b, (f.block b).slots.length = g.length b
  record : ∀ o x, f.record? o = some x →
    ∃ i, g.instruction? o = some i ∧ x.head = (o, i.address, f.tracking.memory)

theorem Fits.placed {f : Facts} (hf : f.Fits g) : f.Placed := by
  intro o x hx
  obtain ⟨_, _, hhead⟩ := hf.record o x hx
  exact congrArg (·.1) hhead

/-- Where there is no instruction, there is no record. -/
theorem Fits.record?_eq_none {f : Facts} (hf : f.Fits g) {o : Site}
    (ho : g.instruction? o = none) : f.record? o = none := by
  by_contra hne
  obtain ⟨x, hx⟩ := Option.ne_none_iff_exists'.mp hne
  obtain ⟨i, hi, _⟩ := hf.record o x hx
  rw [ho] at hi
  cases hi

theorem block_fresh (g : FlowGraph) (tracking : Tracking) (b : BlockId) :
    (fresh g tracking).block b = { slots := List.replicate (g.length b) none } := by
  unfold block fresh FlowGraph.length FlowGraph.instructions FlowGraph.get?
  rw [Array.getD_eq_getD_getElem?, Array.getElem?_map]
  cases g.blocks[b]? <;> rfl

theorem exposed_fresh (g : FlowGraph) (tracking : Tracking) (b : BlockId) :
    (fresh g tracking).exposed b = {} := by
  unfold exposed
  rw [block_fresh]

theorem record?_fresh (g : FlowGraph) (tracking : Tracking) (o : Site) :
    (fresh g tracking).record? o = none := by
  unfold record?
  rw [block_fresh]
  dsimp only
  rw [List.getElem?_replicate]
  split <;> rfl

theorem fresh_fits (g : FlowGraph) (tracking : Tracking) : (fresh g tracking).Fits g where
  size := Array.size_map ..
  slots b := by simp [block_fresh]
  record o x h := by simp [record?_fresh] at h

/-! ## A visit of one block -/

/-- What joins with the blocks of `f` keep holds of their union. -/
theorem union_preserves {f : Facts} {P : Exposed → Prop} (hempty : P {})
    (hmerge : ∀ x b, P x → P (x.merge (f.exposed b))) (ps : List BlockId) : P (f.union ps) := by
  have hfold : ∀ x, P x → P (ps.foldl (fun x b => x.merge (f.exposed b)) x) := by
    induction ps with
    | nil => exact fun x hx => hx
    | cons p ps ih => exact fun x hx => ih _ (hmerge x p hx)
  exact hfold _ hempty

/-- Visiting block `b` takes the facts `f` to `f'`. -/
structure Visits (s : Settings) (g : FlowGraph) (b : BlockId) (f f' : Facts) : Prop where
  tracking : f'.tracking = f.tracking
  size : f'.size = f.size
  others : ∀ d, d ≠ b → f'.block d = f.block d
  slots : (f'.block b).slots.length = (f.block b).slots.length
  /-- What the predecessors expose has been taken along the block. -/
  exposed : Carries g s f.tracking b (f.union (g.predecessors b)) (g.length b) (f'.exposed b)
  /-- Every instruction has been visited, with its old record or a fresh one. -/
  record : ∀ o i, o.block = b → g.instruction? o = some i → ∃ p : Point,
    p.Stands g f.tracking o i ∧
    Carries g s f.tracking b (f.union (g.predecessors b)) o.index p.exposed ∧
    p.record = (f.record? o).getD (.fresh o i.address f.tracking) ∧
    f'.record? o = some (p.visit s f.tracking i).record

theorem record?_congr {f f' : Facts} {o : Site} (h : f'.block o.block = f.block o.block) :
    f'.record? o = f.record? o := by
  unfold record?
  rw [h]

/-- A visit loses no record. -/
theorem Visits.record_isSome {f f' : Facts} (h : Visits s g b f f') (hf : f.Fits g) {o : Site}
    (ho : (f.record? o).isSome = true) : (f'.record? o).isSome = true := by
  by_cases hd : o.block = b
  · obtain ⟨x, hx⟩ := Option.isSome_iff_exists.mp ho
    obtain ⟨i, hi, _⟩ := hf.record o x hx
    obtain ⟨p, _, _, _, hrecord⟩ := h.record o i hd hi
    rw [hrecord]
    rfl
  · rwa [record?_congr (h.others _ hd)]

theorem index_lt_of_record? {f : Facts} {o : Site} {x : Record} (h : f.record? o = some x) :
    o.index < (f.block o.block).slots.length := by
  rcases Nat.lt_or_ge o.index (f.block o.block).slots.length with hlt | hge
  · exact hlt
  · unfold record? at h
    rw [List.getElem?_eq_none hge] at h
    cases h

/-- A visit keeps facts fitting. -/
theorem Visits.fits {f f' : Facts} (h : Visits s g b f f') (hf : f.Fits g) : f'.Fits g := by
  have hslots : ∀ d, (f'.block d).slots.length = g.length d := by
    intro d
    by_cases hd : d = b
    · rw [hd, h.slots, hf.slots]
    · rw [h.others d hd, hf.slots]
  refine ⟨h.size.trans hf.size, hslots, ?_⟩
  intro o x hx
  rw [h.tracking]
  by_cases hd : o.block = b
  · -- a record of the block is one of those just made
    have hlt := index_lt_of_record? hx
    rw [hslots] at hlt
    obtain ⟨i, hi⟩ := FlowGraph.exists_instruction_iff.mpr hlt
    obtain ⟨p, hp, _, _, hrecord⟩ := h.record o i hd hi
    obtain rfl : _ = x := Option.some.inj (hrecord.symm.trans hx)
    exact ⟨i, hi, hp.visited.head⟩
  · exact hf.record o x (record?_congr (h.others _ hd) ▸ hx)

/-- A record of the visited block comes from a visit of its instruction. -/
theorem Visits.record_eq {f f' : Facts} (hv : Visits s g b f f') (hf : f.Fits g) {o : Site}
    {x : Record} (ho : o.block = b) (hx : f'.record? o = some x) :
    ∃ (i : Instruction) (p : Point), p.Stands g f.tracking o i ∧ o.index ≤ g.length b ∧
      Carries g s f.tracking b (f.union (g.predecessors b)) o.index p.exposed ∧
      p.record = (f.record? o).getD (.fresh o i.address f.tracking) ∧
      x = (p.visit s f.tracking i).record := by
  obtain ⟨i, hi, _⟩ := (hv.fits hf).record o x hx
  obtain ⟨p, hp, hcarries, hrecord, hx'⟩ := hv.record o i ho hi
  have hlt := FlowGraph.exists_instruction_iff.mp ⟨i, hi⟩
  rw [ho] at hlt
  exact ⟨i, p, hp, Nat.le_of_lt hlt, hcarries, hrecord, Option.some.inj (hx.symm.trans hx')⟩

/-- **What a record says, it said before the visit, or the visit of its instruction made it
say so.** `P` is anything that a record cannot say when nothing has been noted. -/
theorem Visits.record_cases {f f' : Facts} (hv : Visits s g b f f') (hf : f.Fits g)
    {P : Record → Prop} (hfresh : ∀ o address, ¬ P (.fresh o address f.tracking)) {o : Site}
    {x : Record} (hx : f'.record? o = some x) (hP : P x) :
    (∃ y, f.record? o = some y ∧ P y) ∨
    ∃ (i : Instruction) (p : Point), o.block = b ∧ o.index ≤ g.length b ∧
      p.Stands g f.tracking o i ∧
      Carries g s f.tracking b (f.union (g.predecessors b)) o.index p.exposed ∧
      ¬ P p.record ∧ P (p.visit s f.tracking i).record := by
  by_cases ho : o.block = b
  · obtain ⟨i, p, hp, hle, hcarries, hrecord, rfl⟩ := hv.record_eq hf ho hx
    by_cases hold : P p.record
    · left
      rw [hrecord] at hold
      cases hy : f.record? o with
      | none =>
          rw [hy] at hold
          exact absurd hold (hfresh o i.address)
      | some y =>
          rw [hy] at hold
          exact ⟨y, rfl, hold⟩
    · exact Or.inr ⟨i, p, ho, hle, hp, hcarries, hold, hP⟩
  · exact Or.inl ⟨x, record?_congr (hv.others _ ho) ▸ hx, hP⟩

/-- Arriving at a block is not refused if the facts have room for the graph. -/
theorem arrive_eq (hg : g.Linked) {f : Facts} (hsize : f.size = g.size) (hb : b < g.size) :
    ((f.join b (g.predecessors b)).andThen fun f => f.enter b) =
      { facts :=
          onExposed { f with current := some b } b fun _ => f.union (g.predecessors b) } := by
  have hbf : b < f.size := hsize.symm ▸ hb
  have hfind : (b :: g.predecessors b).find? (f.size ≤ ·) = none := by
    simp only [List.find?_eq_none, decide_eq_true_eq, Nat.not_le]
    intro p hp
    rcases List.mem_cons.mp hp with rfl | hp
    · exact hbf
    · exact hsize ▸ hg.predecessor_lt hp
  have hsame : (f.onExposed b fun _ => f.union (g.predecessors b)).size = f.size :=
    Array.size_modify
  rw [join_eq, hfind, Outcome.andThen_eq rfl]
  dsimp only
  rw [enter_eq, if_pos (hsame.symm ▸ hbf)]
  rfl

/-- The visit of the instructions of block `b`, from the union of its predecessors. -/
def walk (s : Settings) (g : FlowGraph) (b : BlockId) (f : Facts) : Visited :=
  visitFrom s f.tracking b 0 (g.instructions b) ⟨f.union (g.predecessors b), (f.block b).slots⟩

/-- A visit of a block puts in what came of its instructions, and nothing else. -/
theorem visitBlock_eq (hg : g.Linked) {f : Facts} (hsize : f.size = g.size) (hf : f.Placed)
    (hb : b < g.size) :
    f.visitBlock s g b =
      { facts := put { f with current := some b } b (f.walk s g b).facts
        fault := if (f.walk s g b).complete then none else some (.nodeOutOfRange b f.size)
        log := (f.walk s g b).log } := by
  obtain ⟨block, hblock⟩ := FlowGraph.get?_isSome hb
  have hpreds : block.predecessors = g.predecessors b := by
    unfold FlowGraph.predecessors
    rw [hblock]
    rfl
  have hinstr : block.instructions = g.instructions b := by
    unfold FlowGraph.instructions
    rw [hblock]
    rfl
  have hbf : b < f.size := hsize.symm ▸ hb
  unfold visitBlock
  rw [hblock]
  dsimp only
  rw [hpreds, hinstr, arrive_eq hg hsize hb, Outcome.andThen_eq rfl]
  dsimp only
  rw [visitInstructions_onExposed (f := { f with current := some b }) rfl hbf (hf.placedFrom b)]
  rfl

/-- A block that is not there is not visited. -/
theorem facts_visitBlock_of_le {f : Facts} (hb : g.size ≤ b) : (f.visitBlock s g b).facts = f := by
  unfold visitBlock
  rw [FlowGraph.get?_eq_none hb]

theorem walk_walked {f : Facts} (hf : f.Fits g) (b : BlockId) :
    Walked g s f.tracking b (f.union (g.predecessors b)) 0 (g.instructions b) (f.block b).slots
      (f.walk s g b) := by
  refine visitFrom_walked ?_ (hf.slots b) ?_ (Carries.start _)
  -- the records that are there are about the instructions of their slots
  · intro j
    unfold FlowGraph.instruction?
    rw [Nat.zero_add]
  · intro j y hy i hi
    have hrecord : f.record? ⟨b, j⟩ = some y := by
      unfold record?
      rw [hy]
      rfl
    obtain ⟨k, hk, hhead⟩ := hf.record _ y hrecord
    obtain rfl : i = k := Option.some.inj (hi.symm.trans hk)
    rw [Nat.zero_add]
    exact hhead

/-- **Facts that fit are never refused a visit**, and the visit does what it should. -/
theorem visitBlock_visits (hg : g.Linked) {f : Facts} (hf : f.Fits g) (hb : b < g.size) :
    (f.visitBlock s g b).fault = none ∧ Visits s g b f (f.visitBlock s g b).facts := by
  have hw : Walked g s f.tracking b _ 0 _ _ (f.walk s g b) := walk_walked hf b
  rw [visitBlock_eq hg hf.size hf.placed hb, if_pos hw.complete]
  refine ⟨rfl, ?_⟩
  -- block `b` is now what the walk made of it, and the others are as they were
  have hblock := fun d => block_put_current f b d (f.walk s g b).facts (hf.size.symm ▸ hb)
  have hself := (hblock b).trans (if_pos rfl)
  refine ⟨rfl, Array.size_setIfInBounds, fun d hd => (hblock d).trans (if_neg hd), ?_, ?_, ?_⟩
  · rw [hself, hw.length]
  · have hexp := hw.exposed
    rw [Nat.zero_add] at hexp
    unfold exposed
    rw [hself]
    exact hexp
  · rintro ⟨d, j⟩ i rfl hi
    obtain ⟨p, hp, hcarries, hrecord, hslot⟩ := hw.slot j i hi
    rw [Nat.zero_add] at hp hcarries hrecord
    refine ⟨p, hp, hcarries, hrecord, ?_⟩
    unfold record?
    rw [hself, hslot]
    rfl

/-- What visits of blocks that are there keep is kept whatever block is named. -/
theorem visitBlock_preserves (hg : g.Linked) {P : Facts → Prop} (hfits : ∀ f, P f → f.Fits g)
    (hvisit : ∀ f f' b, P f → Visits s g b f f' → P f') (f : Facts) (b : BlockId) (hf : P f) :
    P (f.visitBlock s g b).facts := by
  rcases Nat.lt_or_ge b g.size with hb | hb
  · exact hvisit f _ b hf (visitBlock_visits hg (hfits f hf) hb).2
  · rwa [facts_visitBlock_of_le hb]

theorem fits_visitBlock (hg : g.Linked) (f : Facts) (b : BlockId) (hf : f.Fits g) :
    (f.visitBlock s g b).facts.Fits g :=
  visitBlock_preserves hg (fun _ hf => hf) (fun _ _ _ hf hv => hv.fits hf) f b hf

/-! ## Along a lane -/

section Lanes

variable {α : Type} [DecidableEq α] {c : Lane α} {view : Exposed → List α}

/-- The list of every block, as a view shows it. -/
def lists (view : Exposed → List α) (f : Facts) : BlockId → List α := fun b => view (f.exposed b)

theorem view_union (hc : Tracks g s tracking c view) (f : Facts) (ps : List BlockId) :
    view (f.union ps) = Lane.join (f.lists view) ps := by
  have hfold : ∀ x, view (ps.foldl (fun x b => x.merge (f.exposed b)) x) =
      ps.foldl (fun l b => OrderedSet.union l (f.lists view b)) (view x) := by
    induction ps with
    | nil => exact fun _ => rfl
    | cons p ps ih =>
        intro x
        rw [List.foldl_cons, List.foldl_cons, ih, hc.merge]
        rfl
  unfold union Lane.join
  rw [hfold, hc.empty]

theorem mem_origins_union {f : Facts} {ps : List BlockId} {r : Register} {o : Site} :
    o ∈ (f.union ps).regs.origins r ↔ ∃ p ∈ ps, o ∈ (f.exposed p).regs.origins r := by
  rw [view_union (tracks_regLane .empty {} .registers r), Lane.mem_join]
  rfl

theorem mem_cells_union {f : Facts} {ps : List BlockId} {a : Cell} :
    a ∈ (f.union ps).mems.cells ↔ ∃ p ∈ ps, a ∈ (f.exposed p).mems.cells := by
  rw [view_union (tracks_memLane .empty {} .registers), Lane.mem_join]
  rfl

/-- **A visit of a block is a visit on every lane.** -/
theorem Visits.lists {f f' : Facts} (h : Visits s g b f f') (hc : Tracks g s f.tracking c view) :
    f'.lists view = c.visit g (f.lists view) b := by
  funext d
  unfold Lane.visit
  by_cases hd : d = b
  · subst hd
    rw [Function.update_self, ← view_union hc]
    exact h.exposed.along hc
  · rw [Function.update_of_ne hd]
    unfold Facts.lists Facts.exposed
    rw [h.others d hd]

end Lanes

end Facts

/-! ## The level has no say -/

theorem Facts.carryOut_congr {s s' : Settings} (h : s.enabled = s'.enabled) (f : Facts) (o : Site)
    (i : Instruction) : f.carryOut s o i = f.carryOut s' o i := by
  unfold carryOut Settings.handler? Settings.isEnabled
  rw [h]

theorem Facts.visitInstructions_congr {s s' : Settings} (h : s.enabled = s'.enabled) (b : BlockId)
    (index : Nat) (is : List Instruction) :
    visitInstructions s b index is = visitInstructions s' b index is := by
  induction is generalizing index with
  | nil => rfl
  | cons i rest ih =>
      funext f
      unfold visitInstructions
      simp only [carryOut_congr h, ih]

/-- Visits of a block differ in the opcodes that are enabled only. -/
theorem Facts.visitBlock_congr {s s' : Settings} (h : s.enabled = s'.enabled) (b : BlockId)
    (f : Facts) : f.visitBlock s g b = f.visitBlock s' g b := by
  unfold visitBlock
  simp only [visitInstructions_congr h]

/-! ## Reports of a visit -/

/-- Does the event report the end of the passes over a group? -/
def Event.endsPasses : Event → Bool
  | converged .. | boundHit .. => true
  | _ => false

theorem Point.endsPasses_events {p : Point} {d : Effect} {e : Event}
    (he : e ∈ p.events tracking d) : e.endsPasses = false := by
  cases d with
  | use r => simp [events] at he
  | load place dst =>
      unfold events Exposed.loadEvents at he
      grind [Event.endsPasses]
  | define r v =>
      unfold events Exposed.dropEvents at he
      grind [Event.endsPasses]
  | store place src =>
      unfold events Exposed.storeEvents at he
      grind [Event.endsPasses]

theorem Point.endsPasses_allEvents {p : Point} {es : List Effect} {e : Event}
    (he : e ∈ p.allEvents tracking es) : e.endsPasses = false := by
  induction es generalizing p with
  | nil => simp [allEvents] at he
  | cons d es ih =>
      rcases List.mem_append.mp he with he | he
      · exact endsPasses_events he
      · exact ih he

theorem Point.endsPasses_visitEvents {p : Point} {i : Instruction} {e : Event}
    (he : e ∈ p.visitEvents s tracking i) : e.endsPasses = false := by
  rcases List.mem_append.mp he with he | he
  · unfold Settings.events at he
    grind [Event.endsPasses]
  · exact endsPasses_allEvents he

theorem endsPasses_visitFrom {index : Nat} {is : List Instruction} {f : BlockFacts} {e : Event}
    (he : e ∈ (visitFrom s tracking b index is f).log) : e.endsPasses = false := by
  fun_induction visitFrom s tracking b index is f with
  | case1 => simp at he
  | case2 => simp at he
  | case3 index i rest x slot slots p q v ih =>
      rcases List.mem_append.mp he with he | he
      · exact Point.endsPasses_visitEvents he
      · exact ih he

/-- No visit of a block ends the passes over a group. -/
theorem Facts.endsPasses_visitBlock (hg : g.Linked) {f : Facts} (hf : f.Fits g) (hb : b < g.size)
    {e : Event} (he : e ∈ (f.visitBlock s g b).log) : e.endsPasses = false := by
  rw [visitBlock_eq hg hf.size hf.placed hb] at he
  exact endsPasses_visitFrom he

end ReachingDefs
