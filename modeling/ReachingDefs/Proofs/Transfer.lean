import ReachingDefs.Proofs.Refusal
import ReachingDefs.Proofs.Representation
import ReachingDefs.Proofs.Scan

/-!
# A block as one step

What a visit of a block leaves exposed can be told without following the instructions. A
register has the last one that sets it as its origin, or else the origins that the
predecessors have for it. A cell of memory was stored last by one of the instructions, or
comes from a predecessor and is left alone by all of them. Nothing else changes, except the
records of the block itself.

The facts need a slot for each instruction, and records in the slots of their own sites, as in
all facts that can be made (`Facts.Made.placed`). They need no records that fit the
instructions. A record is consulted for its site, and for its address, which only decides what
value a call puts into the link register. What is exposed does not depend on values, so blank
slots would have done as well (`exposed_visitFrom_blank`).
-/

namespace ReachingDefs

variable {g : FlowGraph} {s : Settings} {tracking : Tracking} {b : BlockId}

/-! ## What is exposed depends on sites only -/

/-- What an effect of the instruction at `o` makes of what is exposed, whatever value it sets a
register to. -/
def Effect.expose (tracking : Tracking) (o : Site) (x : Exposed) : Effect → Exposed
  | use _ | load _ _ => x
  | define r _ =>
    if r.isZero then x
    else if tracking.memory then (x.setReg r o).dropBase r else x.setReg r o
  | store place _ => if tracking.memory then x.setMem place o else x

/-- The address of a call shows in the value of the link register only. -/
theorem Operation.expose_effects (x : Exposed) (site : Site) (o : Operation) (a a' : UInt64) :
    ((o.effects a).getD []).foldl (Effect.expose tracking site) x =
      ((o.effects a').getD []).foldl (Effect.expose tracking site) x := by
  unfold effects
  cases o.opcode
  case bl | blr =>
    dsimp only
    split <;> rfl
  all_goals rfl

theorem Settings.expose_effects (x : Exposed) (site : Site) (i : Instruction) (a a' : UInt64) :
    (s.effects i a).foldl (Effect.expose tracking site) x =
      (s.effects i a').foldl (Effect.expose tracking site) x := by
  unfold effects
  split
  · rfl
  · split
    · exact Operation.expose_effects x site _ _ _
    · rfl

namespace Point

theorem exposed_apply (p : Point) (e : Effect) :
    (p.apply tracking e).exposed = e.expose tracking p.record.site p.exposed := by
  cases e with
  | use r => exact exposed_apply_of_isRead p rfl
  | load place dst => exact exposed_apply_of_isRead p rfl
  | define r v =>
      dsimp only [apply, Effect.expose]
      split <;> rfl
  | store place src =>
      dsimp only [apply, Effect.expose]
      split <;> rfl

theorem exposed_applyAll (p : Point) (es : List Effect) :
    (p.applyAll tracking es).exposed = es.foldl (Effect.expose tracking p.record.site) p.exposed := by
  unfold applyAll
  induction es generalizing p with
  | nil => rfl
  | cons e es ih => rw [List.foldl_cons, List.foldl_cons, ih, site_apply, exposed_apply]

/-- Two points of one site expose the same after a visit if they did before it. -/
theorem exposed_visit_congr {p q : Point} (hsite : p.record.site = q.record.site)
    (hexposed : p.exposed = q.exposed) (i : Instruction) :
    (p.visit s tracking i).exposed = (q.visit s tracking i).exposed := by
  unfold visit
  rw [exposed_applyAll, exposed_applyAll, hsite, hexposed]
  exact Settings.expose_effects ..

end Point

/-- A visit leaves exposed what it would have left with blank slots. -/
theorem exposed_visitFrom_blank {index : Nat} {is : List Instruction} {x : BlockFacts}
    (h : x.PlacedFrom b index) :
    (visitFrom s tracking b index is x).facts.exposed =
      (visitFrom s tracking b index is
        ⟨x.exposed, List.replicate x.slots.length none⟩).facts.exposed := by
  fun_induction visitFrom s tracking b index is x with
  | case1 => rfl
  | case2 => rfl
  | case3 index i rest x slot slots p q v ih =>
      let blank : Point := ⟨x, .fresh ⟨b, index⟩ i.address tracking⟩
      have hblank : q.exposed = (blank.visit s tracking i).exposed :=
        Point.exposed_visit_congr (p := p) (q := blank) (h.site_getD i.address tracking) rfl i
      show v.facts.exposed = _
      rw [ih (h.tail q.exposed), hblank]
      rfl

namespace Facts

variable {f : Facts}

/-- What a visit leaves exposed has come along the block, whatever instructions the records
were made for. -/
theorem Shaped.carries_walk (hf : f.Shaped g) (hplaced : f.Placed) (b : BlockId) :
    Carries g s f.tracking b (f.union (g.predecessors b)) (g.length b)
      (f.walk s g b).facts.exposed := by
  have hslots : BlockFacts.PlacedFrom b 0 ⟨f.union (g.predecessors b), (f.block b).slots⟩ := by
    intro j y hy
    rw [Nat.zero_add]
    refine hplaced ⟨b, j⟩ y ?_
    unfold record?
    rw [hy]
    rfl
  have hwalked : Walked g s f.tracking b (f.union (g.predecessors b)) 0 (g.instructions b)
      (List.replicate (f.block b).slots.length none)
      (visitFrom s f.tracking b 0 (g.instructions b)
        ⟨f.union (g.predecessors b), List.replicate (f.block b).slots.length none⟩) := by
    refine visitFrom_walked ?_ (List.length_replicate.trans (hf.slots b)) ?_ (Carries.start _)
    · intro j
      rw [Nat.zero_add]
      rfl
    · intro j y hy
      simp [List.getElem?_replicate] at hy
  have hcarries := hwalked.exposed
  rw [Nat.zero_add] at hcarries
  unfold walk
  rw [exposed_visitFrom_blank hslots]
  exact hcarries

end Facts

/-! ## The last instruction that counts -/

namespace FlowGraph

/-- Instruction `i` is the last one of block `b` that passes the test. -/
def IsLast (g : FlowGraph) (b : BlockId) (test : Site → Bool) (i : Nat) : Prop :=
  i < g.length b ∧ test ⟨b, i⟩ = true ∧ ∀ j < g.length b, i < j → test ⟨b, j⟩ = false

instance (g : FlowGraph) (b : BlockId) (test : Site → Bool) (i : Nat) :
    Decidable (g.IsLast b test i) :=
  inferInstanceAs (Decidable (_ ∧ _ ∧ _))

end FlowGraph

namespace Lane

variable {α : Type} {c : Lane α} {a : α}

/-- A block adds what one of its instructions adds and all later ones let through. -/
theorem mem_along_nil_iff {n : Nat} :
    a ∈ c.along b [] n ↔
      ∃ i < n, a ∈ c.gen ⟨b, i⟩ ∧ ∀ j < n, i < j → c.keep ⟨b, j⟩ a = true := by
  induction n with
  | zero => simp [along]
  | succ n ih =>
      show a ∈ c.step ⟨b, n⟩ (c.along b [] n) ↔ _
      unfold step
      rw [List.mem_append, List.mem_filter, ih]
      constructor
      · rintro (⟨⟨i, hi, hgen, hkeep⟩, hlast⟩ | hgen)
        · refine ⟨i, by omega, hgen, fun j hj hij => ?_⟩
          rcases Nat.lt_succ_iff_lt_or_eq.mp hj with hj | rfl
          · exact hkeep j hj hij
          · exact hlast
        · exact ⟨n, by omega, hgen, fun j hj hnj => by omega⟩
      · rintro ⟨i, hi, hgen, hkeep⟩
        rcases Nat.lt_succ_iff_lt_or_eq.mp hi with hi | rfl
        · exact Or.inl ⟨⟨i, hi, hgen, fun j hj hij => hkeep j (by omega) hij⟩,
            hkeep n (by omega) hi⟩
        · exact Or.inr hgen

theorem keepTo_iff {n : Nat} : c.keepTo b n a = true ↔ ∀ j < n, c.keep ⟨b, j⟩ a = true := by
  unfold keepTo
  simp

/-- A join lists the members of all blocks, each where it occurs first. -/
theorem join_eq [DecidableEq α] (X : BlockId → List α) (ps : List BlockId) :
    join X ps = OrderedSet.ofList (ps.flatMap X) := by
  unfold join OrderedSet.ofList OrderedSet.union
  rw [List.foldl_flatMap]

end Lane

namespace FlowGraph

theorem step_regLane (r : Register) (o : Site) (l : List Site) :
    (g.regLane s r).step o l = if g.sets s o r then [o] else l := by
  unfold Lane.step regLane
  by_cases h : g.sets s o r = true <;> simp [h]

theorem along_regLane_of_not_sets {r : Register} {l : List Site} {n : Nat}
    (h : ∀ i < n, g.sets s ⟨b, i⟩ r = false) : (g.regLane s r).along b l n = l := by
  induction n with
  | zero => rfl
  | succ n ih =>
      show (g.regLane s r).step ⟨b, n⟩ ((g.regLane s r).along b l n) = l
      rw [step_regLane, h n (by omega), ih fun i hi => h i (by omega)]
      rfl

/-- The last instruction that sets a register is its only origin, whatever came before. -/
theorem along_regLane_of_last {r : Register} {l : List Site} {n i : Nat} (hi : i < n)
    (hset : g.sets s ⟨b, i⟩ r = true) (hlast : ∀ j < n, i < j → g.sets s ⟨b, j⟩ r = false) :
    (g.regLane s r).along b l n = [⟨b, i⟩] := by
  induction n with
  | zero => omega
  | succ n ih =>
      show (g.regLane s r).step ⟨b, n⟩ ((g.regLane s r).along b l n) = _
      rw [step_regLane]
      rcases Nat.lt_succ_iff_lt_or_eq.mp hi with hi | rfl
      · rw [hlast n (by omega) hi, ih hi fun j hj => hlast j (by omega)]
        rfl
      · rw [hset]
        rfl

/-- A block adds the store that comes last at a location, unless the base of the location is
moved by the same instruction or behind it. -/
theorem mem_along_memLane_nil_iff {l : Location} {o : Site} :
    (l, o) ∈ (g.memLane s .registersAndMemory).along b [] (g.length b) ↔
      ∃ i, o = ⟨b, i⟩ ∧ g.IsLast b (g.storesTo s · l) i ∧
        ∀ j < g.length b, i ≤ j → g.sets s ⟨b, j⟩ l.base = false := by
  simp only [Lane.mem_along_nil_iff, mem_gen_memLane, keep_memLane]
  constructor
  · rintro ⟨i, hi, ⟨hstores, hsets, rfl⟩, hkeep⟩
    refine ⟨i, rfl, ⟨hi, hstores, fun j hj hij => (hkeep j hj hij).2⟩, fun j hj hij => ?_⟩
    rcases Nat.lt_or_eq_of_le hij with hij | rfl
    · exact (hkeep j hj hij).1
    · exact hsets
  · rintro ⟨i, rfl, ⟨hi, hstores, hlast⟩, hsets⟩
    exact ⟨i, hi, ⟨hstores, hsets i hi (Nat.le_refl i), rfl⟩,
      fun j hj hij => ⟨hsets j hj (Nat.le_of_lt hij), hlast j hj hij⟩⟩

end FlowGraph

/-! ## The step -/

namespace Facts

variable {f f' : Facts}

/-- The origins of `r` that the predecessors of block `b` have, each where it occurs first. -/
def incoming (g : FlowGraph) (f : Facts) (b : BlockId) (r : Register) : List Site :=
  OrderedSet.ofList ((g.predecessors b).flatMap fun p => (f.exposed p).regs.origins r)

/-- Block `b` takes the facts `f` to `f'` in one step. -/
structure Transfers (s : Settings) (g : FlowGraph) (b : BlockId) (f f' : Facts) : Prop where
  /-- The last instruction that sets a register is its one origin. -/
  set : ∀ r i, g.IsLast b (g.sets s · r) i → (f'.exposed b).regs.get? r = some [⟨b, i⟩]
  /-- A register that the block does not set keeps the origins that it came with, and is not
  listed if it came with none. -/
  kept : ∀ r, (∀ i < g.length b, g.sets s ⟨b, i⟩ r = false) →
    (f'.exposed b).regs.get? r = if f.incoming g b r = [] then none else some (f.incoming g b r)
  /-- A cell came from a predecessor and was left alone, or it was stored to by the block, and
  by no later instruction, and its base was not moved from then on. -/
  cell : ∀ l o, (l, o) ∈ (f'.exposed b).mems.cells ↔
    ((∃ p ∈ g.predecessors b, (l, o) ∈ (f.exposed p).mems.cells) ∧
      ∀ i < g.length b, g.storesTo s ⟨b, i⟩ l = false ∧ g.sets s ⟨b, i⟩ l.base = false) ∨
    ∃ i, o = ⟨b, i⟩ ∧ g.IsLast b (g.storesTo s · l) i ∧
      ∀ j < g.length b, i ≤ j → g.sets s ⟨b, j⟩ l.base = false
  /-- No other block exposes anything else than before. -/
  exposed : ∀ d, d ≠ b → f'.exposed d = f.exposed d
  /-- No instruction of another block has another record than before. -/
  record : ∀ o, o.block ≠ b → f'.record? o = f.record? o

theorem noEmpty_union (f : Facts) (ps : List BlockId) : (f.union ps).regs.NoEmpty :=
  union_preserves (P := (·.regs.NoEmpty)) RegTable.noEmpty_empty
    (fun _ p hx => hx.mergeOrigins (f.exposed p).regs) ps

/-- No visit lists a register without origins. -/
theorem Shaped.noEmpty_walk (hf : f.Shaped g) (hplaced : f.Placed) (b : BlockId) :
    (f.walk s g b).facts.exposed.regs.NoEmpty := by
  refine (hf.carries_walk hplaced b).keeps (P := (·.regs.NoEmpty)) ?_ (noEmpty_union f _)
  exact fun p _ i _ hp => Exposed.noEmpty_applyAll p hp _

/-- **A visit of a block is one step**: it is not refused, what the block leaves exposed is
determined by what its predecessors had exposed and by its last instruction for each register
and location, and nothing outside the block is touched. -/
theorem visitBlock_transfers (hg : g.Built) (hf : f.Shaped g) (hplaced : f.Placed)
    (ht : f.tracking = .registersAndMemory) (s : Settings) (hb : b < g.size) :
    (f.visitBlock s g b).fault = none ∧ Transfers s g b f (f.visitBlock s g b).facts := by
  have hcomplete : (f.walk s g b).complete = true := by
    rw [hf.complete_walk, FlowGraph.outgrows]
    simp
  rw [visitBlock_eq (FlowGraph.built_linked hg) hf.size hplaced hb, if_pos hcomplete]
  refine ⟨rfl, ?_⟩
  -- block `b` is now what the walk made of it, and the others are as they were
  have hblock := fun d => block_put_current f b d (f.walk s g b).facts (hf.size.symm ▸ hb)
  have hself : (put { f with current := some b } b (f.walk s g b).facts).exposed b =
      (f.walk s g b).facts.exposed := by
    unfold exposed
    rw [hblock, if_pos rfl]
  have hcarries := hf.carries_walk (s := s) hplaced b
  have hget := (hf.noEmpty_walk (s := s) hplaced b).get?_eq
  have horigins := fun r => hcarries.along (tracks_regLane g s f.tracking r)
  refine ⟨fun r i hi => ?_, fun r hr => ?_, fun l o => ?_, fun d hd => ?_, fun o ho => ?_⟩
  · obtain ⟨hlt, hset, hlast⟩ := hi
    rw [hself, hget, horigins, FlowGraph.along_regLane_of_last hlt hset hlast]
    simp
  · rw [hself, hget, horigins, FlowGraph.along_regLane_of_not_sets hr,
      view_union (tracks_regLane g s f.tracking r), Lane.join_eq]
    rfl
  · have hcells := hcarries.along (tracks_memLane g s f.tracking)
    rw [ht] at hcells
    rw [hself, hcells, Lane.mem_along, FlowGraph.mem_along_memLane_nil_iff, mem_cells_union,
      Lane.keepTo_iff]
    simp only [FlowGraph.keep_memLane, and_comm]
  · unfold exposed
    rw [hblock, if_neg hd]
  · exact record?_congr ((hblock o.block).trans (if_neg ho))

end Facts

/-- A block that goes round: it stores `x0` at `[x2]`, counts it up, and pushes `x1` at `x3`. -/
def FlowGraph.churn : FlowGraph :=
  let blocks := [
    [.decoded 0x100 { opcode := .mov, operands := [.x ⟨0⟩, .imm 0] },
     .decoded 0x104 { opcode := .mov, operands := [.x ⟨1⟩, .imm 7] }],
    [.decoded 0x108 { opcode := .str, operands := [.x ⟨0⟩, .based ⟨2⟩ 0] },
     .decoded 0x10c { opcode := .add, operands := [.x ⟨0⟩, .x ⟨0⟩, .imm 1] },
     .decoded 0x110 { opcode := .str, operands := [.x ⟨1⟩, .based ⟨3⟩ 8], writeback := .preIndex }]]
  ((blocks.foldl addBlock empty).link 0 1).link 1 1

theorem FlowGraph.churn_built : churn.Built :=
  (((Built.empty.addBlock _).addBlock _).link (by decide) (by decide)).link (by decide) (by decide)

namespace Facts

open FlowGraph

/-- The facts about `churn` after one visit of each block. -/
def churnOnce : Facts := ((fresh churn .registersAndMemory).analyze {} churn [[0], [1]]).facts

/-- Another time around, `x0` still comes from the count alone, and `x1` from before the loop.
The store to `[x2]` is there to stay, but the push has moved the base of its own cell. -/
theorem visitBlock_transfers_churn :
    (churnOnce.visitBlock {} churn 1).fault = none ∧
      let x := (churnOnce.visitBlock {} churn 1).facts.exposed 1
      x.regs.get? ⟨0⟩ = some [⟨1, 1⟩] ∧ x.regs.get? ⟨1⟩ = some [⟨0, 1⟩] ∧
        (⟨⟨2⟩, 8, 0⟩, ⟨1, 0⟩) ∈ x.mems.cells ∧ ∀ o, (⟨⟨3⟩, 8, 8⟩, o) ∉ x.mems.cells := by
  have hmade : churnOnce.Made := .analyze _ _ _ (.fresh churn .registersAndMemory)
  have hderived : churnOnce.Derived churn .registersAndMemory := .analyze _ _ churn_built .fresh
  obtain ⟨hfault, h⟩ :=
    visitBlock_transfers churn_built hderived.slotted.toShaped hmade.placed (by decide +kernel) {}
      (show 1 < churn.size by decide)
  refine ⟨hfault, h.set ⟨0⟩ 1 (by decide +kernel), ?_, ?_, fun o ho => ?_⟩
  · exact (h.kept ⟨1⟩ (by decide +kernel)).trans (by decide +kernel)
  · exact (h.cell _ _).mpr (Or.inr ⟨0, rfl, by decide +kernel, by decide +kernel⟩)
  · have hpush : churn.sets {} ⟨1, 2⟩ ⟨3⟩ = true := by decide +kernel
    rcases (h.cell _ _).mp ho with ⟨_, hleft⟩ | ⟨i, _, hi, hstill⟩
    · exact absurd (hpush.symm.trans (hleft 2 (by decide)).2) (by decide)
    · exact absurd (hpush.symm.trans (hstill 2 (by decide) (Nat.le_of_lt_succ hi.1))) (by decide)

end Facts

end ReachingDefs
