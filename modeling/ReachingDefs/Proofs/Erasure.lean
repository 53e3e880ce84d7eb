import ReachingDefs.Proofs.Completeness
import ReachingDefs.Proofs.Replay

/-!
# Registers do not depend on memory

Tracking memory makes records and exposed sets larger. It does not make them different
otherwise: dropping the memory side of everything gives what an analysis of registers
alone would have found. Every operation commutes with the dropping, from single effects
up to a sweep.

The passes over a group do not, at first sight. They may go on because of memory, when
registers alone would have come to an end. But passes that find nothing change nothing,
so both analyses are sweeps over the same blocks.
-/

namespace ReachingDefs

variable {g : FlowGraph} {s : Settings} {tracking : Tracking} {b : BlockId}

/-! ## Dropping memory -/

def Exposed.dropMemory (x : Exposed) : Exposed := { regs := x.regs }

def Record.dropMemory (x : Record) : Record := { x with mem := none }

def Point.dropMemory (p : Point) : Point := ⟨p.exposed.dropMemory, p.record.dropMemory⟩

def BlockFacts.dropMemory (f : BlockFacts) : BlockFacts :=
  ⟨f.exposed.dropMemory, f.slots.map (·.map Record.dropMemory)⟩

/-- The facts without their memory side: no stores exposed, and records of registers
only. -/
def Facts.dropMemory (f : Facts) : Facts where
  tracking := .registers
  blocks := f.blocks.map BlockFacts.dropMemory
  current := f.current

/-! ## Through the instructions of a block -/

namespace Point

theorem dropMemory_apply (p : Point) (e : Effect) :
    (p.apply tracking e).dropMemory = p.dropMemory.apply .registers e := by
  cases e with
  | use r =>
      dsimp only [apply]
      split
      · rfl
      · rw [Record.linkReg_eq, Record.linkReg_eq]
        rfl
  | load place dst =>
      dsimp only [apply]
      split
      · rw [Record.linkMem_eq]
        rfl
      · rfl
  | define r v =>
      dsimp only [apply]
      split
      · rfl
      · cases tracking <;> rfl
  | store place src =>
      dsimp only [apply, Exposed.setMem]
      split
      · split <;> rfl
      · rfl

theorem dropMemory_applyAll (p : Point) (es : List Effect) :
    (p.applyAll tracking es).dropMemory = p.dropMemory.applyAll .registers es := by
  unfold applyAll
  induction es generalizing p with
  | nil => rfl
  | cons e es ih => rw [List.foldl_cons, List.foldl_cons, ih, dropMemory_apply]

theorem dropMemory_visit (p : Point) (i : Instruction) :
    (p.visit s tracking i).dropMemory = p.dropMemory.visit s .registers i :=
  dropMemory_applyAll p _

end Point

theorem dropMemory_visitFrom (index : Nat) (is : List Instruction) (f : BlockFacts) :
    (visitFrom s tracking b index is f).facts.dropMemory =
        (visitFrom s .registers b index is f.dropMemory).facts ∧
      (visitFrom s tracking b index is f).complete =
        (visitFrom s .registers b index is f.dropMemory).complete := by
  induction is generalizing index f with
  | nil => exact ⟨rfl, rfl⟩
  | cons i rest ih =>
      obtain ⟨x, _ | ⟨slot, slots⟩⟩ := f
      · exact ⟨rfl, rfl⟩
      · -- the instruction is visited with the same record, but for the memory side
        let p : Point := ⟨x, slot.getD (.fresh ⟨b, index⟩ i.address tracking)⟩
        let p' : Point := ⟨x.dropMemory,
          (slot.map Record.dropMemory).getD (.fresh ⟨b, index⟩ i.address .registers)⟩
        have hp : p' = p.dropMemory := by cases slot <;> rfl
        have hq : p'.visit s .registers i = (p.visit s tracking i).dropMemory := by
          rw [hp, Point.dropMemory_visit]
        have hrest := ih (index + 1) ⟨(p.visit s tracking i).exposed, slots⟩
        let v' := visitFrom s .registers b (index + 1) rest
          ⟨(p'.visit s .registers i).exposed, slots.map (·.map Record.dropMemory)⟩
        have hv' : v' = visitFrom s .registers b (index + 1) rest
            (BlockFacts.dropMemory ⟨(p.visit s tracking i).exposed, slots⟩) :=
          congrArg (fun q : Point => visitFrom s .registers b (index + 1) rest
            ⟨q.exposed, slots.map (·.map Record.dropMemory)⟩) hq
        rw [← hv'] at hrest
        refine ⟨?_, hrest.2⟩
        show _ = { v'.facts with slots := some (p'.visit s .registers i).record :: v'.facts.slots }
        rw [← hrest.1, hq]
        rfl

/-! ## From block to block -/

namespace Facts

variable {f : Facts}

theorem block_dropMemory (f : Facts) (b : BlockId) :
    f.dropMemory.block b = (f.block b).dropMemory := by
  unfold block dropMemory
  rw [Array.getD_eq_getD_getElem?, Array.getD_eq_getD_getElem?, Array.getElem?_map]
  cases f.blocks[b]? <;> rfl

theorem union_dropMemory (f : Facts) (ps : List BlockId) :
    f.dropMemory.union ps = (f.union ps).dropMemory := by
  have hfold : ∀ x : Exposed,
      ps.foldl (fun x b => x.merge (f.dropMemory.exposed b)) x.dropMemory =
        (ps.foldl (fun x b => x.merge (f.exposed b)) x).dropMemory := by
    induction ps with
    | nil => exact fun _ => rfl
    | cons p ps ih =>
        intro x
        rw [List.foldl_cons, List.foldl_cons, ← ih]
        unfold exposed
        rw [block_dropMemory]
        rfl
  exact hfold {}

theorem fresh_dropMemory (g : FlowGraph) (tracking : Tracking) :
    (fresh g tracking).dropMemory = fresh g .registers := by
  unfold dropMemory fresh
  simp [Function.comp_def, BlockFacts.dropMemory, Exposed.dropMemory]

/-- **A visit of a block commutes with the dropping of memory.** -/
theorem visitBlock_dropMemory (hg : g.Linked) (hf : f.Fits g) (hf' : f.dropMemory.Fits g)
    (hb : b < g.size) :
    (f.dropMemory.visitBlock s g b).facts = (f.visitBlock s g b).facts.dropMemory := by
  have hwalk : (f.dropMemory.walk s g b).facts = (f.walk s g b).facts.dropMemory := by
    unfold walk
    rw [union_dropMemory, block_dropMemory]
    exact (dropMemory_visitFrom 0 _ ⟨f.union (g.predecessors b), (f.block b).slots⟩).1.symm
  rw [visitBlock_eq hg hf.size hf.placed hb, visitBlock_eq hg hf'.size hf'.placed hb]
  unfold put dropMemory at *
  dsimp only at hwalk ⊢
  rw [hwalk, Array.map_setIfInBounds]

theorem sweep_dropMemory (hg : g.Linked) {bs : List BlockId} (hbs : ∀ b ∈ bs, b < g.size)
    (hf : f.Fits g) (hf' : f.dropMemory.Fits g) :
    (f.dropMemory.sweep s g bs).facts = (f.sweep s g bs).facts.dropMemory := by
  induction bs generalizing f with
  | nil => rfl
  | cons b bs ih =>
      have hb : b < g.size := hbs b List.mem_cons_self
      obtain ⟨hfault, hv⟩ := visitBlock_visits (s := s) hg hf hb
      obtain ⟨hfault', hv'⟩ := visitBlock_visits (s := s) hg hf' hb
      have hfits := hv'.fits hf'
      rw [facts_sweep_cons hfault, facts_sweep_cons hfault']
      rw [visitBlock_dropMemory hg hf hf' hb] at hfits ⊢
      exact ih (fun d hd => hbs d (List.mem_cons_of_mem _ hd)) (hv.fits hf) hfits

/-- **Tracking memory has no influence on the facts about registers**: an analysis of
registers alone is refused when one that tracks memory is refused, which never happens to
groups of blocks that are there. Otherwise it finds the same records and exposes the
same origins in the same order, without any memory. -/
theorem analyze_registers (hg : g.Built) (s : Settings) (order : List (List BlockId)) :
    let alone := (fresh g .registers).analyze s g order
    let both := (fresh g .registersAndMemory).analyze s g order
    alone.facts = both.facts.dropMemory ∧ alone.fault = both.fault ∧
      ((∀ b ∈ order.flatten, b < g.size) → both.fault = none) := by
  have hlinked := FlowGraph.built_linked hg
  have hfresh := fresh_dropMemory g .registersAndMemory
  have hfits := fun tracking => fresh_fits g tracking
  by_cases horder : ∀ b ∈ order.flatten, b < g.size
  · have hgroups : ∀ group ∈ order, ∀ b ∈ group, b < g.size := fun group hgroup b hb =>
      horder b (List.mem_flatten.mpr ⟨group, hgroup, hb⟩)
    have hfault := fun tracking => analyzeGroups_fault (s := s) hlinked hgroups (hfits tracking)
    simp only [analyze_eq_analyzeGroups (hfits _).size horder, hfault, implies_true, and_true]
    -- both are sweeps over the blocks of one plan
    have hplan : ∀ b ∈ plan s g order, b < g.size := fun b hb =>
      horder b (mem_flatten_of_mem_plan hb)
    rw [facts_analyzeGroups hlinked hgroups (hfits _) (fresh_proper g s _),
      facts_analyzeGroups hlinked hgroups (hfits _) (fresh_proper g s _), ← hfresh]
    exact sweep_dropMemory hlinked hplan (hfits _) (hfresh.symm ▸ hfits _)
  · have haccept : ∀ tracking, (fresh g tracking).accept g order ≠ .ok () := by
      intro tracking hok
      unfold accept at hok
      rw [if_pos (hfits tracking).size.symm] at hok
      exact horder (Fault.unlessOutOfRange_eq_ok.mp hok).1
    have hsame : (fresh g .registers).accept g order =
        (fresh g .registersAndMemory).accept g order := rfl
    unfold analyze
    rw [hsame]
    cases herror : (fresh g .registersAndMemory).accept g order with
    | error fault => exact ⟨hfresh.symm, rfl, fun h => absurd h horder⟩
    | ok u => exact absurd herror (haccept _)

/-- On `tally`, with blocks in an odd order and a group that is no component, the load and
the store leave no trace in what is found about registers. -/
theorem analyze_registers_tally :
    let alone := (fresh .tally .registers).analyze { level := 3 } .tally [[2, 1], [0, 2], [1]]
    let both := (fresh .tally .registersAndMemory).analyze { level := 3 } .tally
      [[2, 1], [0, 2], [1]]
    alone.facts = both.facts.dropMemory ∧ alone.fault = none ∧ both.fault = none := by
  obtain ⟨hfacts, hfault, hnone⟩ :=
    analyze_registers FlowGraph.tally_built { level := 3 } [[2, 1], [0, 2], [1]]
  have hboth := hnone (by decide)
  exact ⟨hfacts, hfault.trans hboth, hboth⟩

end Facts

end ReachingDefs
