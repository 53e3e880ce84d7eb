import ReachingDefs.Proofs.Completeness

/-!
# Nothing is made up

Every origin that the analysis lists is genuine: there is a path from it, and nothing
on the path stands in the way. This needs no bound on the passes, no topological order
and no end of the iteration. It holds after every visit of every block, so it holds
for any sequence of analyses, over any groups of blocks.

As with completeness the argument is about lanes. A visit adds up what the
predecessors list, and what arrives at the end of a predecessor arrives at the start
of the block; from there the instructions take it along.
-/

namespace ReachingDefs

/-- The members of a lane tell which instruction adds them. -/
def Lane.Signed {α : Type} (c : Lane α) (origin : α → Site) : Prop :=
  ∀ o a, a ∈ c.gen o → origin a = o

namespace FlowGraph

variable {g : FlowGraph} {s : Settings} {r : Register}

theorem regLane_signed : (g.regLane s r).Signed id := fun _ _ h => (mem_gen_regLane.mp h).2

theorem memLane_signed : (g.memLane s .registersAndMemory).Signed (·.2) :=
  fun _ _ h => (mem_gen_memLane.mp h).2.2

end FlowGraph

namespace Facts

variable {g : FlowGraph} {s : Settings} {b : BlockId}

/-- The facts that some sequence of analyses can lead to, from no facts. The groups and
the level may change from one to the next, the graph and the enabled opcodes may not. -/
inductive Analyzed (g : FlowGraph) (tracking : Tracking) (enabled : List Opcode) :
    Facts → Prop where
  | fresh : Analyzed g tracking enabled (.fresh g tracking)
  | analyze {f : Facts} (level : Nat) (order : List (List BlockId)) :
      Analyzed g tracking enabled f →
      Analyzed g tracking enabled (f.analyze ⟨level, enabled⟩ g order).facts

/-- **What every visit keeps holds after every sequence of analyses.** Visits depend on the
enabled opcodes only, so one invariant serves all levels. -/
theorem Analyzed.induct {tracking : Tracking} {enabled : List Opcode} {f : Facts}
    (h : Analyzed g tracking enabled f) (hg : g.Linked) {P : Facts → Prop}
    (hfits : ∀ f, P f → f.Fits g) (hfresh : P (.fresh g tracking))
    (hvisit : ∀ f f' b, P f → Visits { enabled } g b f f' → P f') : P f := by
  induction h with
  | fresh => exact hfresh
  | analyze level order _ ih =>
      refine analyze_preserves ?_ order ih
      intro f b hf
      have hlevel : f.visitBlock ⟨level, enabled⟩ g b = f.visitBlock { enabled } g b :=
        visitBlock_congr (by rfl) b f
      rw [hlevel]
      exact visitBlock_preserves hg hfits hvisit f b hf

/-- What the blocks list on the lanes has come along paths, from instructions that have
been visited. -/
structure Genuine (g : FlowGraph) (s : Settings) (f : Facts) : Prop where
  fits : f.Fits g
  lists : ∀ {α : Type} [DecidableEq α] {c : Lane α} {view : Exposed → List α} {origin : α → Site},
    Tracks g s f.tracking c view → c.Signed origin → ∀ {b a}, a ∈ f.lists view b →
    c.Arrives g a ⟨b, g.length b⟩ ∧ (f.record? (origin a)).isSome = true

section Lanes

variable {α : Type} [DecidableEq α] {c : Lane α} {view : Exposed → List α} {origin : α → Site}

/-- Whatever is exposed on the way through a block has come along a path. -/
theorem Genuine.carried {f f' : Facts} (h : Genuine g s f) (hg : g.Linked)
    (hv : Visits s g b f f') (hc : Tracks g s f.tracking c view) (hsigned : c.Signed origin)
    {i : Nat} (hi : i ≤ g.length b) {x : Exposed}
    (hx : Carries g s f.tracking b (f.union (g.predecessors b)) i x) {a : α} (ha : a ∈ view x) :
    c.Arrives g a ⟨b, i⟩ ∧ (f'.record? (origin a)).isSome = true := by
  rw [hx.along hc, view_union hc] at ha
  constructor
  -- what a predecessor lists arrives at its end, and so at the start of the block
  · refine Lane.arrives_along ?_ hi ha
    intro y hy
    obtain ⟨p, hp, hy⟩ := Lane.mem_join.mp hy
    exact (h.lists hc hsigned hy).1.jump ((hg.symm p b).mpr hp)
  · rcases Lane.mem_along.mp ha with ⟨hmem, _⟩ | hgen
    · obtain ⟨p, _, hy⟩ := Lane.mem_join.mp hmem
      exact hv.record_isSome h.fits (h.lists hc hsigned hy).2
    · -- the block itself added it, and has just been visited
      obtain ⟨j, hj, hgen⟩ := Lane.mem_gen_of_mem_along hgen
      have hj' : j < g.length b := by omega
      obtain ⟨k, hk⟩ := (FlowGraph.exists_instruction_iff (o := ⟨b, j⟩)).mpr hj'
      obtain ⟨p, _, _, _, hrecord⟩ := hv.record ⟨b, j⟩ k rfl hk
      rw [hsigned _ _ hgen, hrecord]
      rfl

end Lanes

theorem Genuine.visits {f f' : Facts} (h : Genuine g s f) (hg : g.Linked)
    (hv : Visits s g b f f') : Genuine g s f' := by
  refine ⟨hv.fits h.fits, ?_⟩
  intro α _ c view origin hc hsigned d a ha
  rw [hv.tracking] at hc
  by_cases hd : d = b
  · subst hd
    exact h.carried hg hv hc hsigned (Nat.le_refl _) hv.exposed ha
  · unfold Facts.lists exposed at ha
    rw [hv.others d hd] at ha
    obtain ⟨harrives, hsome⟩ := h.lists hc hsigned ha
    exact ⟨harrives, hv.record_isSome h.fits hsome⟩

/-! ## Registers -/

/-- What the records note about registers is genuine too, and they note every definition. -/
structure RefsGenuine (g : FlowGraph) (s : Settings) (f : Facts) : Prop where
  genuine : Genuine g s f
  refs : ∀ {q x r o}, f.record? q = some x → o ∈ x.refs.origins r →
    (g.regLane s r).Arrives g o q ∧ (f.record? o).isSome = true
  defs : ∀ {o x r}, f.record? o = some x → g.sets s o r = true → (x.defs.get? r).isSome = true

theorem RefsGenuine.visits {f f' : Facts} (h : RefsGenuine g s f) (hg : g.Linked)
    (hv : Visits s g b f f') : RefsGenuine g s f' := by
  have hfits := h.genuine.fits
  refine ⟨h.genuine.visits hg hv, ?_, ?_⟩
  · intro q x r o hx ho
    have hfresh : ∀ q address, o ∉ (Record.fresh q address f.tracking).refs.origins r :=
      fun _ _ => List.not_mem_nil
    rcases hv.record_cases (P := (o ∈ ·.refs.origins r)) hfits hfresh hx ho with
      ⟨y, hy, hold⟩ | hadded
    · obtain ⟨harrives, hsome⟩ := h.refs hy hold
      exact ⟨harrives, hv.record_isSome hfits hsome⟩
    · obtain ⟨i, p, rfl, hle, hp, hcarries, hnot, hnew⟩ := hadded
      have hexposed := (((hp.mem_refs r o).mp hnew).resolve_left hnot).2
      exact h.genuine.carried hg hv (tracks_regLane g s _ r) FlowGraph.regLane_signed hle
        hcarries hexposed
  · intro o x r hx hset
    by_cases ho : o.block = b
    · obtain ⟨i, p, hp, _, _, _, rfl⟩ := hv.record_eq hfits ho hx
      exact (hp.isSome_defs r).mpr (Or.inr hset)
    · rw [record?_congr (hv.others _ ho)] at hx
      exact h.defs hx hset

theorem refsGenuine_fresh (g : FlowGraph) (s : Settings) (tracking : Tracking) :
    RefsGenuine g s (.fresh g tracking) := by
  refine ⟨⟨fresh_fits g tracking, ?_⟩, ?_, ?_⟩
  · intro α _ c view origin hc _ b a ha
    unfold Facts.lists at ha
    rw [exposed_fresh, hc.empty] at ha
    exact absurd ha List.not_mem_nil
  · intro q x r o hx
    rw [record?_fresh] at hx
    cases hx
  · intro o x r hx
    rw [record?_fresh] at hx
    cases hx

/-- **Preserved by every sequence of analyses.** -/
theorem refsGenuine_of_analyzed (hg : g.Linked) {tracking : Tracking} {enabled : List Opcode}
    {f : Facts} (h : Analyzed g tracking enabled f) : RefsGenuine g { enabled } f :=
  h.induct hg (fun _ hf => hf.genuine.fits) (refsGenuine_fresh ..) fun _ _ _ hf hv =>
    hf.visits hg hv

/-- `o` may have written what `r` holds at `q`: its record has a definition of `r`, and
there is a path from it to `q` without another one. -/
structure Reaches (f : Facts) (g : FlowGraph) (s : Settings) (r : Register) (o q : Site) :
    Prop where
  defined : ∃ x, f.record? o = some x ∧ (x.defs.get? r).isSome = true
  path : ∃ path, g.Path o (o :: path) q ∧ ∀ i ∈ path, g.sets s i r = false

theorem RefsGenuine.reaches {f : Facts} (h : RefsGenuine g s f) {r : Register} {o q : Site}
    (harrives : (g.regLane s r).Arrives g o q) (hsome : (f.record? o).isSome = true) :
    f.Reaches g s r o q := by
  obtain ⟨hset, hpath⟩ := FlowGraph.arrives_regLane_iff.mp harrives
  obtain ⟨x, hx⟩ := Option.isSome_iff_exists.mp hsome
  exact ⟨⟨x, hx, h.defs hx hset⟩, hpath⟩

/-- **No origin of a register is made up**, whatever groups were analysed, in whatever
order and with however many passes: neither in a record nor in what a block exposes. -/
theorem register_origins_genuine (hg : g.Built) {tracking : Tracking} {enabled : List Opcode}
    {f : Facts} (hf : Analyzed g tracking enabled f) :
    (∀ q x r o, f.record? q = some x → o ∈ x.refs.origins r →
      f.Reaches g { enabled } r o q) ∧
    (∀ b r o, o ∈ (f.exposed b).regs.origins r →
      f.Reaches g { enabled } r o ⟨b, g.length b⟩) := by
  have h := refsGenuine_of_analyzed (FlowGraph.built_linked hg) hf
  constructor
  · intro q x r o hx ho
    obtain ⟨harrives, hsome⟩ := h.refs hx ho
    exact h.reaches harrives hsome
  · intro b r o ho
    obtain ⟨harrives, hsome⟩ := h.genuine.lists (tracks_regLane g _ _ r) FlowGraph.regLane_signed ho
    exact h.reaches harrives hsome

/-- The facts about `tally` after an analysis back to front, and then another one with all
blocks in one group and the first block of the loop once more. -/
def tallyTwice : Facts :=
  (((fresh .tally .registers).analyze ⟨0, []⟩ .tally [[2], [1], [0]]).facts.analyze ⟨1, []⟩ .tally
    [[1, 2, 0], [1]]).facts

/-- The count that the loop reads comes from around the loop, and from a path. -/
theorem register_origins_genuine_tally :
    ∃ x, tallyTwice.record? ⟨1, 1⟩ = some x ∧ ⟨1, 1⟩ ∈ x.refs.origins ⟨0⟩ ∧
      tallyTwice.Reaches .tally { enabled := [] } ⟨0⟩ ⟨1, 1⟩ ⟨1, 1⟩ := by
  have hf : Analyzed .tally .registers [] tallyTwice := .analyze 1 _ (.analyze 0 _ .fresh)
  have hany : (tallyTwice.record? ⟨1, 1⟩).any (⟨1, 1⟩ ∈ ·.refs.origins ⟨0⟩) = true := by
    decide +kernel
  obtain ⟨x, hx, ho⟩ := (Option.any_eq_true ..).mp hany
  have ho := of_decide_eq_true ho
  exact ⟨x, hx, ho, (register_origins_genuine FlowGraph.tally_built hf).1 _ x _ _ hx ho⟩

/-! ## Memory -/

/-- What the records note about memory is genuine, and they note every store. -/
structure LoadsGenuine (g : FlowGraph) (s : Settings) (f : Facts) : Prop where
  genuine : Genuine g s f
  tracking : f.tracking = .registersAndMemory
  refs : ∀ {q x dst o}, f.record? q = some x → o ∈ x.memOrigins dst →
    ∃ l, g.loadsFrom s q l dst = true ∧ (g.memLane s .registersAndMemory).Arrives g (l, o) q ∧
      (f.record? o).isSome = true
  stores : ∀ {o x}, f.record? o = some x → (g.effectsAt s o).any Effect.isStore = true →
    x.stores = true

theorem LoadsGenuine.visits {f f' : Facts} (h : LoadsGenuine g s f) (hg : g.Linked)
    (hv : Visits s g b f f') : LoadsGenuine g s f' := by
  have hfits := h.genuine.fits
  refine ⟨h.genuine.visits hg hv, hv.tracking.trans h.tracking, ?_, ?_⟩
  · intro q x dst o hx ho
    have hfresh : ∀ q address, o ∉ (Record.fresh q address f.tracking).memOrigins dst := by
      intro q address
      rw [h.tracking]
      exact List.not_mem_nil
    rcases hv.record_cases (P := (o ∈ ·.memOrigins dst)) hfits hfresh hx ho with
      ⟨y, hy, hold⟩ | hadded
    · obtain ⟨l, hload, harrives, hsome⟩ := h.refs hy hold
      exact ⟨l, hload, harrives, hv.record_isSome hfits hsome⟩
    · obtain ⟨i, p, rfl, hle, hp, hcarries, hnot, hnew⟩ := hadded
      have hmemory : f.tracking.memory = true := h.tracking ▸ rfl
      obtain ⟨l, hload, hcell⟩ := ((hp.mem_memOrigins hmemory dst o).mp hnew).resolve_left hnot
      -- the cell has come along a path
      have hsigned : (g.memLane s f.tracking).Signed (·.2) := h.tracking ▸ FlowGraph.memLane_signed
      obtain ⟨harrives, hsome⟩ :=
        h.genuine.carried hg hv (tracks_memLane g s _) hsigned hle hcarries hcell
      exact ⟨l, hload, h.tracking ▸ harrives, hsome⟩
  · intro o x hx hstore
    by_cases ho : o.block = b
    · obtain ⟨i, p, hp, _, _, _, rfl⟩ := hv.record_eq hfits ho hx
      rw [h.tracking] at hp ⊢
      exact (hp.stores_iff rfl).mpr (Or.inr hstore)
    · rw [record?_congr (hv.others _ ho)] at hx
      exact h.stores hx hstore

theorem loadsGenuine_fresh (g : FlowGraph) (s : Settings) :
    LoadsGenuine g s (.fresh g .registersAndMemory) := by
  refine ⟨(refsGenuine_fresh g s _).genuine, rfl, ?_, ?_⟩
  · intro q x dst o hx
    rw [record?_fresh] at hx
    cases hx
  · intro o x hx
    rw [record?_fresh] at hx
    cases hx

theorem loadsGenuine_of_analyzed (hg : g.Linked) {enabled : List Opcode} {f : Facts}
    (h : Analyzed g .registersAndMemory enabled f) : LoadsGenuine g { enabled } f :=
  h.induct hg (fun _ hf => hf.genuine.fits) (loadsGenuine_fresh ..) fun _ _ _ hf hv =>
    hf.visits hg hv

/-- `o` may have written what is loaded into `dst` at `q`: its record has a store, both
access one location, and there is a path from `o` to `q` on which the location is not
stored to again and its base keeps its value. -/
structure Supplies (f : Facts) (g : FlowGraph) (s : Settings) (dst : Register) (o q : Site) :
    Prop where
  stored : ∃ x, f.record? o = some x ∧ x.stores = true
  path : ∃ l path, g.storesTo s o l = true ∧ g.loadsFrom s q l dst = true ∧
    g.Path o (o :: path) q ∧ g.sets s o l.base = false ∧
    (∀ i ∈ path, g.sets s i l.base = false ∧ g.storesTo s i l = false) ∧
    ∀ {β : Type} (v v' : Register → β), g.Executes s (o :: path) v v' → v' l.base = v l.base

/-- **No store is made up**, whatever groups were analysed, in whatever order and with
however many passes: every origin of what is loaded stored to the location that is loaded
from, through the same value of the base. -/
theorem load_origins_genuine (hg : g.Built) {enabled : List Opcode} {f : Facts}
    (hf : Analyzed g .registersAndMemory enabled f) :
    ∀ q x dst os o, f.record? q = some x → x.memRef? dst = some os → o ∈ os →
      f.Supplies g { enabled } dst o q := by
  intro q x dst os o hx hos ho
  have h := loadsGenuine_of_analyzed (FlowGraph.built_linked hg) hf
  obtain ⟨l, hload, harrives, hsome⟩ := h.refs hx (Record.mem_memOrigins.mpr ⟨os, hos, ho⟩)
  obtain ⟨hstored, hset, path, hpath, hkept⟩ := FlowGraph.arrives_memLane_iff.mp harrives
  obtain ⟨y, hy⟩ := Option.isSome_iff_exists.mp hsome
  constructor
  · have hany : (g.effectsAt { enabled } o).any Effect.isStore = true := by
      obtain ⟨e, he, hl⟩ := List.any_eq_true.mp hstored
      refine List.any_eq_true.mpr ⟨e, he, ?_⟩
      cases e <;> simp_all [Effect.storesTo, Effect.isStore]
    exact ⟨y, hy, h.stores hy hany⟩
  · refine ⟨l, path, hstored, hload, hpath, hset, hkept, ?_⟩
    intro β v v' hexecutes
    refine hexecutes.keeps fun i hi => ?_
    rcases List.mem_cons.mp hi with rfl | hi
    · exact hset
    · exact (hkept i hi).1

/-- The facts about `tally` with memory, after the block with the store and then the whole
loop, in two analyses. -/
def tallyStores : Facts :=
  (((fresh .tally .registersAndMemory).analyze ⟨0, []⟩ .tally [[2]]).facts.analyze ⟨1, []⟩ .tally
    [[1, 2], [0, 1]]).facts

/-- What the loop loads is what it stored itself, through the same `x2`. -/
theorem load_origins_genuine_tally :
    ∃ x os, tallyStores.record? ⟨1, 0⟩ = some x ∧ x.memRef? ⟨1⟩ = some os ∧ ⟨2, 0⟩ ∈ os ∧
      tallyStores.Supplies .tally { enabled := [] } ⟨1⟩ ⟨2, 0⟩ ⟨1, 0⟩ := by
  have hf : Analyzed .tally .registersAndMemory [] tallyStores := .analyze 1 _ (.analyze 0 _ .fresh)
  have hany : (tallyStores.record? ⟨1, 0⟩).any (⟨2, 0⟩ ∈ ·.memOrigins ⟨1⟩) = true := by
    decide +kernel
  obtain ⟨x, hx, ho⟩ := (Option.any_eq_true ..).mp hany
  obtain ⟨os, hos, ho⟩ := Record.mem_memOrigins.mp (of_decide_eq_true ho)
  exact ⟨x, os, hx, hos, ho,
    load_origins_genuine FlowGraph.tally_built hf _ x _ os _ hx hos ho⟩

end Facts

end ReachingDefs
