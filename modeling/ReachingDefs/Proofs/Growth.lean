import Mathlib.Data.List.Flatten
import ReachingDefs.Proofs.Completeness
import ReachingDefs.Proofs.Replay

/-!
# More passes find no less

The level bounds the passes over a cyclic group. A higher level can only add to what is
found, and that is not plain from the single visits: a visit replaces what its block
exposes, and a definition drops what it overwrites.

Two facts are behind it. Visits are monotone: from facts that say more they lead to facts
that say more. And on the way from no facts nothing is ever lost: what a block exposes was
computed from its predecessors when they exposed less than they do now, so another visit
finds it again. Facts with this property are *rising*, and visits keep them so. A longer
sweep, with more visits between those of a shorter one, is then never behind it.
-/

namespace ReachingDefs

variable {g : FlowGraph} {s : Settings} {tracking : Tracking} {b : BlockId}

/-! ## Saying no more than others -/

/-- Every origin and every cell of `x` is one of `y`. -/
structure Exposed.Below (x y : Exposed) : Prop where
  regs : ∀ r, x.regs.origins r ⊆ y.regs.origins r
  cells : x.mems.cells ⊆ y.mems.cells

/-- Every origin that `x` notes, `y` notes as well. -/
structure Record.Below (x y : Record) : Prop where
  refs : ∀ r, x.refs.origins r ⊆ y.refs.origins r
  memRefs : ∀ r, x.memOrigins r ⊆ y.memOrigins r

/-- Whatever `f` lists, in a record or in what a block exposes, `f'` lists as well. -/
structure Facts.Below (f f' : Facts) : Prop where
  tracking : f'.tracking = f.tracking
  exposed : ∀ b, (f.exposed b).Below (f'.exposed b)
  record : ∀ o x, f.record? o = some x → ∃ y, f'.record? o = some y ∧ x.Below y

theorem Exposed.Below.refl (x : Exposed) : x.Below x :=
  ⟨fun _ => List.Subset.refl _, List.Subset.refl _⟩

theorem Exposed.Below.trans {x y z : Exposed} (h : x.Below y) (h' : y.Below z) : x.Below z :=
  ⟨fun r => List.Subset.trans (h.regs r) (h'.regs r), List.Subset.trans h.cells h'.cells⟩

theorem Exposed.empty_below (x : Exposed) : Exposed.Below {} x :=
  ⟨fun _ => List.nil_subset _, List.nil_subset _⟩

theorem Record.Below.refl (x : Record) : x.Below x :=
  ⟨fun _ => List.Subset.refl _, fun _ => List.Subset.refl _⟩

theorem Record.Below.trans {x y z : Record} (h : x.Below y) (h' : y.Below z) : x.Below z :=
  ⟨fun r => List.Subset.trans (h.refs r) (h'.refs r),
    fun r => List.Subset.trans (h.memRefs r) (h'.memRefs r)⟩

theorem Record.fresh_below (o : Site) (address : UInt64) (tracking : Tracking) (x : Record) :
    (fresh o address tracking).Below x := by
  refine ⟨fun _ => List.nil_subset _, fun _ => ?_⟩
  cases tracking <;> exact List.nil_subset _

theorem Facts.Below.refl (f : Facts) : f.Below f :=
  ⟨rfl, fun _ => .refl _, fun _ x hx => ⟨x, hx, .refl x⟩⟩

theorem Facts.Below.trans {f f' f'' : Facts} (h : f.Below f') (h' : f'.Below f'') :
    f.Below f'' := by
  refine ⟨h'.tracking.trans h.tracking, fun b => (h.exposed b).trans (h'.exposed b), ?_⟩
  intro o x hx
  obtain ⟨y, hy, hxy⟩ := h.record o x hx
  obtain ⟨z, hz, hyz⟩ := h'.record o y hy
  exact ⟨z, hz, hxy.trans hyz⟩

/-! ## Visits are monotone -/

section Point

variable {p p' : Point} {o : Site} {i : Instruction}

/-- A record loses nothing when its instruction is visited. -/
theorem Point.Stands.record_below (h : p.Stands g tracking o i) :
    p.record.Below (p.visit s tracking i).record := by
  refine ⟨fun r d hd => (h.mem_refs r d).mpr (Or.inl hd), fun r d hd => ?_⟩
  by_cases ht : tracking.memory = true
  · exact (h.mem_memOrigins ht r d).mpr (Or.inl hd)
  · -- there is no memory side to note anything
    rw [h.memOrigins_eq_nil ht] at hd
    exact absurd hd List.not_mem_nil

/-- The more is exposed in front of an instruction, the more a visit of it notes. -/
theorem Point.Stands.below (h : p.Stands g tracking o i) (h' : p'.Stands g tracking o i)
    (hx : p.exposed.Below p'.exposed) (hr : p.record.Below p'.record) :
    (p.visit s tracking i).record.Below (p'.visit s tracking i).record := by
  constructor
  · intro r d hd
    rw [h.mem_refs] at hd
    rw [h'.mem_refs]
    exact hd.imp (fun hd => hr.refs r hd) (And.imp_right fun hd => hx.regs r hd)
  · intro r d hd
    by_cases ht : tracking.memory = true
    · rw [h.mem_memOrigins ht] at hd
      rw [h'.mem_memOrigins ht]
      exact hd.imp (fun hd => hr.memRefs r hd)
        fun ⟨l, hl, hd⟩ => ⟨l, hl, hx.cells hd⟩
    · rw [h.visited.memOrigins_eq_nil ht] at hd
      exact absurd hd List.not_mem_nil

end Point

/-- The more is exposed at the start of a block, the more is carried through it. -/
theorem Carries.below {start start' x y : Exposed} {n : Nat}
    (hx : Carries g s tracking b start n x) (hy : Carries g s tracking b start' n y)
    (h : start.Below start') : x.Below y := by
  constructor
  · intro r
    rw [hx.along (tracks_regLane g s tracking r), hy.along (tracks_regLane g s tracking r)]
    exact Lane.along_subset (h.regs r)
  · rw [hx.along (tracks_memLane g s tracking), hy.along (tracks_memLane g s tracking)]
    exact Lane.along_subset h.cells

namespace Facts

variable {f f' h h' : Facts}

theorem union_below {ps : List BlockId}
    (hps : ∀ p ∈ ps, (f.exposed p).Below (f'.exposed p)) : (f.union ps).Below (f'.union ps) := by
  constructor
  · intro r o ho
    rw [mem_origins_union] at ho ⊢
    obtain ⟨p, hp, ho⟩ := ho
    exact ⟨p, hp, (hps p hp).regs r ho⟩
  · intro c hc
    rw [mem_cells_union] at hc ⊢
    obtain ⟨p, hp, hc⟩ := hc
    exact ⟨p, hp, (hps p hp).cells hc⟩

/-- **Visits of a block are monotone.** -/
theorem Visits.below (hv : Visits s g b f h) (hv' : Visits s g b f' h') (hf : f.Fits g)
    (hle : f.Below f') : h.Below h' := by
  have hunion : (f.union (g.predecessors b)).Below (f'.union (g.predecessors b)) :=
    union_below fun p _ => hle.exposed p
  refine ⟨hv'.tracking.trans (hle.tracking.trans hv.tracking.symm), ?_, ?_⟩
  · intro d
    by_cases hd : d = b
    · subst hd
      have hcarries := hv'.exposed
      rw [hle.tracking] at hcarries
      exact hv.exposed.below hcarries hunion
    · have hsame := hle.exposed d
      unfold Facts.exposed at hsame ⊢
      rwa [hv.others d hd, hv'.others d hd]
  · intro o x hx
    by_cases ho : o.block = b
    · obtain ⟨i, p, hp, _, hcarries, hold, rfl⟩ := hv.record_eq hf ho hx
      obtain ⟨p', hp', hcarries', hold', hrecord'⟩ := hv'.record o i ho hp.instruction
      rw [hle.tracking] at hp' hcarries' hold' hrecord'
      refine ⟨_, hrecord', hp.below hp' (hcarries.below hcarries' hunion) ?_⟩
      rw [hold, hold']
      cases hy : f.record? o with
      | none => exact Record.fresh_below ..
      | some y =>
          obtain ⟨z, hz, hyz⟩ := hle.record o y hy
          rw [hz]
          exact hyz
    · rw [record?_congr (hv.others _ ho)] at hx
      rw [record?_congr (hv'.others _ ho)]
      exact hle.record o x hx

/-! ## Visits lose nothing -/

/-- A visit loses nothing but, perhaps, what its block exposed before. -/
theorem Visits.self_below (hv : Visits s g b f h) (hf : f.Fits g)
    (hb : (f.exposed b).Below (h.exposed b)) : f.Below h := by
  refine ⟨hv.tracking, fun d => ?_, fun o x hx => ?_⟩
  · by_cases hd : d = b
    · rwa [hd]
    · unfold Facts.exposed
      rw [hv.others d hd]
      exact .refl _
  · by_cases ho : o.block = b
    · obtain ⟨i, hi, _⟩ := hf.record o x hx
      obtain ⟨p, hp, _, hold, hrecord⟩ := hv.record o i ho hi
      rw [hx, Option.getD_some] at hold
      exact ⟨_, hrecord, hold ▸ hp.record_below⟩
    · exact ⟨x, (record?_congr (hv.others _ ho)).trans hx, .refl x⟩

/-- No visit of a block would lose anything. -/
def Rising (s : Settings) (g : FlowGraph) (f : Facts) : Prop :=
  ∀ b, b < g.size → f.Below (f.visitBlock s g b).facts

theorem fresh_rising (hg : g.Linked) (s : Settings) (tracking : Tracking) :
    Rising s g (fresh g tracking) := by
  intro b hb
  have hfits := fresh_fits g tracking
  refine (visitBlock_visits hg hfits hb).2.self_below hfits ?_
  rw [exposed_fresh]
  exact Exposed.empty_below _

/-- **Visits keep facts rising**: a block finds again what it has found, since no block has
lost anything in between. -/
theorem Rising.visitBlock (hr : Rising s g f) (hg : g.Linked) (hf : f.Fits g) (hb : b < g.size) :
    Rising s g (f.visitBlock s g b).facts := by
  intro d hd
  have hv := (visitBlock_visits (s := s) hg hf hb).2
  have hnow := (visitBlock_visits (s := s) hg hf hd).2
  have hthen := (visitBlock_visits (s := s) hg (hv.fits hf) hd).2
  -- a visit of `d` finds at least what it would have found before the visit of `b`
  have hmore := hnow.below hthen hf (hr b hb)
  refine hthen.self_below (hv.fits hf) ?_
  by_cases hdb : d = b
  · subst hdb
    exact hmore.exposed d
  · have hsame : (f.visitBlock s g b).facts.exposed d = f.exposed d :=
      congrArg BlockFacts.exposed (hv.others d hdb)
    rw [hsame]
    exact ((hr d hd).exposed d).trans (hmore.exposed d)

/-- **A sweep with more visits finds no less**, wherever the additional ones stand. -/
theorem sweep_below (hg : g.Linked) {bs cs : List BlockId} (hsub : bs.Sublist cs)
    (hcs : ∀ b ∈ cs, b < g.size) (hf : f.Fits g) (hf' : f'.Fits g) (hle : f.Below f')
    (hr : Rising s g f') : (f.sweep s g bs).facts.Below (f'.sweep s g cs).facts := by
  induction hsub generalizing f f' with
  | slnil => exact hle
  | @cons bs cs b _ ih =>
      have hb : b < g.size := hcs b List.mem_cons_self
      obtain ⟨hfault', hv'⟩ := visitBlock_visits (s := s) hg hf' hb
      rw [facts_sweep_cons hfault']
      exact ih (fun d hd => hcs d (List.mem_cons_of_mem _ hd)) hf (hv'.fits hf')
        (hle.trans (hr b hb)) (hr.visitBlock hg hf' hb)
  | @cons_cons bs cs b _ ih =>
      have hb : b < g.size := hcs b List.mem_cons_self
      obtain ⟨hfault, hv⟩ := visitBlock_visits (s := s) hg hf hb
      obtain ⟨hfault', hv'⟩ := visitBlock_visits (s := s) hg hf' hb
      rw [facts_sweep_cons hfault, facts_sweep_cons hfault']
      exact ih (fun d hd => hcs d (List.mem_cons_of_mem _ hd)) (hv.fits hf) (hv'.fits hf')
        (hv.below hv' hf hle) (hr.visitBlock hg hf' hb)

/-! ## Levels -/

/-- A higher level adds passes, and takes none away. -/
theorem plan_sublist (g : FlowGraph) (order : List (List BlockId)) {s s' : Settings}
    (hlevel : s.level ≤ s'.level) : (plan s g order).Sublist (plan s' g order) := by
  have hpasses : ∀ group, passes s g group ≤ passes s' g group := by
    intro group
    unfold passes Settings.maxPasses
    split <;> omega
  refine List.Sublist.flatMap_right order fun group _ => ?_
  exact ((List.replicate_sublist_replicate group).mpr (hpasses group)).flatten

/-- **A higher level finds no less**, whatever groups are analysed and in whatever order:
every origin in a record, and every origin and every cell that a block exposes, is found at
every higher level as well. -/
theorem analyze_mono_level (hg : g.Built) (tracking : Tracking) (enabled : List Opcode)
    (order : List (List BlockId)) (horder : ∀ b ∈ order.flatten, b < g.size) {level level' : Nat}
    (hlevel : level ≤ level') :
    let low := (fresh g tracking).analyze ⟨level, enabled⟩ g order
    let high := (fresh g tracking).analyze ⟨level', enabled⟩ g order
    low.fault = none ∧ high.fault = none ∧ low.facts.Below high.facts := by
  have hlinked := FlowGraph.built_linked hg
  have hfits := fresh_fits g tracking
  have hgroups : ∀ group ∈ order, ∀ b ∈ group, b < g.size := fun group hgroup b hb =>
    horder b (List.mem_flatten.mpr ⟨group, hgroup, hb⟩)
  have hfault := fun s => analyzeGroups_fault (s := s) hlinked hgroups hfits
  simp only [analyze_eq_analyzeGroups hfits.size horder, hfault, true_and]
  -- both are sweeps, and the one at the higher level makes more visits
  have hsweep : ∀ bs f, sweep ⟨level', enabled⟩ g bs f = sweep ⟨level, enabled⟩ g bs f :=
    sweep_congr rfl
  rw [facts_analyzeGroups hlinked hgroups hfits (fresh_proper g _ _),
    facts_analyzeGroups hlinked hgroups hfits (fresh_proper g _ _), hsweep]
  exact sweep_below hlinked (plan_sublist g order hlevel)
    (fun b hb => horder b (mem_flatten_of_mem_plan hb)) hfits hfits (.refl _)
    (fresh_rising hlinked _ _)

/-- On `tally`, with groups that are no components and come in an odd order, a second pass
keeps all that the first one finds and adds to it: that the count is read where the loop
itself has set it. -/
theorem analyze_mono_level_tally :
    let low := (fresh .tally .registersAndMemory).analyze ⟨0, []⟩ .tally [[2, 1], [0, 1]]
    let high := (fresh .tally .registersAndMemory).analyze ⟨1, []⟩ .tally [[2, 1], [0, 1]]
    low.facts.Below high.facts ∧
      (low.facts.record? ⟨1, 1⟩).any (⟨1, 1⟩ ∈ ·.refs.origins ⟨0⟩) = false ∧
      (high.facts.record? ⟨1, 1⟩).any (⟨1, 1⟩ ∈ ·.refs.origins ⟨0⟩) = true := by
  have hbelow := analyze_mono_level FlowGraph.tally_built .registersAndMemory [] [[2, 1], [0, 1]]
    (by decide) (Nat.zero_le 1)
  exact ⟨hbelow.2.2, by decide +kernel, by decide +kernel⟩

end Facts

end ReachingDefs
