import ReachingDefs.Analysis.Report
import ReachingDefs.Proofs.Components
import ReachingDefs.Proofs.Passes

/-!
# When the facts are settled

The components of a graph are analysed in topological order, from no facts. When it is
the turn of a component, everything that can come into it from outside is there
already, and the component itself is empty. It is then settled by as many passes as
it has blocks, or sooner if a pass changes nothing; the records need one pass more,
because a record is made from what its block was about to replace.

The outcome is stated for all lanes at once: a settled block exposes exactly what can
come to its end, and every record was last made from at least what can arrive in
front of its instruction.
-/

namespace ReachingDefs

variable {g : FlowGraph} {s : Settings}

/-- The number of blocks of the largest component that control can go around in. -/
def FlowGraph.cycleSize (g : FlowGraph) : Nat :=
  ((g.componentOrder.filter g.isCyclic).map List.length).foldr max 0

theorem FlowGraph.length_le_cycleSize (g : FlowGraph) {group : List BlockId}
    (h : group ∈ g.componentOrder) (hcyclic : g.isCyclic group = true) :
    group.length ≤ g.cycleSize := by
  unfold cycleSize
  have hmem : group.length ∈ (g.componentOrder.filter g.isCyclic).map List.length :=
    List.mem_map_of_mem (List.mem_filter.mpr ⟨h, hcyclic⟩)
  generalize (g.componentOrder.filter g.isCyclic).map List.length = sizes at hmem
  induction sizes with
  | nil => exact absurd hmem List.not_mem_nil
  | cons n sizes ih =>
      rw [List.foldr_cons]
      rcases List.mem_cons.mp hmem with he | hmem
      · rw [he]
        exact Nat.le_max_left ..
      · exact Nat.le_trans (ih hmem) (Nat.le_max_right ..)

/-- A group that is not cyclic has at most one block, and no edge inside. -/
theorem FlowGraph.not_isCyclic (g : FlowGraph) (hg : g.Linked) {group : List BlockId}
    (h : g.isCyclic group = false) :
    group.length ≤ 1 ∧ ∀ b ∈ group, ∀ p ∈ g.predecessors b, p ∉ group := by
  match group, h with
  | [], _ => simp
  | [b], h =>
      refine ⟨Nat.le_refl 1, ?_⟩
      simp only [List.mem_singleton]
      rintro _ rfl p hp rfl
      have hself : p ∈ g.successors p := (hg.symm p p).mpr hp
      simp [isCyclic, isSelfLoop, hself] at h

namespace Facts

/-- The facts about block `b` are settled. -/
structure Settled (g : FlowGraph) (s : Settings) (f : Facts) (b : BlockId) : Prop where
  /-- The block exposes exactly what can come to its end. -/
  lists : ∀ {α : Type} [DecidableEq α] {c : Lane α} {view : Exposed → List α},
    Tracks g s f.tracking c view → ∀ a, a ∈ f.lists view b ↔ c.Flows g a b
  /-- Every record was last made with everything exposed that can arrive there. -/
  record : ∀ o i, o.block = b → g.instruction? o = some i → ∃ p : Point,
    p.Stands g f.tracking o i ∧ f.record? o = some (p.visit s f.tracking i).record ∧
    ∀ {α : Type} [DecidableEq α] {c : Lane α} {view : Exposed → List α},
      Tracks g s f.tracking c view → ∀ a, c.Arrives g a o → a ∈ view p.exposed

theorem Settled.congr {f f' : Facts} {b : BlockId} (h : Settled g s f b)
    (hblock : f'.block b = f.block b) (htracking : f'.tracking = f.tracking) :
    Settled g s f' b := by
  constructor
  · intro α _ c view hc a
    rw [htracking] at hc
    rw [← h.lists hc a]
    unfold Facts.lists exposed
    rw [hblock]
  · intro o i ho hi
    obtain ⟨p, hp, hrecord, hall⟩ := h.record o i ho hi
    rw [htracking]
    refine ⟨p, hp, ?_, hall⟩
    rw [← hrecord]
    subst ho
    exact record?_congr hblock

/-! ## One group -/

section Group

variable {group : List BlockId} {f : Facts} {n : Nat}

/-- The last of the rounds over the group had nothing left to find: it was stable, or
there had been as many rounds before it as the group has blocks, or nothing in the
group is in front of anything else in it. -/
def Enough (s : Settings) (g : FlowGraph) (group : List BlockId) (n : Nat) (f : Facts) : Prop :=
  Stable s g group ((round s g group)^[n] f) ∨ group.length ≤ n ∨
    group.length ≤ 1 ∧ ∀ b ∈ group, ∀ p ∈ g.predecessors b, p ∉ group

/-- What is known about the blocks around a group when its turn comes. -/
structure Ready (g : FlowGraph) (s : Settings) (group : List BlockId) (f : Facts) : Prop where
  empty : ∀ b ∈ group, f.exposed b = {}
  around : ∀ p, p ∉ group → f.exposed p = {} ∨ Settled g s f p
  before : ∀ b ∈ group, ∀ p ∈ g.predecessors b, p ∉ group → Settled g s f p

/-- A stable round is stable on every lane. -/
theorem Stable.lists {α : Type} (h : Stable s g group f) (view : Exposed → List α) {b : BlockId}
    (hb : b ∈ group) : (f.round s g group).lists view b = f.lists view b :=
  congrArg view (List.map_inj_left.mp h b hb)

section Lanes

variable {α : Type} [DecidableEq α] {c : Lane α} {view : Exposed → List α} {a : α}

theorem Stable.passes (hstable : Stable s g group ((round s g group)^[n] f)) (hg : g.Linked)
    (hgroup : ∀ b ∈ group, b < g.size) (hf : f.Fits g) (hc : Tracks g s f.tracking c view) :
    ∀ b ∈ group, (c.pass g group)^[n + 1] (f.lists view) b =
      (c.pass g group)^[n] (f.lists view) b := by
  intro b hb
  rw [← (rounds hg hgroup hf (n + 1)).lists hc, ← (rounds hg hgroup hf n).lists hc,
    Function.iterate_succ_apply']
  exact hstable.lists view hb

theorem Ready.mem_passes_iff (h : Ready g s group f) (hnd : group.Nodup)
    (hc : Tracks g s f.tracking c view) {m : Nat} (hm : group.length ≤ m) {b : BlockId}
    (hb : b ∈ group) : a ∈ (c.pass g group)^[m] (f.lists view) b ↔ c.Flows g a b := by
  refine Lane.mem_passes_iff hnd ?_ ?_ ?_ hm hb
  · intro d hd
    exact (congrArg view (h.empty d hd)).trans hc.empty
  · intro p hp ha
    rcases h.around p hp with he | he
    · have hnil : f.lists view p = [] := (congrArg view he).trans hc.empty
      rw [hnil] at ha
      exact absurd ha List.not_mem_nil
    · exact (he.lists hc a).mp ha
  · intro d hd p hp hpg hflows
    exact ((h.before d hd p hp hpg).lists hc a).mpr hflows

/-- From a stable round on, the lists are as after any number of rounds. -/
theorem Ready.mem_of_stable (h : Ready g s group f) (hg : g.Linked) (hnd : group.Nodup)
    (hgroup : ∀ b ∈ group, b < g.size) (hf : f.Fits g) (hc : Tracks g s f.tracking c view)
    (hstable : Stable s g group ((round s g group)^[n] f)) {m : Nat} (hm : n ≤ m) {b : BlockId}
    (hb : b ∈ group) : a ∈ (c.pass g group)^[m] (f.lists view) b ↔ c.Flows g a b := by
  have hstop := hstable.passes hg hgroup hf hc
  -- go on to where the group has certainly caught up, and come back
  have hlong : n ≤ max m group.length := Nat.le_trans hm (Nat.le_max_left ..)
  rw [Lane.passes_of_stable hstop hm, ← Lane.passes_of_stable hstop hlong]
  exact h.mem_passes_iff hnd hc (Nat.le_max_right ..) hb

/-- After enough rounds every block of the group lists what can come to it. -/
theorem Ready.mem_after (h : Ready g s group f) (hg : g.Linked) (hnd : group.Nodup)
    (hgroup : ∀ b ∈ group, b < g.size) (hf : f.Fits g) (hc : Tracks g s f.tracking c view)
    (henough : Enough s g group n f) {b : BlockId} (hb : b ∈ group) :
    a ∈ (c.pass g group)^[n + 1] (f.lists view) b ↔ c.Flows g a b := by
  rcases henough with hstable | hlong | ⟨hone, _⟩
  · exact h.mem_of_stable hg hnd hgroup hf hc hstable (Nat.le_succ n) hb
  · exact h.mem_passes_iff hnd hc (by omega) hb
  · exact h.mem_passes_iff hnd hc (by omega) hb

/-- All through the last round, every predecessor of a block of the group lists what can
come to it. -/
theorem Ready.mem_entry (h : Ready g s group f) (hg : g.Linked) (hgroup : ∀ b ∈ group, b < g.size)
    (hf : f.Fits g) (hc : Tracks g s f.tracking c view) (henough : Enough s g group n f)
    {front back : List BlockId} {b : BlockId} (he : group = front ++ b :: back)
    (hnd : group.Nodup) {p : BlockId} (hp : p ∈ g.predecessors b) (hflows : c.Flows g a p) :
    a ∈ c.pass g front ((c.pass g group)^[n] (f.lists view)) p := by
  have hb : b ∈ group := by simp [he]
  by_cases hpg : p ∈ group
  · -- a member that is there before the last round and after it is there all through it
    have hnow : a ∈ (c.pass g group)^[n] (f.lists view) p := by
      rcases henough with hstable | hlong | ⟨_, hnone⟩
      · exact (h.mem_of_stable hg hnd hgroup hf hc hstable (Nat.le_refl n) hpg).mpr hflows
      · exact (h.mem_passes_iff hnd hc hlong hpg).mpr hflows
      · exact absurd hpg (hnone b hb p hp)
    have hthen := (h.mem_after hg hnd hgroup hf hc henough hpg).mpr hflows
    rw [Function.iterate_succ_apply', he] at hthen
    rw [he] at hnow hnd ⊢
    exact Lane.mem_pass_front hnd hnow hthen
  · have hfront : p ∉ front := fun hmem => hpg (by simp [he, hmem])
    rw [Lane.pass_of_not_mem hfront, Lane.passes_of_not_mem hpg]
    exact ((h.before b hb p hp hpg).lists hc a).mpr hflows

end Lanes

/-- **Enough rounds settle a group** whose turn has come. -/
theorem Ready.settles (h : Ready g s group f) (hg : g.Linked) (hnd : group.Nodup)
    (hgroup : ∀ b ∈ group, b < g.size) (hf : f.Fits g) (henough : Enough s g group n f)
    {b : BlockId} (hb : b ∈ group) : Settled g s ((round s g group)^[n + 1] f) b := by
  have hn := rounds (s := s) hg hgroup hf n
  have hn' := rounds (s := s) hg hgroup hf (n + 1)
  constructor
  · intro α _ c view hc a
    rw [hn'.tracking] at hc
    rw [hn'.lists hc]
    exact h.mem_after hg hnd hgroup hf hc henough hb
  · intro o i ho hi
    subst ho
    obtain ⟨front, back, he⟩ := List.append_of_mem hb
    have hback : o.block ∉ back := by
      rw [he] at hnd
      exact (List.nodup_cons.mp (List.nodup_append.mp hnd).2.1).1
    -- the record is the work of the last round, so it saw what the rounds before had made
    obtain ⟨p, hp, hlists, hrecord⟩ := sweep_record (s := s) hg hi (he ▸ hgroup) hback hn.fits
    rw [← he, hn.tracking] at hrecord
    rw [hn.tracking] at hp
    rw [hn'.tracking, Function.iterate_succ_apply']
    refine ⟨p, hp, hrecord, ?_⟩
    intro α _ c view hc a harrives
    have hc' : Tracks g s ((round s g group)^[n] f).tracking c view := hn.tracking ▸ hc
    rw [hlists hc', hn.lists hc]
    refine Lane.Arrives.mem_along hg harrives ?_
    intro q hq hflows
    exact Lane.mem_join.mpr ⟨q, hq, h.mem_entry hg hgroup hf hc henough he hnd hq hflows⟩

end Group

/-! ## The whole analysis -/

section Run

variable {front back : List (List BlockId)} {group : List BlockId} {f : Facts}

/-- The event does not report that the bound was hit, or the bound is high enough. -/
def Harmless (g : FlowGraph) (s : Settings) (e : Event) : Prop :=
  g.cycleSize ≤ s.level ∨ ∀ group passes, e ≠ .boundHit group passes

/-- The analysis of a group comes to enough rounds, unless its log tells otherwise. -/
theorem analyzeGroup_enough (hg : g.Linked) (horder : group ∈ g.componentOrder)
    (hgroup : ∀ b ∈ group, b < g.size) (hf : f.Fits g)
    (hlog : ∀ e ∈ (f.analyzeGroup s g group).log, Harmless g s e) :
    ∃ n, (f.analyzeGroup s g group).facts = (round s g group)^[n + 1] f ∧
      Enough s g group n f := by
  obtain ⟨_, n, he, hend⟩ := analyzeGroup_rounds (s := s) hg hgroup hf
  refine ⟨n, he, ?_⟩
  rcases hend with ⟨hcyclic, _⟩ | ⟨_, hstable⟩ | ⟨hcyclic, hn, hbound⟩
  · exact Or.inr (Or.inr (g.not_isCyclic hg hcyclic))
  · exact Or.inl hstable
  · -- the bound was hit, so it has to be high enough
    rcases hlog _ hbound with hlevel | hnot
    · have := g.length_le_cycleSize horder hcyclic
      exact Or.inr (Or.inl (by omega))
    · exact absurd rfl (hnot _ _)

/-- How far the analysis has come after the groups in `front`. -/
structure Progress (g : FlowGraph) (s : Settings) (tracking : Tracking)
    (front : List (List BlockId)) (f : Facts) : Prop where
  tracking : f.tracking = tracking
  settled : ∀ b ∈ front.flatten, Settled g s f b
  untouched : ∀ b, b ∉ front.flatten → f.exposed b = {}

theorem Progress.ready {tracking : Tracking} (h : Progress g s tracking front f)
    (horder : g.Topological (front ++ group :: back)) : Ready g s group f := by
  refine ⟨fun b hb => h.untouched b (horder.not_mem_front hb), ?_, ?_⟩
  · intro p _
    by_cases hp : p ∈ front.flatten
    · exact Or.inr (h.settled p hp)
    · exact Or.inl (h.untouched p hp)
  · -- what leads into the group from outside stands in an earlier group
    intro b hb p hp hpg
    exact h.settled p ((horder.forward front group back rfl b hb p hp).resolve_left hpg)

/-- **Each group in turn is settled**, and nothing settled before is touched again. -/
theorem Progress.next {tracking : Tracking} (h : Progress g s tracking front f) (hg : g.Linked)
    (horder : g.componentOrder = front ++ group :: back) (hf : f.Fits g)
    (hlog : ∀ e ∈ (f.analyzeGroup s g group).log, Harmless g s e) :
    Progress g s tracking (front ++ [group]) (f.analyzeGroup s g group).facts := by
  have htop := g.componentOrder_topological hg
  have hmem : group ∈ g.componentOrder := by simp [horder]
  have hgroup : ∀ b ∈ group, b < g.size := fun b hb => htop.lt hmem hb
  have hnd : group.Nodup := (List.nodup_flatten.mp htop.nodup).1 group hmem
  obtain ⟨n, he, henough⟩ := analyzeGroup_enough hg hmem hgroup hf hlog
  have hready : Ready g s group f := h.ready (horder ▸ htop)
  have hrounds := rounds (s := s) hg hgroup hf (n + 1)
  rw [he]
  refine ⟨hrounds.tracking.trans h.tracking, ?_, ?_⟩
  · intro b hb
    by_cases hbg : b ∈ group
    · exact hready.settles hg hnd hgroup hf henough hbg
    · have hfront : b ∈ front.flatten := by simpa [hbg] using hb
      exact (h.settled b hfront).congr (hrounds.others b hbg) hrounds.tracking
  · intro b hb
    have hout : b ∉ front.flatten ∧ b ∉ group := by simpa using hb
    unfold exposed
    rw [hrounds.others b hout.2]
    exact h.untouched b hout.1

end Run

/-- Facts of the right size and groups of blocks that are there are accepted. -/
theorem analyze_eq_analyzeGroups {f : Facts} {order : List (List BlockId)} (hsize : f.size = g.size)
    (horder : ∀ b ∈ order.flatten, b < g.size) :
    f.analyze s g order = f.analyzeGroups s g order := by
  have haccept : f.accept g order = .ok () := by
    unfold accept
    rw [if_pos hsize.symm]
    exact Fault.unlessOutOfRange_eq_ok.mpr ⟨horder, rfl⟩
  unfold analyze
  rw [haccept]

end Facts

namespace FlowGraph

/-- The bound on the passes does no harm: it leaves as many passes as the largest cycle
needs, or it was not hit. -/
def BoundSuffices (g : FlowGraph) (options : Options) (report : Report) : Prop :=
  g.cycleSize ≤ options.level ∨ ∀ group passes, .boundHit group passes ∉ report.log

/-- The components in topological order, visited from no facts. -/
def run (g : FlowGraph) (options : Options) : Outcome :=
  (Facts.fresh g options.tracking).analyzeGroups options.toSettings g g.componentOrder

/-- The components are accepted, and nothing stops their analysis. -/
theorem analyze_fresh_eq_run (hg : g.Linked) (options : Options) :
    (Facts.fresh g options.tracking).analyze options.toSettings g g.componentOrder = g.run options ∧
      (g.run options).fault = none := by
  have htop := g.componentOrder_topological hg
  have hfits := Facts.fresh_fits g options.tracking
  exact ⟨Facts.analyze_eq_analyzeGroups hfits.size fun b hb => (htop.cover b).mp hb,
    Facts.analyzeGroups_fault hg (fun _ hgroup _ => htop.lt hgroup) hfits⟩

/-- No analysis of a graph is refused. -/
theorem analyze_eq (hg : g.Linked) (options : Options) :
    g.analyze options = .ok {
      order := g.componentOrder
      facts := (g.run options).facts
      chains := .ofFacts (g.run options).facts
      log := .started g.size g.componentOrder.length options.level :: (g.run options).log } := by
  obtain ⟨hrun, hfault⟩ := g.analyze_fresh_eq_run hg options
  unfold analyze
  dsimp only
  rw [hrun, hfault]

/-- **What every visit keeps holds at the end of an analysis.** -/
theorem run_preserves (hg : g.Linked) (options : Options) {P : Facts → Prop}
    (hfits : ∀ f, P f → f.Fits g) (hfresh : P (.fresh g options.tracking))
    (hvisit : ∀ f f' b, P f → Facts.Visits options.toSettings g b f f' → P f') :
    P (g.run options).facts :=
  Facts.analyzeGroups_preserves (Facts.visitBlock_preserves hg hfits hvisit) _ hfresh

/-- **An analysis always answers, and if its bound suffices, with every block settled.** -/
theorem analyze_settles (hg : g.Linked) (options : Options) :
    ∃ report, g.analyze options = .ok report ∧ report.facts.Fits g ∧
      (g.BoundSuffices options report → report.facts.tracking = options.tracking ∧
        ∀ b, b < g.size → Facts.Settled g options.toSettings report.facts b) := by
  refine ⟨_, analyze_eq hg options, ?_, ?_⟩
  · exact Facts.analyzeGroups_preserves (Facts.fits_visitBlock hg) _
      (Facts.fresh_fits g options.tracking)
  · intro hbound
    have htop := g.componentOrder_topological hg
    have hdone : Facts.Progress g options.toSettings options.tracking g.componentOrder
        (g.run options).facts := by
      refine Facts.analyzeGroups_induct hg (fun _ hgroup _ => htop.lt hgroup)
        (Facts.Harmless g options.toSettings) ?_ (Facts.fresh_fits g options.tracking) ?_ ?_
      · intro front group back f he hf h hlog
        exact h.next hg he hf hlog
      · exact ⟨rfl, fun b hb => absurd hb List.not_mem_nil, fun b _ => Facts.exposed_fresh ..⟩
      · intro e he
        refine hbound.imp id fun hnot group passes heq => ?_
        subst heq
        exact hnot group passes (List.mem_cons_of_mem _ he)
    refine ⟨hdone.tracking, ?_⟩
    intro b hb
    exact hdone.settled b ((htop.cover b).mpr hb)

end FlowGraph

end ReachingDefs
