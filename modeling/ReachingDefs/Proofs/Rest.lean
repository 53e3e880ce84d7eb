import ReachingDefs.Proofs.Convergence

/-!
# A second analysis finds nothing

An analysis that was not cut short by its bound has come to rest: run once more on its own
result, with the same settings, it changes nothing at all. Neither the order in which
origins are listed changes nor anything in a record, and even the current block is the same
in the end.

The argument goes block by block. A block is *idle* if another visit would leave it as it
is. That depends on the block and on what its predecessors expose, and on nothing else. A
group leaves its blocks idle when its passes end: the last pass changed nothing that the
blocks read from one another, or there was nothing to read. And they stay idle, since later
groups touch neither them nor their predecessors.
-/

namespace ReachingDefs.Facts

variable {g : FlowGraph} {s : Settings} {b : BlockId} {f f' : Facts}

/-- Another visit would leave block `b` as it is. -/
def Idle (s : Settings) (g : FlowGraph) (f : Facts) (b : BlockId) : Prop :=
  (f.visitBlock s g b).facts.block b = f.block b

/-- Whether a block is idle depends on the block and on what its predecessors expose. -/
theorem Idle.congr (hidle : Idle s g f b) (hg : g.Linked) (hb : b < g.size) (hf : f.Fits g)
    (hf' : f'.Fits g) (htracking : f'.tracking = f.tracking) (hblock : f'.block b = f.block b)
    (hpred : ∀ p ∈ g.predecessors b, f'.exposed p = f.exposed p) : Idle s g f' b := by
  have hvisit : ∀ {f : Facts}, f.Fits g →
      (f.visitBlock s g b).facts.block b = (f.walk s g b).facts := by
    intro f hf
    rw [visitBlock_eq hg hf.size hf.placed hb]
    exact (block_put_current f b b _ (hf.size.symm ▸ hb)).trans (if_pos rfl)
  have hwalk : f'.walk s g b = f.walk s g b := by
    unfold walk
    rw [htracking, union_congr hpred, hblock]
  unfold Idle at hidle ⊢
  rw [hvisit hf', hwalk, ← hvisit hf, hidle, hblock]

/-- A visit leaves its block idle, unless it has changed what the block is computed from. -/
theorem Visits.idle (hv : Visits s g b f f') (hg : g.Linked) (hb : b < g.size) (hf : f.Fits g)
    (hproper : f.Proper g s) (hpred : ∀ p ∈ g.predecessors b, f'.exposed p = f.exposed p) :
    Idle s g f' b := by
  have hfits := hv.fits hf
  have hagain := (visitBlock_visits (s := s) hg hfits hb).2
  have hunion := union_congr hpred
  refine hfits.block_eq (hagain.fits hfits) ?_ fun o _ => ?_
  · have hcarries := hagain.exposed
    rw [hv.tracking, hunion] at hcarries
    exact Carries.unique (hproper.union _) hcarries hv.exposed
  · -- what another visit would find is what this one has noted
    have hnoted := hv.noted hproper
    rw [← hunion] at hnoted
    exact hnoted.record?_eq hagain hfits o

/-! ## Sweeps -/

/-- A sweep leaves its blocks idle, unless it has changed what they are computed from. -/
theorem idle_sweep (hg : g.Linked) {bs : List BlockId} (hnd : bs.Nodup)
    (hbs : ∀ b ∈ bs, b < g.size) (hf : f.Fits g) (hproper : f.Proper g s)
    (hpred : ∀ b ∈ bs, ∀ p ∈ g.predecessors b, (f.sweep s g bs).facts.exposed p = f.exposed p) :
    ∀ b ∈ bs, Idle s g (f.sweep s g bs).facts b := by
  induction bs generalizing f with
  | nil => exact fun b hb => absurd hb List.not_mem_nil
  | cons d bs ih =>
      have hd : d < g.size := hbs d List.mem_cons_self
      have hlater : ∀ b ∈ bs, b < g.size := fun b hb => hbs b (List.mem_cons_of_mem _ hb)
      obtain ⟨hnot, hnd⟩ := List.nodup_cons.mp hnd
      obtain ⟨hfault, hv⟩ := visitBlock_visits (s := s) hg hf hd
      have hrest := sweep_sweeps (s := s) hg hlater (hv.fits hf)
      rw [facts_sweep_cons hfault] at hpred ⊢
      -- `d` is visited once, so what is the same in the end was the same all along
      have hkept : ∀ c ∈ d :: bs, ∀ p ∈ g.predecessors c,
          (f.visitBlock s g d).facts.exposed p = f.exposed p := by
        intro c hc p hp
        by_cases hpd : p = d
        · rw [← hpred c hc p hp, hpd]
          exact congrArg BlockFacts.exposed (hrest.others d hnot).symm
        · exact congrArg BlockFacts.exposed (hv.others p hpd)
      intro b hb
      rcases List.mem_cons.mp hb with rfl | hb
      · have hidle := hv.idle hg hd hf hproper (hkept b List.mem_cons_self)
        refine hidle.congr hg hd (hv.fits hf) hrest.fits hrest.tracking (hrest.others b hnot) ?_
        intro p hp
        exact (hpred b List.mem_cons_self p hp).trans (hkept b List.mem_cons_self p hp).symm
      · refine ih hnd hlater (hv.fits hf) (hproper.visits hv) ?_ b hb
        intro c hc p hp
        have hc := List.mem_cons_of_mem d hc
        exact (hpred c hc p hp).trans (hkept c hc p hp).symm

/-- **A sweep over idle blocks changes no block.** -/
theorem block_sweep_of_idle (hg : g.Linked) {bs : List BlockId} (hbs : ∀ b ∈ bs, b < g.size)
    (hf : f.Fits g) (hidle : ∀ b ∈ bs, Idle s g f b) (d : BlockId) :
    (f.sweep s g bs).facts.block d = f.block d := by
  induction bs generalizing f with
  | nil => rfl
  | cons b bs ih =>
      obtain ⟨hfault, hv⟩ := visitBlock_visits (s := s) hg hf (hbs b List.mem_cons_self)
      have hsame : ∀ d, (f.visitBlock s g b).facts.block d = f.block d := by
        intro d
        by_cases hd : d = b
        · rw [hd]
          exact hidle b List.mem_cons_self
        · exact hv.others d hd
      have hlater : ∀ c ∈ bs, c < g.size := fun c hc => hbs c (List.mem_cons_of_mem _ hc)
      rw [facts_sweep_cons hfault, ih hlater (hv.fits hf) ?_, hsame]
      intro c hc
      exact (hidle c (List.mem_cons_of_mem _ hc)).congr hg (hlater c hc) hf (hv.fits hf)
        hv.tracking (hsame c) fun p _ => congrArg BlockFacts.exposed (hsame p)

/-! ## Groups -/

/-- **A group whose passes were not cut short leaves its blocks idle.** -/
theorem idle_analyzeGroup (hg : g.Linked) {group : List BlockId} (hnd : group.Nodup)
    (hgroup : ∀ b ∈ group, b < g.size) (hf : f.Fits g) (hproper : f.Proper g s)
    (hlog : ∀ e ∈ (f.analyzeGroup s g group).log, e.isBoundHit = false) :
    ∀ b ∈ group, Idle s g (f.analyzeGroup s g group).facts b := by
  obtain ⟨_, n, he, hend⟩ := analyzeGroup_rounds (s := s) hg hgroup hf
  have hn := rounds (s := s) hg hgroup hf n
  rw [he, Function.iterate_succ_apply']
  refine idle_sweep hg hnd hgroup hn.fits (proper_rounds hg hf hproper n) ?_
  intro b hb p hp
  by_cases hpg : p ∈ group
  · rcases hend with ⟨hcyclic, _⟩ | ⟨_, hstable⟩ | ⟨_, _, hbound⟩
    · exact absurd hpg ((g.not_isCyclic hg hcyclic).2 b hb p hp)
    · exact List.map_inj_left.mp hstable p hpg
    · exact absurd (hlog _ hbound) (by simp [Event.isBoundHit])
  · exact congrArg BlockFacts.exposed ((sweep_sweeps hg hgroup hn.fits).others p hpg)

/-- After the groups in `front`, their blocks are idle. -/
structure AtRest (s : Settings) (g : FlowGraph) (front : List (List BlockId)) (f : Facts) :
    Prop where
  proper : f.Proper g s
  idle : ∀ b ∈ front.flatten, Idle s g f b

theorem AtRest.next {front back : List (List BlockId)} {group : List BlockId}
    (h : AtRest s g front f) (hg : g.Linked) (htop : g.Topological (front ++ group :: back))
    (hf : f.Fits g)
    (hlog : ∀ e ∈ (f.analyzeGroup s g group).log, e.isBoundHit = false) :
    AtRest s g (front ++ [group]) (f.analyzeGroup s g group).facts := by
  have hgroup : ∀ b ∈ group, b < g.size := fun b hb => htop.lt (by simp) hb
  have hnd : group.Nodup := (List.nodup_flatten.mp htop.nodup).1 group (by simp)
  refine ⟨(analyzeGroup_preserves (fits_proper_visitBlock hg) group ⟨hf, h.proper⟩).2, ?_⟩
  intro b hb
  by_cases hbg : b ∈ group
  · exact idle_analyzeGroup hg hnd hgroup hf h.proper hlog b hbg
  · -- the group touches neither the blocks in front of it nor their predecessors
    have hfront : b ∈ front.flatten := by simpa [hbg] using hb
    obtain ⟨_, n, he, _⟩ := analyzeGroup_rounds (s := s) hg hgroup hf
    have hrounds := rounds (s := s) hg hgroup hf (n + 1)
    rw [he]
    refine (h.idle b hfront).congr hg ((htop.cover b).mp (by simp [hfront])) hf hrounds.fits
      hrounds.tracking (hrounds.others b hbg) ?_
    intro p hp
    refine congrArg BlockFacts.exposed (hrounds.others p fun hpg => ?_)
    exact htop.not_mem_front hpg (htop.predecessor_mem_front hfront hp)

/-- An analysis that hit no bound leaves all its blocks idle. -/
theorem atRest_analyzeGroups (hg : g.Linked) (tracking : Tracking)
    (hlog : ∀ e ∈ ((fresh g tracking).analyzeGroups s g g.componentOrder).log,
      e.isBoundHit = false) :
    AtRest s g g.componentOrder ((fresh g tracking).analyzeGroups s g g.componentOrder).facts := by
  have htop := g.componentOrder_topological hg
  refine analyzeGroups_induct hg (fun _ hgroup _ => htop.lt hgroup) (·.isBoundHit = false) ?_
    (fresh_fits g tracking) ⟨fresh_proper g s tracking, fun b hb => absurd hb List.not_mem_nil⟩ hlog
  intro front group back f he hf h hlog
  exact h.next hg (he ▸ htop) hf hlog

/-- An analysis of idle blocks changes nothing but the current block, and not even that if it
ends where the facts are. -/
theorem facts_analyzeGroups_of_idle (hg : g.Linked) {order : List (List BlockId)}
    (horder : ∀ group ∈ order, ∀ b ∈ group, b < g.size) (hf : f.Fits g) (hproper : f.Proper g s)
    (hidle : ∀ b ∈ order.flatten, Idle s g f b)
    (hcurrent : f.current = (plan s g order).getLast?) :
    (f.analyzeGroups s g order).facts = f := by
  have hplan : ∀ b ∈ plan s g order, b < g.size := by
    intro b hb
    obtain ⟨group, hgroup, hb⟩ := List.mem_flatten.mp (mem_flatten_of_mem_plan hb)
    exact horder group hgroup b hb
  have hblock := block_sweep_of_idle (s := s) hg hplan hf fun b hb =>
    hidle b (mem_flatten_of_mem_plan hb)
  have hsweep := sweep_sweeps (s := s) hg hplan hf
  rw [facts_analyzeGroups hg horder hf hproper]
  refine hf.ext hsweep.fits hsweep.tracking ?_ (fun b => congrArg BlockFacts.exposed (hblock b))
    fun o => record?_congr (hblock o.block)
  rw [current_sweep hg hplan hf, hcurrent, Option.or_self]

/-- **A second analysis changes nothing**: if the first one hit no bound, another one with the
same settings and groups leaves the facts exactly as they are. -/
theorem analyze_again (hg : g.Built) (s : Settings) (tracking : Tracking) :
    let first := (fresh g tracking).analyze s g g.componentOrder
    (∀ e ∈ first.log, e.isBoundHit = false) →
      let second := first.facts.analyze s g g.componentOrder
      first.fault = none ∧ second.fault = none ∧ second.facts = first.facts := by
  have hlinked := FlowGraph.built_linked hg
  have htop := g.componentOrder_topological hlinked
  have horder : ∀ b ∈ g.componentOrder.flatten, b < g.size := fun b => (htop.cover b).mp
  have hgroups : ∀ group ∈ g.componentOrder, ∀ b ∈ group, b < g.size :=
    fun _ hgroup _ => htop.lt hgroup
  have hfresh := fresh_fits g tracking
  have hproper := fresh_proper g s tracking
  intro first hlog second
  have hfirst : first = (fresh g tracking).analyzeGroups s g g.componentOrder :=
    analyze_eq_analyzeGroups hfresh.size horder
  have hfits : first.facts.Fits g := by
    rw [hfirst]
    exact analyzeGroups_preserves (fits_visitBlock hlinked) _ hfresh
  have hrest : AtRest s g g.componentOrder first.facts := by
    rw [hfirst] at hlog ⊢
    exact atRest_analyzeGroups hlinked tracking hlog
  -- both analyses end with the last block of the same plan
  have hcurrent : first.facts.current = (plan s g g.componentOrder).getLast? := by
    rw [hfirst, facts_analyzeGroups hlinked hgroups hfresh hproper, current_sweep hlinked
      (fun b hb => horder b (mem_flatten_of_mem_plan hb)) hfresh]
    exact Option.or_none
  have hsecond : second = first.facts.analyzeGroups s g g.componentOrder :=
    analyze_eq_analyzeGroups hfits.size horder
  refine ⟨?_, ?_, ?_⟩
  · rw [hfirst]
    exact analyzeGroups_fault hlinked hgroups hfresh
  · rw [hsecond]
    exact analyzeGroups_fault hlinked hgroups hfits
  · rw [hsecond]
    exact facts_analyzeGroups_of_idle hlinked hgroups hfits hrest.proper hrest.idle hcurrent

/-- The loop of `tally` comes to rest within four passes more than the first, and an analysis
of the result finds it at rest. -/
theorem analyze_again_tally :
    let first := (fresh .tally .registersAndMemory).analyze { level := 4 } .tally
      FlowGraph.tally.componentOrder
    let second := first.facts.analyze { level := 4 } .tally FlowGraph.tally.componentOrder
    (∀ e ∈ first.log, e.isBoundHit = false) ∧ second.facts = first.facts := by
  intro first second
  have hlog : ∀ e ∈ first.log, e.isBoundHit = false := by decide +kernel
  have hsame := analyze_again FlowGraph.tally_built { level := 4 } .registersAndMemory hlog
  exact ⟨hlog, hsame.2.2⟩

end ReachingDefs.Facts
