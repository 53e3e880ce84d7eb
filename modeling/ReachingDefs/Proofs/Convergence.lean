import ReachingDefs.Proofs.Completeness
import ReachingDefs.Proofs.Listing
import ReachingDefs.Proofs.Replay

/-!
# Does the iteration come to an end by itself?

The passes over a cyclic group end when one of them leaves its exposed sets exactly as
they were, *listing order included*. As sets they always come to rest: that is
`Settled`. Their listings need not, and then no bound is high enough.

What can be said is how long to wait. A group whose listings come to rest does so
within twice as many passes as it has blocks, so one run with that bound tells about
all of them: if it ends without hitting the bound, all runs with higher bounds end in
the same way and with the same facts; if not, none ever will.

A level is a natural number here. Where it is one of 64 bits, and passes are counted in 64 bits too,
the highest level gets one pass less, and no analysis that converges can tell (`run_saturated`).
-/

namespace ReachingDefs

/-! ## The lanes repeat nothing -/

namespace FlowGraph

variable {g : FlowGraph} {s : Settings}

theorem regLane_lawful (g : FlowGraph) (s : Settings) (r : Register) : (g.regLane s r).Lawful where
  nodup o := by
    unfold regLane
    dsimp only
    split <;> simp
  fresh o a h := by
    simp [regLane, (mem_gen_regLane.mp h).1]

theorem memLane_lawful (g : FlowGraph) (s : Settings) (tracking : Tracking) :
    (g.memLane s tracking).Lawful where
  nodup o := by
    have hall : ∀ (es : List Effect) (cs : List Cell), cs.Nodup →
        (es.foldl (Effect.onCells o) cs).Nodup := by
      intro es
      induction es with
      | nil => exact fun cs h => h
      | cons e es ih => exact fun cs h => ih _ (Effect.nodup_onCells h e)
    exact hall _ [] List.nodup_nil
  fresh o a h := by
    rcases Effect.mem_foldl_onCells h with h | h
    · exact absurd h List.not_mem_nil
    · obtain ⟨e, he, hstore⟩ := List.any_eq_true.mp h
      refine List.all_eq_false.mpr ⟨e, he, ?_⟩
      simp [Effect.spares, hstore]

end FlowGraph

namespace Facts

variable {g : FlowGraph} {s : Settings} {group : List BlockId} {f : Facts}

/-! ## One group -/

/-- **If some round over a group is stable, then so is every round from twice its size on.** -/
theorem Stable.twice (hg : g.Linked) (hnd : group.Nodup) (hgroup : ∀ b ∈ group, b < g.size)
    (hf : f.Fits g) (hproper : f.Proper g s) (hempty : ∀ b ∈ group, f.exposed b = {}) {n : Nat}
    (hstable : Stable s g group ((round s g group)^[n] f)) {t : Nat} (ht : 2 * group.length ≤ t) :
    Stable s g group ((round s g group)^[t] f) := by
  -- on every lane the lists have come to rest, and the lanes tell everything
  have hlists : ∀ {α : Type} [DecidableEq α] {c : Lane α} {view : Exposed → List α}, c.Lawful →
      Tracks g s f.tracking c view → ((round s g group)^[t + 1] f).lists view =
        ((round s g group)^[t] f).lists view := by
    intro α _ c view hc htracks
    have hstop := hstable.passes hg hgroup hf htracks
    have hstart : ∀ d ∈ group, f.lists view d = [] := by
      intro d hd
      exact (congrArg view (hempty d hd)).trans htracks.empty
    rw [(rounds hg hgroup hf (t + 1)).lists htracks, (rounds hg hgroup hf t).lists htracks,
      Lane.passes_settle hc hnd hstart hstop (by omega), Lane.passes_settle hc hnd hstart hstop ht]
  refine List.map_congr_left fun b _ => ?_
  show ((round s g group) ((round s g group)^[t] f)).exposed b = _
  rw [← Function.iterate_succ_apply' (round s g group)]
  refine Exposed.Proper.ext (proper_rounds hg hf hproper (t + 1) b)
    (proper_rounds hg hf hproper t b) (fun r => ?_) ?_
  · exact congrFun (hlists (FlowGraph.regLane_lawful g s r) (tracks_regLane g s _ r)) b
  · exact congrFun (hlists (FlowGraph.memLane_lawful g s _) (tracks_memLane g s _)) b

/-- The passes over the group end because one of them changes nothing. A group without a
cycle has nothing to wait for. -/
def Converging (s : Settings) (g : FlowGraph) (group : List BlockId) (f : Facts) : Prop :=
  g.isCyclic group = true → ∃ n, n ≤ s.level ∧ Stable s g group ((round s g group)^[n] f)

/-- What a converging analysis of a cyclic group comes to: its first stable round. -/
theorem Converging.analyzeGroup_eq (h : Converging s g group f) (hg : g.Linked)
    (hgroup : ∀ b ∈ group, b < g.size) (hf : f.Fits g) (hcyclic : g.isCyclic group = true) :
    ∃ n pass quiet, Stable s g group ((round s g group)^[n] f) ∧
      (∀ m, m < n → ¬ Stable s g group ((round s g group)^[m] f)) ∧
      (∀ e ∈ quiet, Event.endsPasses e = false) ∧
      f.analyzeGroup s g group =
        { facts := ((round s g group)^[n + 1] f), log := quiet ++ [.converged group pass] } := by
  unfold analyzeGroup
  rw [if_pos hcyclic]
  obtain ⟨quiet, hquiet, ⟨n, pass, _, hstop, hnot, he⟩ | ⟨hnot, _⟩⟩ :=
    iterate_cases (s := s) hg hgroup hf s.maxPasses
  · exact ⟨n, pass, quiet, hstop, hnot, hquiet, he⟩
  · -- a bound of `level` allows one pass more, to see that the last one changed nothing
    obtain ⟨n, hn, hstop⟩ := h hcyclic
    exact absurd hstop (hnot n (Nat.lt_succ_of_le hn))

/-- **The log of a group tells whether it converges.** -/
theorem converging_iff (hg : g.Linked) (hgroup : ∀ b ∈ group, b < g.size) (hf : f.Fits g) :
    Converging s g group f ↔
      ∀ d passes, .boundHit d passes ∉ (f.analyzeGroup s g group).log := by
  by_cases hcyclic : g.isCyclic group = true
  · constructor
    · intro h d passes hmem
      obtain ⟨n, pass, quiet, _, _, hquiet, he⟩ := h.analyzeGroup_eq hg hgroup hf hcyclic
      rw [he] at hmem
      rcases List.mem_append.mp hmem with hmem | hmem
      · exact absurd (hquiet _ hmem) (by simp [Event.endsPasses])
      · exact absurd (List.mem_singleton.mp hmem) (by simp)
    · intro h _
      unfold analyzeGroup at h
      rw [if_pos hcyclic] at h
      obtain ⟨quiet, _, ⟨n, _, hn, hstop, _, _⟩ | ⟨_, he⟩⟩ :=
        iterate_cases (s := s) hg hgroup hf s.maxPasses
      · exact ⟨n, Nat.le_of_lt_succ hn, hstop⟩
      · rw [he] at h
        exact absurd (List.mem_append_right quiet (List.mem_singleton_self _)) (h _ _)
  · refine ⟨fun _ d passes hmem => ?_, fun _ hc => absurd hc hcyclic⟩
    unfold analyzeGroup at hmem
    rw [if_neg hcyclic] at hmem
    exact absurd ((sweep_sweeps hg hgroup hf).quiet _ hmem) (by simp [Event.endsPasses])

/-- Converging analyses of a group come to the same facts, whatever their bounds. -/
theorem Converging.facts_eq {s s' : Settings} (henabled : s.enabled = s'.enabled)
    (h : Converging s g group f) (h' : Converging s' g group f) (hg : g.Linked)
    (hgroup : ∀ b ∈ group, b < g.size) (hf : f.Fits g) :
    (f.analyzeGroup s g group).facts = (f.analyzeGroup s' g group).facts := by
  by_cases hcyclic : g.isCyclic group = true
  · obtain ⟨n, _, _, hstop, hnot, _, he⟩ := h.analyzeGroup_eq hg hgroup hf hcyclic
    obtain ⟨n', _, _, hstop', hnot', _, he'⟩ := h'.analyzeGroup_eq hg hgroup hf hcyclic
    unfold Stable at hstop hnot hstop' hnot'
    rw [← round_congr henabled] at he' hstop' hnot'
    -- both stop at the first stable round, and the rounds do not depend on the bound
    have hn : n = n' := by
      rcases Nat.lt_trichotomy n n' with hlt | heq | hgt
      · exact absurd hstop (hnot' n hlt)
      · exact heq
      · exact absurd hstop' (hnot n' hgt)
    rw [he, he', hn]
  · unfold analyzeGroup
    rw [if_neg hcyclic, if_neg hcyclic, sweep_congr henabled]

/-- A group that converges under one bound converges under every bound that is no lower, and
under every bound of at least twice its size. -/
theorem Converging.transfer {s s' : Settings} (henabled : s.enabled = s'.enabled)
    (h : Converging s g group f) (hg : g.Linked) (hnd : group.Nodup)
    (hgroup : ∀ b ∈ group, b < g.size) (hf : f.Fits g) (hproper : f.Proper g s)
    (hempty : ∀ b ∈ group, f.exposed b = {})
    (hlevel : g.isCyclic group = true → s.level ≤ s'.level ∨ 2 * group.length ≤ s'.level) :
    Converging s' g group f := by
  intro hcyclic
  obtain ⟨n, hn, hstop⟩ := h hcyclic
  unfold Stable
  rw [← round_congr henabled]
  rcases hlevel hcyclic with hlevel | hlevel
  · exact ⟨n, by omega, hstop⟩
  · exact ⟨_, hlevel, hstop.twice hg hnd hgroup hf hproper hempty (Nat.le_refl _)⟩

/-! ## The whole analysis -/

/-- Every group converges when its turn comes. -/
def RunConverging (s : Settings) (g : FlowGraph) : List (List BlockId) → Facts → Prop
  | [], _ => True
  | group :: rest, f =>
    Converging s g group f ∧ RunConverging s g rest (f.analyzeGroup s g group).facts

section Run

variable {order : List (List BlockId)}

theorem log_analyzeGroups_cons {rest : List (List BlockId)} (hg : g.Linked)
    (hgroup : ∀ b ∈ group, b < g.size) (hf : f.Fits g) :
    (f.analyzeGroups s g (group :: rest)).log = (f.analyzeGroup s g group).log ++
      ((f.analyzeGroup s g group).facts.analyzeGroups s g rest).log := by
  rw [analyzeGroups, Outcome.andThen_eq (analyzeGroup_rounds hg hgroup hf).1]

theorem runConverging_iff (hg : g.Linked) (horder : ∀ group ∈ order, ∀ b ∈ group, b < g.size)
    (hf : f.Fits g) :
    RunConverging s g order f ↔
      ∀ d passes, .boundHit d passes ∉ (f.analyzeGroups s g order).log := by
  induction order generalizing f with
  | nil => exact ⟨fun _ _ _ h => absurd h List.not_mem_nil, fun _ => trivial⟩
  | cons group rest ih =>
      have hgroup := horder group List.mem_cons_self
      have hrest := ih (fun d hd => horder d (List.mem_cons_of_mem _ hd))
        (analyzeGroup_fits (s := s) hg hgroup hf)
      unfold RunConverging
      rw [converging_iff hg hgroup hf, hrest, log_analyzeGroups_cons hg hgroup hf]
      simp only [List.mem_append, not_or]
      exact ⟨fun h d passes => ⟨h.1 d passes, h.2 d passes⟩,
        fun h => ⟨fun d passes => (h d passes).1, fun d passes => (h d passes).2⟩⟩

/-- A run that converges says so for every cyclic group. -/
theorem RunConverging.converged (h : RunConverging s g order f) (hg : g.Linked)
    (horder : ∀ group ∈ order, ∀ b ∈ group, b < g.size) (hf : f.Fits g) {group : List BlockId}
    (hmem : group ∈ order) (hcyclic : g.isCyclic group = true) :
    ∃ pass, .converged group pass ∈ (f.analyzeGroups s g order).log := by
  induction order generalizing f with
  | nil => exact absurd hmem List.not_mem_nil
  | cons d rest ih =>
      have hd := horder d List.mem_cons_self
      rw [log_analyzeGroups_cons hg hd hf]
      rcases List.mem_cons.mp hmem with rfl | hmem
      · obtain ⟨n, pass, quiet, _, _, _, he⟩ := h.1.analyzeGroup_eq hg hd hf hcyclic
        refine ⟨pass, List.mem_append_left _ ?_⟩
        rw [he]
        exact List.mem_append_right quiet (List.mem_singleton_self _)
      · obtain ⟨pass, hpass⟩ := ih h.2 (fun e he => horder e (List.mem_cons_of_mem _ he))
          (analyzeGroup_fits hg hd hf) hmem
        exact ⟨pass, List.mem_append_right _ hpass⟩

/-- **A run that converges under one bound does so under every bound that is no lower, and
under every bound of at least twice the size of every cyclic group.** -/
theorem RunConverging.transfer {s s' : Settings} (henabled : s.enabled = s'.enabled)
    (h : RunConverging s g order f) (hg : g.Linked)
    (horder : ∀ group ∈ order, ∀ b ∈ group, b < g.size) (hnd : order.flatten.Nodup)
    (hf : f.Fits g) (hproper : f.Proper g s) (hempty : ∀ b ∈ order.flatten, f.exposed b = {})
    (hlevel : ∀ group ∈ order, g.isCyclic group = true →
      s.level ≤ s'.level ∨ 2 * group.length ≤ s'.level) :
    RunConverging s' g order f := by
  induction order generalizing f with
  | nil => trivial
  | cons group rest ih =>
      have hgroup := horder group List.mem_cons_self
      rw [List.flatten_cons] at hnd hempty
      obtain ⟨hndg, hndr, hdisjoint⟩ := List.nodup_append.mp hnd
      have hfirst : Converging s' g group f :=
        h.1.transfer henabled hg hndg hgroup hf hproper
          (fun b hb => hempty b (List.mem_append_left _ hb)) (hlevel group List.mem_cons_self)
      refine ⟨hfirst, ?_⟩
      rw [← h.1.facts_eq henabled hfirst hg hgroup hf]
      have hnext := analyzeGroup_preserves (fits_proper_visitBlock (s := s) hg) group ⟨hf, hproper⟩
      refine ih h.2 (fun d hd => horder d (List.mem_cons_of_mem _ hd)) hndr hnext.1 hnext.2 ?_
        (fun d hd => hlevel d (List.mem_cons_of_mem _ hd))
      intro b hb
      -- the group does not touch the blocks of later groups
      obtain ⟨_, n, he, _⟩ := analyzeGroup_rounds (s := s) hg hgroup hf
      have hout : b ∉ group := fun hbg => hdisjoint b hbg b hb rfl
      unfold exposed
      rw [he, (rounds hg hgroup hf (n + 1)).others b hout]
      exact hempty b (List.mem_append_right _ hb)

end Run

end Facts

/-- Does the event report that the bound was hit? -/
def Event.isBoundHit : Event → Bool
  | boundHit .. => true
  | _ => false

/-! ## More passes than needed -/

namespace Outcome

variable {o : Outcome} {next next' : Facts → Outcome}

/-- No passes over a group were ended by the bound. -/
def Ends (o : Outcome) : Prop := ∀ e ∈ o.log, e.isBoundHit = false

theorem Ends.of_andThen (h : (o.andThen next).Ends) : o.Ends := by
  unfold andThen at h
  split at h
  · exact h
  · exact fun e he => h e (List.mem_append_left _ he)

/-- What comes next may be replaced, if that makes a difference only where the bound is hit. -/
theorem Ends.andThen_eq (h : (o.andThen next).Ends)
    (hnext : (next o.facts).Ends → next' o.facts = next o.facts) :
    o.andThen next' = o.andThen next := by
  unfold andThen at h ⊢
  split at h
  · rfl
  · have hends : (next o.facts).Ends := fun e he => h e (List.mem_append_right _ he)
    dsimp only
    rw [hnext hends]

end Outcome

namespace Facts

variable {g : FlowGraph} {s s' : Settings} {group : List BlockId} {f : Facts}

theorem iterate_of_ends (henabled : s.enabled = s'.enabled) {extra : Nat}
    (hmax : s'.maxPasses = s.maxPasses + extra) {left : Nat} (h : (f.iterate s g group left).Ends) :
    f.iterate s' g group (left + extra) = f.iterate s g group left := by
  induction left generalizing f with
  | zero => exact absurd (h _ (List.mem_singleton_self _)) (by simp [Event.isBoundHit])
  | succ left ih =>
      rw [Nat.add_right_comm]
      unfold iterate at h ⊢
      rw [← sweep_congr henabled]
      refine h.andThen_eq fun hends => ?_
      split at hends
      · -- both count the passes that there were, not those that are left
        rename_i hstable
        rw [if_pos hstable, if_pos hstable, hmax, Nat.add_sub_add_right]
      · rename_i hnot
        rw [if_neg hnot, if_neg hnot]
        exact ih hends

theorem analyzeGroup_of_ends (henabled : s.enabled = s'.enabled) (hlevel : s.level ≤ s'.level)
    (h : (f.analyzeGroup s g group).Ends) :
    f.analyzeGroup s' g group = f.analyzeGroup s g group := by
  unfold analyzeGroup at h ⊢
  split
  · rename_i hcyclic
    rw [if_pos hcyclic] at h
    obtain ⟨extra, hextra⟩ := Nat.exists_eq_add_of_le hlevel
    have hmax : s'.maxPasses = s.maxPasses + extra := by
      unfold Settings.maxPasses
      omega
    rw [hmax]
    exact iterate_of_ends henabled hmax h
  · exact (sweep_congr henabled group f).symm

/-- **More passes than needed change nothing**, not even in the log. -/
theorem analyzeGroups_of_ends (henabled : s.enabled = s'.enabled) (hlevel : s.level ≤ s'.level)
    {order : List (List BlockId)} (h : (f.analyzeGroups s g order).Ends) :
    f.analyzeGroups s' g order = f.analyzeGroups s g order := by
  induction order generalizing f with
  | nil => rfl
  | cons group rest ih =>
      unfold analyzeGroups at h ⊢
      rw [analyzeGroup_of_ends henabled hlevel h.of_andThen]
      exact h.andThen_eq ih

end Facts

/-- What the settings come to if passes are counted in 64 bits: the count stops at the largest
number that there is. -/
def Settings.saturated (s : Settings) : Settings :=
  { s with level := min s.level (UInt64.size - 2) }

theorem Settings.maxPasses_saturated (s : Settings) :
    s.saturated.maxPasses = min s.maxPasses (UInt64.size - 1) :=
  (Nat.add_min_add_right s.level (UInt64.size - 2) 1).symm

/-! ## One run tells about all -/

/-- Do two exposed sets have the same members, in whatever order? -/
structure Exposed.SameMembers (x y : Exposed) : Prop where
  regs : ∀ r o, o ∈ x.regs.origins r ↔ o ∈ y.regs.origins r
  mems : ∀ place o, o ∈ x.mems.origins place ↔ o ∈ y.mems.origins place

/-- The stores to all places are known when the cells are, and the other way round. -/
theorem Exposed.sameMembers_iff {x y : Exposed} :
    x.SameMembers y ↔ (∀ r o, o ∈ x.regs.origins r ↔ o ∈ y.regs.origins r) ∧
      ∀ c, c ∈ x.mems.cells ↔ c ∈ y.mems.cells := by
  -- every cell was written by a store to some place
  have hcells : ∀ {m n : MemOrigins}, (∀ place o, o ∈ m.origins place → o ∈ n.origins place) →
      ∀ l o, (l, o) ∈ m.cells → (l, o) ∈ n.cells := by
    intro m n h l o hc
    obtain ⟨st, _, hl, _⟩ := MemOrigins.mem_cells.mp hc
    obtain ⟨l', hl', hc'⟩ := MemOrigins.mem_origins.mp
      (h st.place o (MemOrigins.mem_origins.mpr ⟨l, hl, hc⟩))
    obtain rfl := Option.some.inj (hl.symm.trans hl')
    exact hc'
  constructor
  · intro h
    exact ⟨h.regs, fun ⟨l, o⟩ => ⟨hcells (fun place o => (h.mems place o).mp) l o,
      hcells (fun place o => (h.mems place o).mpr) l o⟩⟩
  · rintro ⟨hregs, hmems⟩
    refine ⟨hregs, fun place o => ?_⟩
    rw [MemOrigins.mem_origins, MemOrigins.mem_origins]
    exact exists_congr fun l => and_congr_right fun _ => hmems (l, o)

namespace FlowGraph

variable {g : FlowGraph}

/-- The analysis ends the passes over every cyclic group because one of them changed
nothing, and over none of them at the bound. -/
def Converges (g : FlowGraph) (options : Options) : Prop :=
  ∃ report, g.analyze options = .ok report ∧
    (∀ group ∈ report.order, g.isCyclic group = true →
      ∃ pass, .converged group pass ∈ report.log) ∧
    ∀ group passes, .boundHit group passes ∉ report.log

theorem converges_iff (hg : g.Linked) (options : Options) :
    g.Converges options ↔
      Facts.RunConverging options.toSettings g g.componentOrder (.fresh g options.tracking) := by
  have hfits := Facts.fresh_fits g options.tracking
  have horder : ∀ group ∈ g.componentOrder, ∀ b ∈ group, b < g.size :=
    fun _ hgroup _ => (g.componentOrder_topological hg).lt hgroup
  unfold Converges
  rw [analyze_eq hg]
  constructor
  · rintro ⟨report, hreport, _, hnot⟩
    obtain rfl := Except.ok.inj hreport
    refine (Facts.runConverging_iff hg horder hfits).mpr fun d passes hmem => ?_
    exact hnot d passes (List.mem_cons_of_mem _ hmem)
  · intro h
    refine ⟨_, rfl, ?_, ?_⟩
    · intro group hgroup hcyclic
      obtain ⟨pass, hpass⟩ := h.converged hg horder hfits hgroup hcyclic
      exact ⟨pass, List.mem_cons_of_mem _ hpass⟩
    · intro d passes hmem
      rcases List.mem_cons.mp hmem with hmem | hmem
      · cases hmem
      · exact (Facts.runConverging_iff hg horder hfits).mp h d passes hmem

/-- **Whether an analysis converges can be read off its log.** -/
theorem converges_iff_log (hg : g.Linked) (options : Options) :
    g.Converges options ↔ ∀ e ∈ (g.run options).log, e.isBoundHit = false := by
  rw [converges_iff hg, Facts.runConverging_iff hg
    (fun _ hgroup _ => (g.componentOrder_topological hg).lt hgroup)
    (Facts.fresh_fits g options.tracking)]
  constructor
  · intro h e he
    cases e with
    | boundHit group passes => exact absurd he (h group passes)
    | _ => rfl
  · intro h group passes hmem
    exact absurd (h _ hmem) (by simp [Event.isBoundHit])

/-- A higher bound does no harm, and no bound needs to be higher than twice the size of the
largest cycle. -/
theorem Converges.transfer (hg : g.Linked) {tracking : Tracking} {enabled : List Opcode}
    {level level' : Nat} (h : g.Converges ⟨⟨level, enabled⟩, tracking⟩)
    (hlevel : level ≤ level' ∨ 2 * g.cycleSize ≤ level') :
    g.Converges ⟨⟨level', enabled⟩, tracking⟩ := by
  have htop := g.componentOrder_topological hg
  refine (converges_iff hg _).mpr (((converges_iff hg _).mp h).transfer (by rfl) hg
    (fun _ hgroup _ => htop.lt hgroup) htop.nodup (Facts.fresh_fits g tracking)
    (Facts.fresh_proper g _ tracking) (fun b _ => Facts.exposed_fresh g tracking b) ?_)
  intro group hgroup hcyclic
  have := g.length_le_cycleSize hgroup hcyclic
  rcases hlevel with hlevel | hlevel
  · exact Or.inl hlevel
  · exact Or.inr (by dsimp only; omega)

/-- **Counting passes in 64 bits makes no difference to an analysis that converges**, unless the
graph has a cycle of more than half as many blocks as can be counted. -/
theorem run_saturated (hg : g.Linked) {options : Options} (h : g.Converges options)
    (hsize : 2 * g.cycleSize ≤ UInt64.size - 2) :
    g.run { options with toSettings := options.saturated } = g.run options := by
  have hconv : g.Converges { options with toSettings := options.saturated } := by
    refine h.transfer hg ?_
    rcases Nat.le_total options.level (UInt64.size - 2) with hle | hle
    · exact Or.inl (Nat.le_of_eq (Nat.min_eq_left hle).symm)
    · exact Or.inr (hsize.trans_eq (Nat.min_eq_right hle).symm)
  have henabled : options.saturated.enabled = options.enabled := rfl
  have hlevel : options.saturated.level ≤ options.level := Nat.min_le_left ..
  have hends := (converges_iff_log hg _).mp hconv
  exact (Facts.analyzeGroups_of_ends henabled hlevel hends).symm

/-- If the bound suffices, one more pass over a group changes none of its exposed sets, but
for their order. -/
theorem sameMembers_sweep (hg : g.Linked) (options : Options) :
    ∃ report, g.analyze options = .ok report ∧ (g.BoundSuffices options report →
      ∀ group ∈ report.order, ∀ b ∈ group,
        ((report.facts.sweep options.toSettings g group).facts.exposed b).SameMembers
          (report.facts.exposed b)) := by
  obtain ⟨report, hreport, hfits, hsettled⟩ := analyze_settles hg options
  refine ⟨report, hreport, fun hbound => ?_⟩
  obtain ⟨_, hsettled⟩ := hsettled hbound
  have horder : report.order = g.componentOrder := by
    rw [analyze_eq hg] at hreport
    exact congrArg Report.order (Except.ok.inj hreport).symm
  intro group hgroup b hb
  rw [horder] at hgroup
  have htop := g.componentOrder_topological hg
  have hsweep := Facts.sweep_sweeps (s := options.toSettings) hg (fun d => htop.lt hgroup) hfits
  -- settled lists have the members that flow to their blocks, before the sweep and after it
  have hlists : ∀ {α : Type} [DecidableEq α] {c : Lane α} {view : Exposed → List α},
      Tracks g options.toSettings report.facts.tracking c view → ∀ a,
        a ∈ view ((report.facts.sweep options.toSettings g group).facts.exposed b) ↔
          a ∈ view (report.facts.exposed b) := by
    intro α _ c view hc a
    have hafter := hsweep.lists hc
    have hmem := Lane.mem_pass_iff (a := a) hg (fun d hd => (hsettled d hd).lists hc a) group
      (htop.lt hgroup hb)
    rw [← hafter] at hmem
    exact hmem.trans ((hsettled b (htop.lt hgroup hb)).lists hc a).symm
  exact Exposed.sameMembers_iff.mpr
    ⟨fun r => hlists (tracks_regLane g _ _ r), hlists (tracks_memLane g _ _)⟩

/-- **When the iteration ends by itself.** From the size of the largest cycle on, further
passes change no exposed set as a set. That all high enough bounds let the iteration end by
itself is decided by a single run, with twice that size as its bound. -/
theorem iteration_ends_iff (hg : g.Built) (tracking : Tracking) (enabled : List Opcode) :
    (∀ level, g.cycleSize ≤ level →
      ∃ report, g.analyze ⟨⟨level, enabled⟩, tracking⟩ = .ok report ∧
        ∀ group ∈ report.order, ∀ b ∈ group,
          ((report.facts.sweep ⟨level, enabled⟩ g group).facts.exposed b).SameMembers
            (report.facts.exposed b)) ∧
    ((∃ L, ∀ level, L ≤ level → g.Converges ⟨⟨level, enabled⟩, tracking⟩) ↔
      g.Converges ⟨⟨2 * g.cycleSize, enabled⟩, tracking⟩) := by
  have hlinked := built_linked hg
  refine ⟨?_, ?_, ?_⟩
  · intro level hlevel
    obtain ⟨report, hreport, hsame⟩ := sameMembers_sweep hlinked ⟨⟨level, enabled⟩, tracking⟩
    exact ⟨report, hreport, hsame (Or.inl hlevel)⟩
  · rintro ⟨L, h⟩
    exact (h L (Nat.le_refl L)).transfer hlinked (Or.inr (Nat.le_refl _))
  · intro h
    exact ⟨2 * g.cycleSize, fun level hlevel => h.transfer hlinked (Or.inl hlevel)⟩

/-- The loop of `tally` comes to rest: one run with a bound of four shows it for all bounds. -/
theorem iteration_ends_tally :
    ∃ L, ∀ level, L ≤ level → tally.Converges ⟨⟨level, []⟩, .registersAndMemory⟩ := by
  refine (iteration_ends_iff tally_built .registersAndMemory []).2.mpr ?_
  exact (converges_iff_log (built_linked tally_built) _).mpr (by decide +kernel)

/-- Two definitions of `x0`, one in front of a loop and one in it. Around the loop the blocks
copy the order in which they list them from one another, and two orders chase each other. -/
def rotating : FlowGraph :=
  let set (address : UInt64) : List Instruction :=
    [.decoded address { opcode := .mov, operands := [.x ⟨0⟩, .imm 1] }]
  let blocks := [[], [], set 0x200, set 0x300, []]
  ((((((blocks.foldl addBlock empty).link 1 0).link 2 0).link 0 4).link 3 4).link 4 1).link 4 2

theorem rotating_built : rotating.Built := by
  refine ((((((Built.link ?_ ?_ ?_).link ?_ ?_).link ?_ ?_).link ?_ ?_).link ?_ ?_).link ?_ ?_)
  · exact ((((Built.empty.addBlock _).addBlock _).addBlock _).addBlock _).addBlock _
  all_goals decide

/-- **No bound is high enough for `rotating`**: the two origins of `x0` change places in every
pass, and for ever. -/
theorem rotating_never_ends :
    ¬ ∃ L, ∀ level, L ≤ level → rotating.Converges ⟨⟨level, []⟩, .registers⟩ := by
  rintro ⟨L, h⟩
  have hlinked := built_linked rotating_built
  -- if any bound were high enough, so would be one of eight, and its run says otherwise
  have hconv : rotating.Converges ⟨⟨2 * rotating.cycleSize, []⟩, .registers⟩ :=
    (h L (Nat.le_refl L)).transfer hlinked (Or.inr (Nat.le_refl _))
  exact absurd ((converges_iff_log hlinked _).mp hconv) (by decide +kernel)

end FlowGraph

end ReachingDefs
