import ReachingDefs.Proofs.Visit

/-!
# Passes over groups

How far the facts get is a matter of how often a group is swept. This file takes
the control flow of the analysis apart: on facts that fit, an analysis of a group is
some number of rounds of sweeping and is never refused. A group without a cycle gets
one round. Any other group gets rounds until one leaves its exposed sets as they
were, or until the bound; `iterate_cases` says which, and what the log tells about it.

Whatever visits of single blocks keep, a whole analysis keeps, whatever groups it is
given: that is `analyze_preserves`.
-/

namespace ReachingDefs

namespace Facts

variable {g : FlowGraph} {s : Settings}

/-! ## What every visit keeps -/

section Preserves

variable {P : Facts → Prop} (h : ∀ f b, P f → P (f.visitBlock s g b).facts)
include h

theorem sweep_preserves (bs : List BlockId) {f : Facts} (hf : P f) : P (f.sweep s g bs).facts := by
  induction bs generalizing f with
  | nil => exact hf
  | cons b bs ih => exact Outcome.andThen_preserves (h f b hf) fun f' hf' => ih hf'

theorem iterate_preserves (group : List BlockId) (left : Nat) {f : Facts} (hf : P f) :
    P (f.iterate s g group left).facts := by
  induction left generalizing f with
  | zero => exact hf
  | succ left ih =>
      refine Outcome.andThen_preserves (sweep_preserves h group hf) fun f' hf' => ?_
      split
      · exact hf'
      · exact ih hf'

theorem analyzeGroup_preserves (group : List BlockId) {f : Facts} (hf : P f) :
    P (f.analyzeGroup s g group).facts := by
  unfold analyzeGroup
  split
  · exact iterate_preserves h group _ hf
  · exact sweep_preserves h group hf

theorem analyzeGroups_preserves (order : List (List BlockId)) {f : Facts} (hf : P f) :
    P (f.analyzeGroups s g order).facts := by
  induction order generalizing f with
  | nil => exact hf
  | cons group order ih =>
      exact Outcome.andThen_preserves (analyzeGroup_preserves h group hf) fun f' hf' => ih hf'

/-- **Whatever visits of single blocks keep, an analysis keeps**, in any order of
groups and with any number of passes. -/
theorem analyze_preserves (order : List (List BlockId)) {f : Facts} (hf : P f) :
    P (f.analyze s g order).facts := by
  unfold analyze
  split
  · exact hf
  · exact analyzeGroups_preserves h order hf

end Preserves

theorem VisitClosed.analyze {P : Facts → Prop} (hP : VisitClosed P) {f : Facts} (hf : P f)
    (s : Settings) (g : FlowGraph) (order : List (List BlockId)) :
    P (f.analyze s g order).facts :=
  analyze_preserves (P := P) (fun _ b hf => hP.visitBlock hf s g b) order hf

/-! ## One sweep -/

/-- A sweep over the blocks `bs` took the facts `f` to an outcome. -/
structure Sweeps (s : Settings) (g : FlowGraph) (bs : List BlockId) (f : Facts) (o : Outcome) :
    Prop where
  fault : o.fault = none
  quiet : ∀ e ∈ o.log, e.endsPasses = false
  tracking : o.facts.tracking = f.tracking
  fits : o.facts.Fits g
  others : ∀ d, d ∉ bs → o.facts.block d = f.block d
  /-- On every lane the sweep is a pass. -/
  lists : ∀ {α : Type} [DecidableEq α] {c : Lane α} {view : Exposed → List α},
    Tracks g s f.tracking c view → o.facts.lists view = c.pass g bs (f.lists view)

theorem facts_sweep_cons {b : BlockId} {f : Facts} (h : (f.visitBlock s g b).fault = none)
    (bs : List BlockId) :
    (f.sweep s g (b :: bs)).facts = ((f.visitBlock s g b).facts.sweep s g bs).facts := by
  rw [sweep, Outcome.andThen_eq h]

theorem sweep_sweeps (hg : g.Linked) {bs : List BlockId} (hbs : ∀ b ∈ bs, b < g.size) {f : Facts}
    (hf : f.Fits g) : Sweeps s g bs f (f.sweep s g bs) := by
  induction bs generalizing f with
  | nil =>
      exact ⟨rfl, fun e he => absurd he List.not_mem_nil, rfl, hf, fun _ _ => rfl, fun _ => rfl⟩
  | cons b bs ih =>
      have hb : b < g.size := hbs b List.mem_cons_self
      obtain ⟨hfault, hv⟩ := visitBlock_visits (s := s) hg hf hb
      have hrest := ih (fun d hd => hbs d (List.mem_cons_of_mem _ hd)) (hv.fits hf)
      unfold sweep
      rw [Outcome.andThen_eq hfault]
      refine ⟨hrest.fault, ?_, hrest.tracking.trans hv.tracking, hrest.fits, ?_, ?_⟩
      · intro e he
        rcases List.mem_append.mp he with he | he
        · exact endsPasses_visitBlock hg hf hb he
        · exact hrest.quiet e he
      · intro d hd
        obtain ⟨hdb, hd⟩ := not_or.mp (mt List.mem_cons.mpr hd)
        exact (hrest.others d hd).trans (hv.others d hdb)
      · intro α _ c view hc
        exact (hrest.lists (hv.tracking ▸ hc)).trans (congrArg (c.pass g bs) (hv.lists hc))

theorem sweep_congr {s s' : Settings} (h : s.enabled = s'.enabled) (bs : List BlockId) (f : Facts) :
    f.sweep s g bs = f.sweep s' g bs := by
  induction bs generalizing f with
  | nil => rfl
  | cons b bs ih =>
      unfold sweep
      rw [visitBlock_congr h, funext ih]

/-- The last visit of a block in a sweep saw the passes over the blocks in front of it. -/
theorem sweep_record (hg : g.Linked) {front back : List BlockId} {o : Site} {i : Instruction}
    (hi : g.instruction? o = some i) (hbs : ∀ d ∈ front ++ o.block :: back, d < g.size)
    (hback : o.block ∉ back) {f : Facts} (hf : f.Fits g) :
    ∃ p : Point, p.Stands g f.tracking o i ∧
      (∀ {α : Type} [DecidableEq α] {c : Lane α} {view : Exposed → List α},
        Tracks g s f.tracking c view → view p.exposed = c.along o.block
          (Lane.join (c.pass g front (f.lists view)) (g.predecessors o.block)) o.index) ∧
      (f.sweep s g (front ++ o.block :: back)).facts.record? o =
        some (p.visit s f.tracking i).record := by
  induction front generalizing f with
  | nil =>
      obtain ⟨hfault, hv⟩ := visitBlock_visits (s := s) hg hf (hbs _ List.mem_cons_self)
      have hrest := sweep_sweeps (s := s) hg (fun d hd => hbs d (List.mem_cons_of_mem _ hd))
        (hv.fits hf)
      -- the blocks behind it in the sweep are others, so the record stays
      obtain ⟨p, hp, hcarries, _, hrecord⟩ := hv.record o i rfl hi
      refine ⟨p, hp, ?_, ?_⟩
      · intro α _ c view hc
        rw [hcarries.along hc, view_union hc]
        rfl
      · rw [← hrecord, List.nil_append, facts_sweep_cons hfault]
        exact record?_congr (hrest.others _ hback)
  | cons d front ih =>
      obtain ⟨hfault, hv⟩ := visitBlock_visits (s := s) hg hf (hbs d List.mem_cons_self)
      obtain ⟨p, hp, hlists, hrecord⟩ :=
        ih (fun e he => hbs e (List.mem_cons_of_mem _ he)) (hv.fits hf)
      rw [hv.tracking] at hp hrecord
      refine ⟨p, hp, ?_, ?_⟩
      · intro α _ c view hc
        have hc' : Tracks g s (f.visitBlock s g d).facts.tracking c view := hv.tracking ▸ hc
        rw [hlists hc', hv.lists hc]
        rfl
      · rw [← hrecord, List.cons_append, facts_sweep_cons hfault]

/-! ## Round after round -/

/-- The facts after one more sweep over a group. -/
def round (s : Settings) (g : FlowGraph) (group : List BlockId) (f : Facts) : Facts :=
  (f.sweep s g group).facts

/-- One more sweep would leave everything that the group exposes as it is. -/
def Stable (s : Settings) (g : FlowGraph) (group : List BlockId) (f : Facts) : Prop :=
  (f.round s g group).snapshot group = f.snapshot group

theorem round_congr {s s' : Settings} (h : s.enabled = s'.enabled) (group : List BlockId) :
    round s g group = round s' g group := by
  funext f
  exact congrArg Outcome.facts (sweep_congr h group f)

section Rounds

variable {group : List BlockId}

/-- What any number of rounds does. -/
structure Rounds (s : Settings) (g : FlowGraph) (group : List BlockId) (n : Nat) (f f' : Facts) :
    Prop where
  tracking : f'.tracking = f.tracking
  fits : f'.Fits g
  others : ∀ d, d ∉ group → f'.block d = f.block d
  lists : ∀ {α : Type} [DecidableEq α] {c : Lane α} {view : Exposed → List α},
    Tracks g s f.tracking c view → f'.lists view = (c.pass g group)^[n] (f.lists view)

theorem rounds (hg : g.Linked) (hgroup : ∀ b ∈ group, b < g.size) {f : Facts} (hf : f.Fits g)
    (n : Nat) : Rounds s g group n f ((round s g group)^[n] f) := by
  induction n with
  | zero => exact ⟨rfl, hf, fun _ _ => rfl, fun _ => rfl⟩
  | succ n ih =>
      have hs := sweep_sweeps (s := s) hg hgroup ih.fits
      rw [Function.iterate_succ_apply']
      refine ⟨hs.tracking.trans ih.tracking, hs.fits, ?_, ?_⟩
      · intro d hd
        exact (hs.others d hd).trans (ih.others d hd)
      · intro α _ c view hc
        rw [Function.iterate_succ_apply', ← ih.lists hc]
        exact hs.lists (ih.tracking ▸ hc)

theorem iterate_of_stable {f : Facts} (hfault : (f.sweep s g group).fault = none) (left : Nat)
    (h : Stable s g group f) :
    f.iterate s g group (left + 1) =
      { facts := f.round s g group
        log := (f.sweep s g group).log ++ [.converged group (s.maxPasses - left)] } := by
  have h' : (f.sweep s g group).facts.snapshot group = f.snapshot group := h
  rw [iterate, Outcome.andThen_eq hfault, if_pos h']
  rfl

theorem iterate_of_not_stable {f : Facts} (hfault : (f.sweep s g group).fault = none) (left : Nat)
    (h : ¬ Stable s g group f) :
    f.iterate s g group (left + 1) =
      { (f.round s g group).iterate s g group left with
        log := (f.sweep s g group).log ++ ((f.round s g group).iterate s g group left).log } := by
  have h' : ¬ (f.sweep s g group).facts.snapshot group = f.snapshot group := h
  rw [iterate, Outcome.andThen_eq hfault, if_neg h']
  rfl

/-- **How the passes over a cyclic group end**: with the first round that is stable, or
at the bound if no round before it is. -/
theorem iterate_cases (hg : g.Linked) (hgroup : ∀ b ∈ group, b < g.size) {f : Facts}
    (hf : f.Fits g) (left : Nat) :
    ∃ quiet : List Event, (∀ e ∈ quiet, e.endsPasses = false) ∧
      ((∃ n pass, n < left ∧ Stable s g group ((round s g group)^[n] f) ∧
          (∀ m, m < n → ¬ Stable s g group ((round s g group)^[m] f)) ∧
          f.iterate s g group left =
            { facts := ((round s g group)^[n + 1] f), log := quiet ++ [.converged group pass] }) ∨
        ((∀ n, n < left → ¬ Stable s g group ((round s g group)^[n] f)) ∧
          f.iterate s g group left =
            { facts := ((round s g group)^[left] f)
              log := quiet ++ [.boundHit group s.maxPasses] })) := by
  induction left generalizing f with
  | zero =>
      refine ⟨[], fun e he => absurd he List.not_mem_nil, Or.inr ⟨?_, rfl⟩⟩
      intro n hn
      omega
  | succ left ih =>
      have hs := sweep_sweeps (s := s) hg hgroup hf
      by_cases hstable : Stable s g group f
      · rw [iterate_of_stable hs.fault left hstable]
        refine ⟨_, hs.quiet, Or.inl ⟨0, _, by omega, hstable, ?_, rfl⟩⟩
        intro m hm
        omega
      · rw [iterate_of_not_stable hs.fault left hstable]
        obtain ⟨quiet, hquiet, hcases⟩ := ih hs.fits
        refine ⟨(f.sweep s g group).log ++ quiet, ?_, ?_⟩
        · intro e he
          rcases List.mem_append.mp he with he | he
          · exact hs.quiet e he
          · exact hquiet e he
        · -- rounds are counted from `f` now, one more than from the next facts
          have hlater : ∀ k, (∀ m, m < k → ¬ Stable s g group
              ((round s g group)^[m] (f.round s g group))) →
              ∀ m, m < k + 1 → ¬ Stable s g group ((round s g group)^[m] f) := by
            intro k hk m hm
            cases m with
            | zero => exact hstable
            | succ m => exact hk m (by omega)
          rcases hcases with ⟨n, pass, hn, hstop, hnot, he⟩ | ⟨hnot, he⟩
          · refine Or.inl ⟨n + 1, pass, by omega, hstop, hlater n hnot, ?_⟩
            rw [round, he, List.append_assoc]
            rfl
          · refine Or.inr ⟨hlater left hnot, ?_⟩
            rw [round, he, List.append_assoc]
            rfl

/-- An analysis of a group is a number of rounds: one for a group without a cycle, and
otherwise so many that the last one was stable or the bound was hit. -/
theorem analyzeGroup_rounds (hg : g.Linked) (hgroup : ∀ b ∈ group, b < g.size) {f : Facts}
    (hf : f.Fits g) :
    (f.analyzeGroup s g group).fault = none ∧
      ∃ n, (f.analyzeGroup s g group).facts = (round s g group)^[n + 1] f ∧
        (g.isCyclic group = false ∧ n = 0 ∨
          g.isCyclic group = true ∧ Stable s g group ((round s g group)^[n] f) ∨
          g.isCyclic group = true ∧ n = s.level ∧
            .boundHit group s.maxPasses ∈ (f.analyzeGroup s g group).log) := by
  unfold analyzeGroup
  by_cases hcyclic : g.isCyclic group = true
  · rw [if_pos hcyclic]
    obtain ⟨quiet, _, ⟨n, pass, _, hstop, _, he⟩ | ⟨_, he⟩⟩ :=
      iterate_cases (s := s) hg hgroup hf s.maxPasses
    · rw [he]
      exact ⟨rfl, n, rfl, Or.inr (Or.inl ⟨hcyclic, hstop⟩)⟩
    · rw [he]
      exact ⟨rfl, s.level, rfl, Or.inr (Or.inr ⟨hcyclic, rfl, by simp⟩)⟩
  · rw [if_neg hcyclic]
    exact ⟨(sweep_sweeps hg hgroup hf).fault, 0, rfl, Or.inl ⟨by simpa using hcyclic, rfl⟩⟩

end Rounds

/-! ## Group after group -/

section Groups

variable {order : List (List BlockId)}

theorem analyzeGroup_fits (hg : g.Linked) {group : List BlockId}
    (hgroup : ∀ b ∈ group, b < g.size) {f : Facts} (hf : f.Fits g) :
    (f.analyzeGroup s g group).facts.Fits g := by
  obtain ⟨_, n, he, _⟩ := analyzeGroup_rounds (s := s) hg hgroup hf
  rw [he]
  exact (rounds hg hgroup hf _).fits

/-- Groups of blocks that are there are never refused. -/
theorem analyzeGroups_fault (hg : g.Linked) (horder : ∀ group ∈ order, ∀ b ∈ group, b < g.size)
    {f : Facts} (hf : f.Fits g) : (f.analyzeGroups s g order).fault = none := by
  induction order generalizing f with
  | nil => rfl
  | cons group order ih =>
      have hgroup := horder group List.mem_cons_self
      unfold analyzeGroups
      rw [Outcome.andThen_eq (analyzeGroup_rounds hg hgroup hf).1]
      exact ih (fun d hd => horder d (List.mem_cons_of_mem _ hd)) (analyzeGroup_fits hg hgroup hf)

/-- **What every group brings one step further, a whole analysis brings to the end.** The
property may count on what the log says about the group. -/
theorem analyzeGroups_induct (hg : g.Linked) (horder : ∀ group ∈ order, ∀ b ∈ group, b < g.size)
    {P : List (List BlockId) → Facts → Prop} (ok : Event → Prop)
    (hstep : ∀ front group back f, order = front ++ group :: back → f.Fits g → P front f →
      (∀ e ∈ (f.analyzeGroup s g group).log, ok e) →
      P (front ++ [group]) (f.analyzeGroup s g group).facts)
    {f : Facts} (hf : f.Fits g) (h : P [] f)
    (hlog : ∀ e ∈ (f.analyzeGroups s g order).log, ok e) :
    P order (f.analyzeGroups s g order).facts := by
  -- the induction is over the groups still to come, with those done in front of them
  have hall : ∀ rest front f, order = front ++ rest → f.Fits g → P front f →
      (∀ e ∈ (f.analyzeGroups s g rest).log, ok e) → P order (f.analyzeGroups s g rest).facts := by
    intro rest
    induction rest with
    | nil =>
        intro front f he _ h _
        rw [he, List.append_nil]
        exact h
    | cons group rest ih =>
        intro front f he hf h hlog
        have hgroup : ∀ b ∈ group, b < g.size := horder group (by rw [he]; simp)
        have heq : f.analyzeGroups s g (group :: rest) = _ :=
          Outcome.andThen_eq (analyzeGroup_rounds hg hgroup hf).1 _
        rw [heq] at hlog ⊢
        refine ih (front ++ [group]) _ (by rw [he]; simp) (analyzeGroup_fits hg hgroup hf) ?_ ?_
        · refine hstep front group rest f he hf h fun e hmem => ?_
          exact hlog e (List.mem_append_left _ hmem)
        · intro e hmem
          exact hlog e (List.mem_append_right _ hmem)
  exact hall order [] f rfl hf h hlog

end Groups

end Facts

end ReachingDefs
