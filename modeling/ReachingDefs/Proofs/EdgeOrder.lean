import ReachingDefs.Proofs.Chains
import ReachingDefs.Proofs.Convergence

/-!
# The order of the edges does not matter

A graph lists the neighbours of a block in the order in which their edges were added.
That order decides in which order the components are analysed, in which order origins
are listed, and even how many passes a cyclic group gets. None of it shows in the facts
when they are read as sets.

Two analyses of the same blocks and edges are compared group by group. When the turn of a
group comes, the facts about its blocks are fresh and those about the blocks in front of it
are final, in both analyses, whatever else has been analysed by then. From there both
sweep over the group equally often, as far as the facts can tell, and each visit keeps the
facts alike.
-/

namespace ReachingDefs

variable {g g' : FlowGraph} {s : Settings} {tracking : Tracking} {b : BlockId}

/-! ## Graphs with the same edges -/

/-- The two graphs have the same blocks, and the same edges listed in whatever order. -/
structure FlowGraph.SameFlow (g g' : FlowGraph) : Prop where
  size : g'.size = g.size
  instructions : ∀ b, g'.instructions b = g.instructions b
  edges : ∀ u v, v ∈ g'.successors u ↔ v ∈ g.successors u

/-- Edges may be added in any order, and repeated. -/
theorem FlowGraph.sameFlow_build {blocks : List (List Instruction)}
    {edges edges' : List (BlockId × BlockId)} (h : ∀ e, e ∈ edges' ↔ e ∈ edges)
    (hg : build blocks edges = .ok g) (hg' : build blocks edges' = .ok g') : g.SameFlow g' := by
  obtain ⟨_, hsize, hinstructions, hedges⟩ := addEdges_eq_ok hg
  obtain ⟨_, hsize', hinstructions', hedges'⟩ := addEdges_eq_ok hg'
  refine ⟨hsize'.trans hsize.symm, fun b => (hinstructions' b).trans (hinstructions b).symm, ?_⟩
  intro u v
  rw [hedges', hedges, h]

namespace FlowGraph.SameFlow

theorem length (h : SameFlow g g') (b : BlockId) : g'.length b = g.length b :=
  congrArg List.length (h.instructions b)

theorem instruction? (h : SameFlow g g') (o : Site) : g'.instruction? o = g.instruction? o := by
  unfold FlowGraph.instruction?
  rw [h.instructions]

theorem predecessors (h : SameFlow g g') (hg : g.Linked) (hg' : g'.Linked) (b p : BlockId) :
    p ∈ g'.predecessors b ↔ p ∈ g.predecessors b := by
  rw [← hg.symm, ← hg'.symm, h.edges]

theorem component (h : SameFlow g g') (hg : g.Linked) (hg' : g'.Linked) (hb : b < g.size) :
    g'.component b = g.component b := by
  refine (g'.component_ascending b).eq_of_mem_iff (g.component_ascending b) fun x => ?_
  rw [mem_component hg hb, mem_component hg' (h.size.symm ▸ hb)]
  unfold Mutual Reaches
  simp only [h.edges]

theorem isCyclic (h : SameFlow g g') (group : List BlockId) :
    g'.isCyclic group = g.isCyclic group := by
  match group with
  | [] => rfl
  | [b] =>
      show (g'.successors b).contains b = (g.successors b).contains b
      simp only [List.contains_eq_mem, h.edges]
  | _ :: _ :: _ => rfl

theorem tracks {α : Type} [DecidableEq α] {c : Lane α} {view : Exposed → List α}
    (h : SameFlow g g') (hc : Tracks g s tracking c view) : Tracks g' s tracking c view where
  empty := hc.empty
  merge := hc.merge
  visit p o i hp := hc.visit p o i ⟨(h.instruction? o).symm.trans hp.instruction, hp.head⟩

theorem carries {start x : Exposed} {n : Nat} (h : SameFlow g g')
    (hx : Carries g' s tracking b start n x) : Carries g s tracking b start n x where
  along hc := hx.along (h.tracks hc)
  keeps hkeep hstart := hx.keeps (fun p o i hp =>
    hkeep p o i ⟨(h.instruction? o).symm.trans hp.instruction, hp.head⟩) hstart

end FlowGraph.SameFlow

/-! ## Facts that differ in listing order only -/

/-- The same instruction, the same values and addresses, and the same origins of every
register. -/
structure Record.Alike (x y : Record) : Prop where
  head : y.head = x.head
  defs : ∀ r, y.defs.get? r = x.defs.get? r
  memDefs : ∀ r, y.memDef? r = x.memDef? r
  refs : ∀ r o, o ∈ y.refs.origins r ↔ o ∈ x.refs.origins r
  memRefs : ∀ r o, o ∈ y.memOrigins r ↔ o ∈ x.memOrigins r

theorem Record.Alike.refl (x : Record) : x.Alike x :=
  ⟨rfl, fun _ => rfl, fun _ => rfl, fun _ _ => Iff.rfl, fun _ _ => Iff.rfl⟩

theorem Record.Alike.getD {x y : Option Record} (h : Option.Rel Record.Alike x y) (z : Record) :
    (x.getD z).Alike (y.getD z) := by
  cases h with
  | none => exact .refl z
  | some h => exact h

/-- **Visits of an instruction keep its records alike.** -/
theorem Point.Stands.alike {p p' : Point} {o : Site} {i : Instruction}
    (hp : p.Stands g tracking o i) (hp' : p'.Stands g tracking o i)
    (hx : p.exposed.SameMembers p'.exposed) (hr : p.record.Alike p'.record) :
    (p.visit s tracking i).record.Alike (p'.visit s tracking i).record := by
  refine ⟨hp'.visited.head.trans hp.visited.head.symm, ?_, ?_, ?_, ?_⟩
  · intro r
    rw [hp'.get?_defs, hp.get?_defs, hr.defs]
  · intro r
    by_cases ht : tracking.memory = true
    · rw [hp'.memDef? ht, hp.memDef? ht, hr.memDefs]
    · unfold Record.memDef?
      rw [hp'.visited.mem_eq_none ht, hp.visited.mem_eq_none ht]
  · intro r d
    rw [hp'.mem_refs, hp.mem_refs, hr.refs, hx.regs]
  · intro r d
    by_cases ht : tracking.memory = true
    · rw [hp'.mem_memOrigins ht, hp.mem_memOrigins ht, hr.memRefs]
      simp only [(Exposed.sameMembers_iff.mp hx).2]
    · unfold Record.memOrigins Record.memRef?
      rw [hp'.visited.mem_eq_none ht, hp.visited.mem_eq_none ht]

/-- What is carried through a block keeps the same members. -/
theorem Carries.sameMembers {start start' x y : Exposed} {n : Nat}
    (hx : Carries g s tracking b start n x) (hy : Carries g s tracking b start' n y)
    (h : start.SameMembers start') : x.SameMembers y := by
  obtain ⟨hregs, hcells⟩ := Exposed.sameMembers_iff.mp h
  refine Exposed.sameMembers_iff.mpr ⟨fun r o => ?_, fun c => ?_⟩
  · rw [hx.along (tracks_regLane g s tracking r), hy.along (tracks_regLane g s tracking r)]
    exact Lane.mem_along_congr (hregs r o)
  · rw [hx.along (tracks_memLane g s tracking), hy.along (tracks_memLane g s tracking)]
    exact Lane.mem_along_congr (hcells c)

namespace Facts

variable {f f' h h' : Facts}

/-- The facts about block `b` are alike. -/
structure AlikeAt (f f' : Facts) (b : BlockId) : Prop where
  exposed : (f.exposed b).SameMembers (f'.exposed b)
  record : ∀ o, o.block = b → Option.Rel Record.Alike (f.record? o) (f'.record? o)

theorem AlikeAt.congr (ha : AlikeAt f f' b) (hf : h.block b = f.block b)
    (hf' : h'.block b = f'.block b) : AlikeAt h h' b := by
  constructor
  · unfold Facts.exposed
    rw [hf, hf']
    exact ha.exposed
  · intro o ho
    subst ho
    rw [record?_congr hf, record?_congr hf']
    exact ha.record o rfl

theorem AlikeAt.refl (f : Facts) (b : BlockId) : AlikeAt f f b := by
  refine ⟨⟨fun _ _ => Iff.rfl, fun _ _ => Iff.rfl⟩, fun o _ => ?_⟩
  cases f.record? o with
  | none => exact .none
  | some x => exact .some (Record.Alike.refl x)

theorem union_sameMembers (hsame : g.SameFlow g') (hg : g.Linked) (hg' : g'.Linked)
    (hpred : ∀ p ∈ g.predecessors b, AlikeAt f f' p) :
    (f.union (g.predecessors b)).SameMembers (f'.union (g'.predecessors b)) := by
  -- on a lane, the union lists what some predecessor lists
  have hlane : ∀ {α : Type} [DecidableEq α] {c : Lane α} {view : Exposed → List α},
      Tracks g {} .registersAndMemory c view →
      (∀ p ∈ g.predecessors b, ∀ a, a ∈ view (f.exposed p) ↔ a ∈ view (f'.exposed p)) →
      ∀ a, a ∈ view (f.union (g.predecessors b)) ↔ a ∈ view (f'.union (g'.predecessors b)) := by
    intro α _ c view hc hp a
    rw [view_union hc, view_union hc, Lane.mem_join, Lane.mem_join]
    unfold lists
    constructor
    · rintro ⟨p, hmem, ha⟩
      exact ⟨p, (hsame.predecessors hg hg' b p).mpr hmem, (hp p hmem a).mp ha⟩
    · rintro ⟨p, hmem, ha⟩
      rw [hsame.predecessors hg hg'] at hmem
      exact ⟨p, hmem, (hp p hmem a).mpr ha⟩
  refine Exposed.sameMembers_iff.mpr ⟨fun r => ?_, ?_⟩
  · exact hlane (tracks_regLane g _ _ r) fun p hp => (hpred p hp).exposed.regs r
  · refine hlane (tracks_memLane g _ _) fun p hp => ?_
    exact (Exposed.sameMembers_iff.mp (hpred p hp).exposed).2

/-- **Visits of a block keep facts alike**, if they are alike at its predecessors. -/
theorem Visits.alike (hv : Visits s g b f h) (hv' : Visits s g' b f' h')
    (hsame : g.SameFlow g') (hg : g.Linked) (hg' : g'.Linked) (hf : f.Fits g) (hf' : f'.Fits g')
    (htracking : f'.tracking = f.tracking) (hpred : ∀ p ∈ g.predecessors b, AlikeAt f f' p)
    {d : BlockId} (hd : AlikeAt f f' d) : AlikeAt h h' d := by
  by_cases hdb : d = b
  · subst hdb
    have hunion := union_sameMembers hsame hg hg' hpred
    constructor
    · have hcarries := hsame.carries hv'.exposed
      rw [htracking, hsame.length] at hcarries
      exact hv.exposed.sameMembers hcarries hunion
    · intro o ho
      cases hi : g.instruction? o with
      | none =>
          rw [(hv.fits hf).record?_eq_none hi,
            (hv'.fits hf').record?_eq_none ((hsame.instruction? o).trans hi)]
          exact .none
      | some i =>
          obtain ⟨p, hp, hcarries, hold, hrecord⟩ := hv.record o i ho hi
          obtain ⟨p', hp', hcarries', hold', hrecord'⟩ :=
            hv'.record o i ho ((hsame.instruction? o).trans hi)
          rw [htracking] at hp' hcarries' hold' hrecord'
          have hp' : p'.Stands g f.tracking o i := ⟨hi, hp'.head⟩
          rw [hrecord, hrecord']
          refine .some (hp.alike hp' (hcarries.sameMembers (hsame.carries hcarries') hunion) ?_)
          rw [hold, hold']
          exact .getD (hd.record o ho) _
  · exact hd.congr (hv.others d hdb) (hv'.others d hdb)

/-- A sweep keeps facts alike on any blocks that have the predecessors of all visited
ones among them. -/
theorem sweep_alike (hsame : g.SameFlow g') (hg : g.Linked) (hg' : g'.Linked)
    {S : BlockId → Prop} {bs : List BlockId} (hbs : ∀ b ∈ bs, b < g.size)
    (hpred : ∀ b ∈ bs, ∀ p ∈ g.predecessors b, S p) (hf : f.Fits g) (hf' : f'.Fits g')
    (htracking : f'.tracking = f.tracking) (h : ∀ b, S b → AlikeAt f f' b) {d : BlockId}
    (hd : S d) : AlikeAt (f.sweep s g bs).facts (f'.sweep s g' bs).facts d := by
  induction bs generalizing f f' with
  | nil => exact h d hd
  | cons b bs ih =>
      have hb : b < g.size := hbs b List.mem_cons_self
      obtain ⟨hfault, hv⟩ := visitBlock_visits (s := s) hg hf hb
      obtain ⟨hfault', hv'⟩ := visitBlock_visits (s := s) hg' hf' (hsame.size.symm ▸ hb)
      rw [facts_sweep_cons hfault, facts_sweep_cons hfault']
      refine ih (fun d hd => hbs d (List.mem_cons_of_mem _ hd))
        (fun d hd => hpred d (List.mem_cons_of_mem _ hd)) (hv.fits hf) (hv'.fits hf')
        (hv'.tracking.trans (htracking.trans hv.tracking.symm)) fun e he => ?_
      exact hv.alike hv' hsame hg hg' hf hf' htracking
        (fun p hp => h p (hpred b List.mem_cons_self p hp)) (h e he)

/-! ## The turn of a group -/

theorem plan_append (s : Settings) (g : FlowGraph) (front back : List (List BlockId)) :
    plan s g (front ++ back) = plan s g front ++ plan s g back :=
  List.flatMap_append

/-- In an analysis from no facts that comes to `done`, the turn of `group` comes after the
groups in `front`, with the facts `start`. -/
structure Turn (s : Settings) (g : FlowGraph) (tracking : Tracking) (front : List (List BlockId))
    (group : List BlockId) (start done : Facts) : Prop where
  fits : start.Fits g
  /-- What was analysed before is final. -/
  before : ∀ b ∈ front.flatten, start.block b = done.block b
  /-- What was not is fresh. -/
  fresh : ∀ b, b ∉ front.flatten → start.block b = (Facts.fresh g tracking).block b
  /-- The blocks of the group are not visited after their turn. -/
  after : ∀ b ∈ group, done.block b = (start.sweep s g (plan s g [group])).facts.block b
  tracking : start.tracking = tracking

theorem exists_turn (hg : g.Linked) (s : Settings) (tracking : Tracking)
    {front back : List (List BlockId)} {group : List BlockId}
    (htop : g.Topological (front ++ group :: back)) :
    ∃ start, Turn s g tracking front group start
      ((Facts.fresh g tracking).sweep s g (plan s g (front ++ group :: back))).facts := by
  have hlt : ∀ b ∈ (front ++ group :: back).flatten, b < g.size := fun b => (htop.cover b).mp
  have hnd := htop.nodup
  simp only [List.flatten_append, List.flatten_cons, List.mem_append] at hlt hnd
  obtain ⟨_, hrest, hfront⟩ := List.nodup_append.mp hnd
  obtain ⟨_, _, hback⟩ := List.nodup_append.mp hrest
  have hmem : ∀ {b : BlockId}, b ∈ plan s g [group] → b ∈ group := fun hb => by
    simpa using mem_flatten_of_mem_plan hb
  -- the sweep falls into three parts, before, during and after the turn
  have hpre : ∀ b ∈ plan s g front, b < g.size := fun b hb =>
    hlt b (Or.inl (mem_flatten_of_mem_plan hb))
  have hmid : ∀ b ∈ plan s g [group], b < g.size := fun b hb => hlt b (Or.inr (Or.inl (hmem hb)))
  have hpost : ∀ b ∈ plan s g back, b < g.size := fun b hb =>
    hlt b (Or.inr (Or.inr (mem_flatten_of_mem_plan hb)))
  have hstart := sweep_sweeps (s := s) hg hpre (fresh_fits g tracking)
  have hturn := sweep_sweeps (s := s) hg hmid hstart.fits
  have hdone := sweep_sweeps (s := s) hg hpost hturn.fits
  have hplan : plan s g (front ++ group :: back) =
      plan s g front ++ (plan s g [group] ++ plan s g back) := by
    rw [plan_append, ← plan_append s g [group]]
    rfl
  rw [hplan, facts_sweep_append hg hpre (fresh_fits g tracking),
    facts_sweep_append hg hmid hstart.fits]
  refine ⟨_, hstart.fits, ?_, ?_, ?_, hstart.tracking⟩
  · intro b hb
    have hgroup : b ∉ plan s g [group] := fun h =>
      hfront b hb b (List.mem_append_left _ (hmem h)) rfl
    have hrest : b ∉ plan s g back := fun h =>
      hfront b hb b (List.mem_append_right _ (mem_flatten_of_mem_plan h)) rfl
    rw [hdone.others b hrest, hturn.others b hgroup]
  · intro b hb
    exact hstart.others b fun h => hb (mem_flatten_of_mem_plan h)
  · intro b hb
    exact hdone.others b fun h => hback b hb b (mem_flatten_of_mem_plan h) rfl

theorem block_fresh_congr (hsame : g.SameFlow g') (tracking : Tracking) (b : BlockId) :
    (Facts.fresh g' tracking).block b = (Facts.fresh g tracking).block b := by
  rw [block_fresh, block_fresh, hsame.length]

theorem plan_congr (hsame : g.SameFlow g') (s : Settings) (order : List (List BlockId)) :
    plan s g' order = plan s g order := by
  unfold plan passes
  simp only [hsame.isCyclic]

/-- **A group comes out alike** if what leads into it from outside does. -/
theorem Turn.alike {front front' back back' : List (List BlockId)} {group : List BlockId}
    {start start' done done' : Facts} (ht : Turn s g tracking front group start done)
    (ht' : Turn s g' tracking front' group start' done') (hsame : g.SameFlow g') (hg : g.Linked)
    (hg' : g'.Linked) (htop : g.Topological (front ++ group :: back))
    (htop' : g'.Topological (front' ++ group :: back'))
    (houter : ∀ d ∈ group, ∀ p ∈ g.predecessors d, p ∉ group → AlikeAt done done' p) :
    ∀ b ∈ group, AlikeAt done done' b := by
  have hown : ∀ d ∈ group, AlikeAt start start' d := fun d hd =>
    (AlikeAt.refl (Facts.fresh g tracking) d).congr (ht.fresh d (htop.not_mem_front hd))
      ((ht'.fresh d (htop'.not_mem_front hd)).trans (block_fresh_congr hsame tracking d))
  -- what leads into the group is final when its turn comes, in both analyses
  have hpred : ∀ d ∈ group, ∀ p ∈ g.predecessors d, AlikeAt start start' p := by
    intro d hd p hp
    by_cases hpg : p ∈ group
    · exact hown p hpg
    · have hp' : p ∈ g'.predecessors d := (hsame.predecessors hg hg' d p).mpr hp
      have hfront := (htop.forward front group back rfl d hd p hp).resolve_left hpg
      have hfront' := (htop'.forward front' group back' rfl d hd p hp').resolve_left hpg
      exact (houter d hd p hp hpg).congr (ht.before p hfront) (ht'.before p hfront')
  have hplan : ∀ d ∈ plan s g [group], d ∈ group := fun d hd => by
    simpa using mem_flatten_of_mem_plan hd
  intro b hb
  have hsweep := sweep_alike (s := s) (S := fun d => d ∈ group ∨ ∃ c ∈ group, d ∈ g.predecessors c)
    hsame hg hg' (fun d hd => htop.lt (by simp) (hplan d hd))
    (fun d hd p hp => Or.inr ⟨d, hplan d hd, hp⟩) ht.fits ht'.fits
    (ht'.tracking.trans ht.tracking.symm)
    (fun d hd => hd.elim (hown d) fun ⟨c, hc, hd⟩ => hpred c hc d hd) (Or.inl hb)
  have hafter' := ht'.after b hb
  rw [plan_congr hsame] at hafter'
  exact hsweep.congr (ht.after b hb) hafter'

end Facts

namespace FlowGraph

open Facts

theorem facts_run (hg : g.Linked) (options : Options) :
    (g.run options).facts = ((Facts.fresh g options.tracking).sweep options.toSettings g
      (plan options.toSettings g g.componentOrder)).facts := by
  have htop := g.componentOrder_topological hg
  exact facts_analyzeGroups hg (fun _ hgroup _ => htop.lt hgroup) (fresh_fits g _)
    (fresh_proper g _ _)

theorem block_run_of_le (hg : g.Linked) (options : Options) (hb : g.size ≤ b) :
    (g.run options).facts.block b = (Facts.fresh g options.tracking).block b := by
  have htop := g.componentOrder_topological hg
  have hlt : ∀ d ∈ plan options.toSettings g g.componentOrder, d < g.size := fun d hd =>
    (htop.cover d).mp (mem_flatten_of_mem_plan hd)
  rw [facts_run hg]
  exact (sweep_sweeps hg hlt (fresh_fits g _)).others b fun hmem =>
    absurd (hlt b hmem) (Nat.not_lt.mpr hb)

/-- **The facts about every block come out alike.** -/
theorem SameFlow.run_alike (hsame : g.SameFlow g') (hg : g.Linked) (hg' : g'.Linked)
    (options : Options) (b : BlockId) :
    AlikeAt (g.run options).facts (g'.run options).facts b := by
  have htop := g.componentOrder_topological hg
  have htop' := g'.componentOrder_topological hg'
  -- the induction is over the groups in the order of `g`, by the number of those in front
  have hgroups : ∀ n front group back, front.length = n →
      g.componentOrder = front ++ group :: back → ∀ b ∈ group,
      AlikeAt (g.run options).facts (g'.run options).facts b := by
    intro n
    induction n using Nat.strong_induction_on with
    | _ n ih =>
      intro front group back hn horder
      have hmem : group ∈ g'.componentOrder := by
        obtain ⟨b, hb, rfl⟩ := mem_componentOrder.mp (show group ∈ g.componentOrder by simp [horder])
        exact mem_componentOrder.mpr ⟨b, hsame.size.symm ▸ hb, hsame.component hg hg' hb⟩
      obtain ⟨front', back', horder'⟩ := List.append_of_mem hmem
      rw [horder] at htop
      rw [horder'] at htop'
      obtain ⟨start, hturn⟩ := exists_turn hg options.toSettings options.tracking htop
      obtain ⟨start', hturn'⟩ := exists_turn hg' options.toSettings options.tracking htop'
      rw [← horder, ← facts_run hg] at hturn
      rw [← horder', ← facts_run hg'] at hturn'
      refine hturn.alike hturn' hsame hg hg' htop htop' fun d hd p hp hpg => ?_
      -- `p` stands in an earlier group
      have hfront := (htop.forward front group back rfl d hd p hp).resolve_left hpg
      obtain ⟨earlier, hearlier, hp⟩ := List.mem_flatten.mp hfront
      obtain ⟨l₁, l₂, rfl⟩ := List.append_of_mem hearlier
      refine ih l₁.length ?_ l₁ earlier (l₂ ++ group :: back) rfl ?_ p hp
      · rw [← hn, List.length_append, List.length_cons]
        omega
      · rw [horder, List.append_assoc, List.cons_append]
  rcases Nat.lt_or_ge b g.size with hb | hb
  · obtain ⟨group, hgroup, hb⟩ := List.mem_flatten.mp ((htop.cover b).mpr hb)
    obtain ⟨front, back, horder⟩ := List.append_of_mem hgroup
    exact hgroups _ front group back rfl horder b hb
  · exact (AlikeAt.refl (Facts.fresh g options.tracking) b).congr (block_run_of_le hg options hb)
      ((block_run_of_le hg' options (hsame.size.symm ▸ hb)).trans (block_fresh_congr hsame _ b))

end FlowGraph

/-! ## The report -/

/-- The same registers have entries, with the same members. -/
def SameEntries (t u : Register → Option (List Site)) : Prop :=
  ∀ r, Option.Rel (fun os os' => ∀ o, o ∈ os ↔ o ∈ os') (t r) (u r)

/-- The same origins and the same cells, in whatever order. -/
structure Exposed.SameSets (x y : Exposed) : Prop where
  regs : SameEntries x.regs.get? y.regs.get?
  cells : ∀ c, c ∈ x.mems.cells ↔ c ∈ y.mems.cells

/-- The same instruction, values and addresses, and the same origins in whatever order. -/
structure Record.SameSets (x y : Record) : Prop where
  site : x.site = y.site
  address : x.address = y.address
  defs : x.defs = y.defs
  memDefs : x.mem.map (·.defs) = y.mem.map (·.defs)
  refs : SameEntries x.refs.get? y.refs.get?
  memRefs : SameEntries x.memRef? y.memRef?

/-- The same findings, but for the order in which they are listed. -/
structure Report.SameSets (x y : Report) : Prop where
  records : ∀ o, Option.Rel Record.SameSets (x.facts.record? o) (y.facts.record? o)
  exposed : ∀ b, (x.facts.exposed b).SameSets (y.facts.exposed b)
  uses : ∀ d u, u ∈ x.chains.uses d ↔ u ∈ y.chains.uses d
  isUsed : ∀ d, x.chains.isUsed d = y.chains.isUsed d
  isDead : ∀ o i j, x.facts.record? o = some i → y.facts.record? o = some j →
    x.chains.isDead i = y.chains.isDead j

theorem RegTable.NoEmpty.sameEntries {t u : RegOrigins} (ht : t.NoEmpty) (hu : u.NoEmpty)
    (h : ∀ r o, o ∈ u.origins r ↔ o ∈ t.origins r) : SameEntries t.get? u.get? := by
  intro r
  rw [ht.get?_eq, hu.get?_eq]
  by_cases he : t.origins r = []
  · have he' : u.origins r = [] := by
      refine List.eq_nil_iff_forall_not_mem.mpr fun o ho => ?_
      rw [h, he] at ho
      exact absurd ho List.not_mem_nil
    rw [if_pos he, if_pos he']
    exact .none
  · have he' : u.origins r ≠ [] := by
      obtain ⟨o, ho⟩ := List.exists_mem_of_ne_nil _ he
      exact List.ne_nil_of_mem ((h r o).mpr ho)
    rw [if_neg he, if_neg he']
    exact .some fun o => (h r o).symm

theorem Record.Alike.sameSets {x y : Record} (h : x.Alike y) (hx : x.NoEmpty) (hy : y.NoEmpty) :
    x.SameSets y := by
  have hsome : y.mem.isSome = x.mem.isSome := congrArg (·.2.2) h.head
  refine ⟨congrArg (·.1) h.head.symm, congrArg (·.2.1) h.head.symm,
    RegTable.ext_get? fun r => (h.defs r).symm, ?_, hx.refs.sameEntries hy.refs h.refs, ?_⟩
  · have hdefs := h.memDefs
    unfold memDef? at hdefs
    cases hxm : x.mem with
    | none => cases hym : y.mem <;> simp_all
    | some m =>
        cases hym : y.mem with
        | none => simp_all
        | some n =>
            rw [hxm, hym] at hdefs
            exact congrArg some (RegTable.ext_get? fun r => (hdefs r).symm)
  · cases hxm : x.mem with
    | none =>
        have hym : y.mem = none := by simpa [hxm] using hsome
        intro r
        unfold memRef?
        rw [hxm, hym]
        exact .none
    | some m =>
        obtain ⟨n, hym⟩ := Option.isSome_iff_exists.mp (hsome.trans (congrArg _ hxm))
        have hsame := (hx.memRefs m hxm).sameEntries (hy.memRefs n hym) fun r o => by
          rw [← memOrigins_of_mem hxm, ← memOrigins_of_mem hym, h.memRefs]
        intro r
        unfold memRef?
        rw [hxm, hym]
        exact hsame r

theorem Record.SameSets.of_rel {x y : Option Record} (h : Option.Rel Record.Alike x y)
    (hx : ∀ a, x = some a → a.NoEmpty) (hy : ∀ a, y = some a → a.NoEmpty) :
    Option.Rel Record.SameSets x y := by
  cases h with
  | none => exact .none
  | some h => exact .some (h.sameSets (hx _ rfl) (hy _ rfl))

theorem Record.SameSets.stores {x y : Record} (h : x.SameSets y) : x.stores = y.stores := by
  have heq : ∀ z : Record, z.stores = (z.mem.map (·.defs)).any (!·.isEmpty) := by
    intro z
    unfold Record.stores
    rw [Option.any_map]
  rw [heq, heq, h.memDefs]

namespace Facts

variable {f f' : Facts}

theorem mem_uses_iff_of_alike (h : ∀ b, AlikeAt f f' b) (d : Site) (u : Use) :
    u ∈ (UseChains.ofFacts f).uses d ↔ u ∈ (UseChains.ofFacts f').uses d := by
  have hlinks : ∀ {x y : Record}, x.Alike y → ((d, u) ∈ x.links ↔ (d, u) ∈ y.links) := by
    intro x y hxy
    rw [Record.mem_links, Record.mem_links, hxy.refs, hxy.memRefs,
      show y.site = x.site from congrArg (·.1) hxy.head]
  have hmem : ∀ {x y : Option Record}, Option.Rel Record.Alike x y →
      ((∃ a, x = some a ∧ (d, u) ∈ a.links) ↔ ∃ a, y = some a ∧ (d, u) ∈ a.links) := by
    intro x y hxy
    cases hxy with
    | none => simp
    | some hxy => simp [hlinks hxy]
  rw [UseChains.mem_uses, UseChains.mem_uses]
  exact exists_congr fun o => hmem ((h o.block).record o rfl)

theorem isUsed_eq_of_alike (h : ∀ b, AlikeAt f f' b) (d : Site) :
    (UseChains.ofFacts f).isUsed d = (UseChains.ofFacts f').isUsed d := by
  unfold UseChains.isUsed
  rw [Bool.not_inj_iff, Bool.eq_iff_iff]
  simp only [List.isEmpty_iff, List.eq_nil_iff_forall_not_mem, mem_uses_iff_of_alike h]

/-- An analysis leaves proper exposed sets, and no entries without origins. -/
theorem run_noEmpty (hg : g.Linked) (options : Options) :
    (g.run options).facts.Proper g options.toSettings ∧
      (g.run options).facts.RecordsNoEmpty := by
  have hfresh : (Facts.fresh g options.tracking).RecordsNoEmpty := by
    intro o x hx
    rw [record?_fresh] at hx
    cases hx
  have hrun := g.run_preserves hg options
    (P := fun f => f.Fits g ∧ f.Proper g options.toSettings ∧ f.RecordsNoEmpty)
    (fun _ hf => hf.1) ⟨fresh_fits g options.tracking, fresh_proper g _ _, hfresh⟩
    fun _ _ _ hf hv => ⟨hv.fits hf.1, hf.2.1.visits hv, hf.2.2.visits hf.1 hv⟩
  exact hrun.2

end Facts

namespace FlowGraph

/-- **The order in which edges are added makes no difference to what is found**, at any
level: with the same blocks and edges, all records, exposed sets and chains are the same but
for the order in which they list their members. -/
theorem analyze_edge_order (hg : g.Built) (hg' : g'.Built) (hsame : g.SameFlow g')
    (options : Options) :
    ∃ report report', g.analyze options = .ok report ∧ g'.analyze options = .ok report' ∧
      report.SameSets report' := by
  have hlinked := built_linked hg
  have hlinked' := built_linked hg'
  have halike := hsame.run_alike hlinked hlinked' options
  obtain ⟨hproper, hempty⟩ := Facts.run_noEmpty hlinked options
  obtain ⟨hproper', hempty'⟩ := Facts.run_noEmpty hlinked' options
  have hrecords := fun o => Record.SameSets.of_rel ((halike o.block).record o rfl) (hempty o)
    (hempty' o)
  have hused := Facts.isUsed_eq_of_alike halike
  refine ⟨_, _, analyze_eq hlinked options, analyze_eq hlinked' options, hrecords, ?_,
    Facts.mem_uses_iff_of_alike halike, hused, ?_⟩
  · intro b
    obtain ⟨hregs, hcells⟩ := Exposed.sameMembers_iff.mp (halike b).exposed
    exact ⟨(hproper b).regs.sameEntries (hproper' b).regs fun r o => (hregs r o).symm, hcells⟩
  · intro o i j hi hj
    have hrel := hrecords o
    rw [show (g.run options).facts.record? o = some i from hi,
      show (g'.run options).facts.record? o = some j from hj] at hrel
    cases hrel with
    | some hij =>
        unfold UseChains.isDead
        rw [hij.stores, hij.defs, hij.site, hused]

/-- The passes over the loop of `rotating` never come to rest. With its edges added in another
order, one of them twice, they do, and what is found is the same. -/
theorem analyze_edge_order_rotating :
    ∃ steady, build (rotating.blocks.toList.map (·.instructions))
        [(3, 4), (4, 2), (1, 0), (4, 1), (0, 4), (1, 0), (2, 0)] = .ok steady ∧
      ∃ report report', rotating.analyze { level := 8, tracking := .registers } = .ok report ∧
        steady.analyze { level := 8, tracking := .registers } = .ok report' ∧
        report.SameSets report' := by
  have hrotating : build (rotating.blocks.toList.map (·.instructions))
      [(1, 0), (2, 0), (0, 4), (3, 4), (4, 1), (4, 2)] = .ok rotating := rfl
  obtain ⟨steady, hsteady⟩ : ∃ steady, build (rotating.blocks.toList.map (·.instructions))
      [(3, 4), (4, 2), (1, 0), (4, 1), (0, 4), (1, 0), (2, 0)] = .ok steady := ⟨_, rfl⟩
  have hsame : rotating.SameFlow steady := by
    refine sameFlow_build (fun e => ?_) hrotating hsteady
    simp only [List.mem_cons, List.not_mem_nil]
    tauto
  exact ⟨steady, hsteady, analyze_edge_order rotating_built (built_build hsteady) hsame _⟩

end FlowGraph

end ReachingDefs
