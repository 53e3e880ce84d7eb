import ReachingDefs.Proofs.Passes
import ReachingDefs.Proofs.Representation

/-!
# Passes that find nothing

The passes over a group end early when one of them leaves the exposed sets as they were.
Would another pass change the records? It would not: it sees what the last one saw, and
a record takes in nothing that it has noted already. So the early end makes no difference
to the facts at all, and a whole analysis is one sweep over a list of blocks that is known
beforehand. Two analyses can then be compared visit by visit, although one of them may
have come to an early end where the other did not.
-/

namespace ReachingDefs

variable {g : FlowGraph} {s : Settings} {tracking : Tracking}

/-! ## What a record has noted -/

/-- Origins that are there already are not added. -/
theorem RegTable.addOrigins_of_subset {t : RegOrigins} {r : Register} {os : List Site}
    (h : ∀ o ∈ os, o ∈ t.origins r) : t.addOrigins r os = t := by
  unfold addOrigins
  induction os with
  | nil => rfl
  | cons o os ih =>
      have ho : o ∈ t.origins r := h o List.mem_cons_self
      -- there is an entry, and it stays as it is
      have hsame : t.addOrigin r o = t := by
        refine ext_get? fun q => ?_
        unfold addOrigin
        rw [get?_insert, OrderedSet.insert_of_mem ho]
        split
        · rename_i hq
          subst hq
          unfold origins at ho ⊢
          cases hr : t.get? q with
          | none => simp [hr] at ho
          | some l => rfl
        · rfl
      rw [List.foldl_cons, hsame]
      exact ih fun d hd => h d (List.mem_cons_of_mem _ hd)

namespace Record

/-- The origins that a record notes, of registers and of what is loaded. -/
def origins (x : Record) : RegOrigins × Option RegOrigins := (x.refs, x.mem.map (·.refs))

/-- A record is what it says about its instruction, its definitions and its origins. -/
theorem ext_parts {x y : Record} (hhead : x.head = y.head)
    (hdefs : ∀ r, x.defs.get? r = y.defs.get? r) (hmemDefs : ∀ r, x.memDef? r = y.memDef? r)
    (horigins : x.origins = y.origins) : x = y := by
  obtain ⟨site, address, defs, refs, mem⟩ := x
  obtain ⟨site', address', defs', refs', mem'⟩ := y
  simp only [head, Prod.mk.injEq] at hhead
  simp only [origins, Prod.mk.injEq] at horigins
  obtain ⟨rfl, rfl, hmem⟩ := hhead
  obtain ⟨rfl, hmemRefs⟩ := horigins
  obtain rfl : defs = defs' := RegTable.ext_get? hdefs
  obtain rfl : mem = mem' := by
    cases mem with
    | none => cases mem' <;> simp_all
    | some m =>
        cases mem' with
        | none => simp at hmem
        | some m' =>
            obtain ⟨d, r⟩ := m
            obtain ⟨d', r'⟩ := m'
            obtain rfl : d = d' := RegTable.ext_get? hmemDefs
            simp_all
  rfl

end Record

namespace Point

/-- Only reading notes origins. -/
theorem origins_apply_of_not_isRead (p : Point) {e : Effect} (h : e.isRead = false) :
    (p.apply tracking e).record.origins = p.record.origins := by
  cases e with
  | use r => cases h
  | load place dst => cases h
  | define r v =>
      dsimp only [apply]
      split <;> rfl
  | store place src =>
      dsimp only [apply]
      split
      · simp [Record.origins, Record.addMemDef, Record.onMem, Function.comp_def]
      · rfl

end Point

/-- The record `y` notes all that the instruction at `o` finds when `x` is exposed in front of
it, and all that it does. -/
structure Record.Notes (g : FlowGraph) (s : Settings) (tracking : Tracking) (o : Site)
    (x : Exposed) (y : Record) : Prop where
  refs : ∀ r d, g.reads s o r = true → d ∈ x.regs.origins r → d ∈ y.refs.origins r
  memRefs : tracking.memory = true → ∀ l dst d, g.loadsFrom s o l dst = true →
    (l, d) ∈ x.mems.cells → d ∈ y.memOrigins dst
  defs : ∀ r, (Effect.last? (Effect.defined? r) (g.effectsAt s o)).or (y.defs.get? r) =
    y.defs.get? r
  memDefs : tracking.memory = true → ∀ r,
    (Effect.last? (Effect.stored? r) (g.effectsAt s o)).or (y.memDef? r) = y.memDef? r

namespace Point

variable {p : Point} {o : Site} {i : Instruction}

/-- A visit notes all that it finds. -/
theorem Stands.notes (h : p.Stands g tracking o i) :
    (p.visit s tracking i).record.Notes g s tracking o p.exposed where
  refs r d hr hd := (h.mem_refs r d).mpr (Or.inr ⟨hr, hd⟩)
  memRefs ht l dst d hl hd := (h.mem_memOrigins ht dst d).mpr (Or.inr ⟨l, hl, hd⟩)
  defs r := by rw [h.get?_defs, ← Option.or_assoc, Option.or_self]
  memDefs ht r := by rw [h.memDef? ht, ← Option.or_assoc, Option.or_self]

/-- What is noted stays noted. -/
theorem Stands.notes_of_notes (h : p.Stands g tracking o i) {x : Exposed}
    (hx : p.record.Notes g s tracking o x) :
    (p.visit s tracking i).record.Notes g s tracking o x where
  refs r d hr hd := (h.mem_refs r d).mpr (Or.inl (hx.refs r d hr hd))
  memRefs ht l dst d hl hd := (h.mem_memOrigins ht dst d).mpr (Or.inl (hx.memRefs ht l dst d hl hd))
  defs r := by rw [h.get?_defs, ← Option.or_assoc, Option.or_self]
  memDefs ht r := by rw [h.memDef? ht, ← Option.or_assoc, Option.or_self]

/-- Reading what is noted already changes nothing. -/
theorem Stands.apply_of_notes (h : p.Stands g tracking o i)
    (hp : p.record.Notes g s tracking o p.exposed) {e : Effect} (he : e ∈ g.effectsAt s o)
    (hread : e.isRead = true) : p.apply tracking e = p := by
  cases e with
  | use r =>
      dsimp only [apply]
      by_cases hr : r.isZero = true
      · rw [if_pos hr]
      · have hreads : g.reads s o r = true :=
          List.any_eq_true.mpr ⟨_, he, by simp [Effect.reads, hr]⟩
        rw [if_neg hr, Record.linkReg_eq, RegTable.addOrigins_of_subset fun d => hp.refs r d hreads]
  | load place dst =>
      dsimp only [apply]
      by_cases ht : tracking.memory = true
      · obtain ⟨m, hm⟩ := Option.isSome_iff_exists.mp ((congrArg (·.2.2) h.head).trans ht)
        have hsub : ∀ d ∈ p.exposed.mems.origins place, d ∈ m.refs.origins dst := by
          intro d hd
          obtain ⟨l, hl, hcell⟩ := MemOrigins.mem_origins.mp hd
          rw [← Record.memOrigins_of_mem hm]
          refine hp.memRefs ht l dst d ?_ hcell
          exact List.any_eq_true.mpr ⟨_, he, by simp [Effect.loadsFrom, hl]⟩
        have hsame : p.record.onMem (fun m =>
            { m with refs := m.refs.addOrigins dst (p.exposed.mems.origins place) }) = p.record := by
          unfold Record.onMem
          rw [hm, Option.map_some, RegTable.addOrigins_of_subset hsub, ← hm]
        rw [if_pos ht, Record.linkMem_eq, hsame]
      · rw [if_neg ht]
  | define r v => cases hread
  | store place src => cases hread

/-- **A visit that finds nothing new leaves the record as it is.** -/
theorem Stands.record_of_notes (h : p.Stands g tracking o i)
    (hp : p.record.Notes g s tracking o p.exposed) : (p.visit s tracking i).record = p.record := by
  refine Record.ext_parts (head_applyAll _ _) (fun r => by rw [h.get?_defs, hp.defs]) ?_ ?_
  · intro r
    by_cases ht : tracking.memory = true
    · rw [h.memDef? ht, hp.memDefs ht]
    · -- there is no memory side, before the visit or after it
      unfold Record.memDef?
      rw [h.mem_eq_none ht, h.visited.mem_eq_none ht]
  · unfold visit
    rw [h.effects]
    obtain ⟨front, back, he, hfront, hback⟩ := Effect.readsFirst_split
      (g.effectsAt_inTurn s o).readsFirst
    have hreads : p.applyAll tracking front = p := by
      have hall : ∀ e ∈ front, p.apply tracking e = p := fun e hmem =>
        h.apply_of_notes hp (he ▸ List.mem_append_left _ hmem) (hfront e hmem)
      unfold applyAll
      clear he hfront
      induction front with
      | nil => rfl
      | cons e front ih =>
          rw [List.foldl_cons, hall e List.mem_cons_self]
          exact ih fun d hd => hall d (List.mem_cons_of_mem _ hd)
    have hwrites : ∀ q : Point, (q.applyAll tracking back).record.origins = q.record.origins := by
      unfold applyAll
      clear he
      induction back with
      | nil => exact fun _ => rfl
      | cons e back ih =>
          intro q
          rw [List.foldl_cons, ih (fun d hd => hback d (List.mem_cons_of_mem _ hd)),
            origins_apply_of_not_isRead q (hback e List.mem_cons_self)]
    have hsplit : p.applyAll tracking (front ++ back) =
        (p.applyAll tracking front).applyAll tracking back := List.foldl_append
    rw [he, hsplit, hreads, hwrites]

end Point

/-! ## What a block has noted -/

variable {b : BlockId}

/-- There is one way only to carry a proper set through a block. -/
theorem Carries.unique {start x y : Exposed} {n : Nat} (hstart : start.Proper g s)
    (hx : Carries g s tracking b start n x) (hy : Carries g s tracking b start n y) : x = y := by
  have hkeep := fun (p : Point) (o : Site) (i : Instruction) (hp : p.Stands g tracking o i)
    (h : p.exposed.Proper g s) => h.visit hp
  refine Exposed.Proper.ext (hx.keeps hkeep hstart) (hy.keeps hkeep hstart) (fun r => ?_) ?_
  · rw [hx.along (tracks_regLane g s tracking r), hy.along (tracks_regLane g s tracking r)]
  · rw [hx.along (tracks_memLane g s tracking), hy.along (tracks_memLane g s tracking)]

namespace Facts

variable {f f' h : Facts}

/-- The records of block `b` note all that a visit of the block finds, if `start` is exposed at
its start. -/
def Noted (g : FlowGraph) (s : Settings) (f : Facts) (b : BlockId) (start : Exposed) : Prop :=
  ∀ o i x, o.block = b → g.instruction? o = some i → Carries g s f.tracking b start o.index x →
    ∃ y, f.record? o = some y ∧ y.Notes g s f.tracking o x

theorem Noted.congr {start : Exposed} (hn : f.Noted g s b start)
    (htracking : f'.tracking = f.tracking) (hrecord : ∀ o, f'.record? o = f.record? o) :
    f'.Noted g s b start := by
  intro o i x ho hi hx
  rw [htracking] at hx ⊢
  rw [hrecord]
  exact hn o i x ho hi hx

/-- A visited block has noted all that its visit found. -/
theorem Visits.noted (hv : Visits s g b f f') (hproper : f.Proper g s) :
    f'.Noted g s b (f.union (g.predecessors b)) := by
  intro o i x ho hi hx
  rw [hv.tracking] at hx ⊢
  obtain ⟨p, hp, hcarries, _, hrecord⟩ := hv.record o i ho hi
  subst ho
  rw [Carries.unique (hproper.union _) hx hcarries]
  exact ⟨_, hrecord, hp.notes⟩

/-- What is noted about a visit stays noted, whatever is visited later. -/
theorem Noted.visits {d : BlockId} {start : Exposed} (hn : f.Noted g s d start)
    (hv : Visits s g b f f') : f'.Noted g s d start := by
  intro o i x ho hi hx
  rw [hv.tracking] at hx ⊢
  obtain ⟨y, hy, hnotes⟩ := hn o i x ho hi hx
  by_cases hb : o.block = b
  · obtain ⟨p, hp, _, hold, hrecord⟩ := hv.record o i hb hi
    rw [hy, Option.getD_some] at hold
    rw [← hold] at hnotes
    exact ⟨_, hrecord, hp.notes_of_notes hnotes⟩
  · exact ⟨y, (record?_congr (hv.others _ hb)).trans hy, hnotes⟩

/-- A visit whose finds are all noted changes no record. -/
theorem Noted.record?_eq (hn : f.Noted g s b (f.union (g.predecessors b)))
    (hv : Visits s g b f f') (hf : f.Fits g) (o : Site) : f'.record? o = f.record? o := by
  by_cases hb : o.block = b
  · cases hi : g.instruction? o with
    | none => rw [hf.record?_eq_none hi, (hv.fits hf).record?_eq_none hi]
    | some i =>
        obtain ⟨p, hp, hcarries, hold, hrecord⟩ := hv.record o i hb hi
        obtain ⟨y, hy, hnotes⟩ := hn o i _ hb hi hcarries
        rw [hy, Option.getD_some] at hold
        rw [← hold] at hnotes
        rw [hrecord, hp.record_of_notes hnotes, hold, hy]
  · exact record?_congr (hv.others _ hb)

theorem union_congr {ps : List BlockId} (hexposed : ∀ p ∈ ps, h.exposed p = f.exposed p) :
    h.union ps = f.union ps := by
  refine List.foldl_ext _ _ _ fun x p hp => ?_
  rw [hexposed p hp]

/-- Visits of one block from the same exposed sets expose the same. -/
theorem Visits.exposed_congr {h' : Facts} (hv : Visits s g b f f') (hv' : Visits s g b h h')
    (hproper : f.Proper g s) (htracking : h.tracking = f.tracking)
    (hexposed : ∀ d, h.exposed d = f.exposed d) (d : BlockId) : h'.exposed d = f'.exposed d := by
  by_cases hd : d = b
  · subst hd
    have hcarries := hv'.exposed
    rw [htracking, union_congr fun p _ => hexposed p] at hcarries
    exact Carries.unique (hproper.union _) hcarries hv.exposed
  · unfold Facts.exposed
    rw [hv.others d hd, hv'.others d hd]
    exact hexposed d

/-! ## The same sweep once more -/

/-- The records of `h` note all that a sweep over `bs` from `f` finds. -/
def Replays (s : Settings) (g : FlowGraph) : List BlockId → Facts → Facts → Prop
  | [], _, _ => True
  | b :: bs, f, h =>
    h.Noted g s b (f.union (g.predecessors b)) ∧ Replays s g bs (f.visitBlock s g b).facts h

theorem Replays.congr {bs : List BlockId} (hr : Replays s g bs f h)
    (htracking : f'.tracking = h.tracking) (hrecord : ∀ o, f'.record? o = h.record? o) :
    Replays s g bs f f' := by
  induction bs generalizing f with
  | nil => trivial
  | cons b bs ih => exact ⟨hr.1.congr htracking hrecord, ih hr.2⟩

theorem sweep_replays (hg : g.Linked) {bs : List BlockId} (hbs : ∀ b ∈ bs, b < g.size)
    (hf : f.Fits g) (hproper : f.Proper g s) : Replays s g bs f (f.sweep s g bs).facts := by
  induction bs generalizing f with
  | nil => trivial
  | cons b bs ih =>
      obtain ⟨hfault, hv⟩ := visitBlock_visits (s := s) hg hf (hbs b List.mem_cons_self)
      rw [facts_sweep_cons hfault]
      refine ⟨?_, ih (fun d hd => hbs d (List.mem_cons_of_mem _ hd)) (hv.fits hf)
        (hproper.visits hv)⟩
      -- what the first visit found stays noted to the end of the sweep
      have hkeep := visitBlock_preserves (s := s) hg
        (P := fun h => h.Fits g ∧ h.Noted g s b (f.union (g.predecessors b)))
        (fun _ h => h.1) fun _ _ _ h hv' => ⟨hv'.fits h.1, h.2.visits hv'⟩
      exact (sweep_preserves hkeep bs ⟨hv.fits hf, hv.noted hproper⟩).2

/-- **A sweep from the same exposed sets, over records that note all its finds, changes no
record.** -/
theorem Replays.sweep (hg : g.Linked) {bs : List BlockId} (hbs : ∀ b ∈ bs, b < g.size)
    (hr : Replays s g bs f h) (hf : f.Fits g) (hproper : f.Proper g s) (hh : h.Fits g)
    (htracking : h.tracking = f.tracking) (hexposed : ∀ b, h.exposed b = f.exposed b) :
    (∀ o, (h.sweep s g bs).facts.record? o = h.record? o) ∧
      ∀ b, (h.sweep s g bs).facts.exposed b = (f.sweep s g bs).facts.exposed b := by
  induction bs generalizing f h with
  | nil => exact ⟨fun _ => rfl, hexposed⟩
  | cons b bs ih =>
      have hb : b < g.size := hbs b List.mem_cons_self
      obtain ⟨hfault, hv⟩ := visitBlock_visits (s := s) hg hf hb
      obtain ⟨hfault', hv'⟩ := visitBlock_visits (s := s) hg hh hb
      have hnoted := hr.1
      rw [← union_congr fun p _ => hexposed p] at hnoted
      have hrecord := hnoted.record?_eq hv' hh
      have hrest := ih (fun d hd => hbs d (List.mem_cons_of_mem _ hd))
        (hr.2.congr hv'.tracking hrecord) (hv.fits hf) (hproper.visits hv) (hv'.fits hh)
        (hv'.tracking.trans (htracking.trans hv.tracking.symm))
        (hv.exposed_congr hv' hproper htracking hexposed)
      rw [facts_sweep_cons hfault, facts_sweep_cons hfault']
      exact ⟨fun o => (hrest.1 o).trans (hrecord o), hrest.2⟩

/-! ## The early end of the passes -/

/-- The facts about a block are what it exposes and its records, if they fit. -/
theorem Fits.block_eq (hf : f.Fits g) (hf' : f'.Fits g) (hexposed : f'.exposed b = f.exposed b)
    (hrecord : ∀ o, o.block = b → f'.record? o = f.record? o) : f'.block b = f.block b := by
  have hslots : (f'.block b).slots = (f.block b).slots := by
    refine List.ext_getElem? fun j => ?_
    have hj := hrecord ⟨b, j⟩ rfl
    have hlen := (hf'.slots b).trans (hf.slots b).symm
    unfold record? at hj
    rcases Nat.lt_or_ge j (f.block b).slots.length with hlt | hge
    · rw [List.getElem?_eq_getElem hlt, List.getElem?_eq_getElem (hlen.symm ▸ hlt)] at hj ⊢
      exact congrArg some hj
    · rw [List.getElem?_eq_none hge, List.getElem?_eq_none (hlen.symm ▸ hge)]
  unfold exposed at hexposed
  cases hb' : f'.block b
  cases hb : f.block b
  simp_all

/-- Facts that fit are their exposed sets, their records and the current block. -/
theorem Fits.ext (hf : f.Fits g) (hf' : f'.Fits g) (htracking : f'.tracking = f.tracking)
    (hcurrent : f'.current = f.current) (hexposed : ∀ b, f'.exposed b = f.exposed b)
    (hrecord : ∀ o, f'.record? o = f.record? o) : f' = f := by
  have hblock : ∀ b, f'.block b = f.block b := fun b =>
    hf.block_eq hf' (hexposed b) fun o _ => hrecord o
  have hblocks : f'.blocks = f.blocks := by
    have hsize : f'.blocks.size = f.blocks.size := hf'.size.trans hf.size.symm
    refine Array.ext hsize fun b hb' hb => ?_
    have := hblock b
    unfold block at this
    simpa [Array.getD_eq_getD_getElem?, hb, hb'] using this
  cases f
  cases f'
  simp_all

theorem current_sweep (hg : g.Linked) {bs : List BlockId} (hbs : ∀ b ∈ bs, b < g.size)
    (hf : f.Fits g) : (f.sweep s g bs).facts.current = bs.getLast?.or f.current := by
  induction bs generalizing f with
  | nil => rfl
  | cons b bs ih =>
      have hb : b < g.size := hbs b List.mem_cons_self
      obtain ⟨hfault, hv⟩ := visitBlock_visits (s := s) hg hf hb
      rw [facts_sweep_cons hfault, ih (fun d hd => hbs d (List.mem_cons_of_mem _ hd)) (hv.fits hf),
        visitBlock_eq hg hf.size hf.placed hb, List.getLast?_cons]
      cases bs.getLast? <;> rfl

variable {group : List BlockId}

/-- A visit of any block keeps facts fitting and proper. -/
theorem fits_proper_visitBlock (hg : g.Linked) (f : Facts) (b : BlockId)
    (h : f.Fits g ∧ f.Proper g s) :
    (f.visitBlock s g b).facts.Fits g ∧ (f.visitBlock s g b).facts.Proper g s :=
  visitBlock_preserves hg (P := fun f => f.Fits g ∧ f.Proper g s) (fun _ hf => hf.1)
    (fun _ _ _ hf hv => ⟨hv.fits hf.1, hf.2.visits hv⟩) f b h

theorem proper_rounds (hg : g.Linked) (hf : f.Fits g) (hproper : f.Proper g s) (n : Nat) :
    ((round s g group)^[n] f).Proper g s := by
  have hboth : ((round s g group)^[n] f).Fits g ∧ ((round s g group)^[n] f).Proper g s := by
    induction n with
    | zero => exact ⟨hf, hproper⟩
    | succ n ih =>
        rw [Function.iterate_succ_apply']
        exact sweep_preserves (fits_proper_visitBlock hg) group ih
  exact hboth.2

/-- **After a stable round, another one changes nothing at all.** -/
theorem Stable.round_round (hstable : Stable s g group f) (hg : g.Linked)
    (hgroup : ∀ b ∈ group, b < g.size) (hf : f.Fits g) (hproper : f.Proper g s) :
    (f.round s g group).round s g group = f.round s g group := by
  have hs := sweep_sweeps (s := s) hg hgroup hf
  -- a stable round leaves every block exposing what it did
  have hexposed : ∀ b, (f.round s g group).exposed b = f.exposed b := by
    intro b
    by_cases hb : b ∈ group
    · exact List.map_inj_left.mp hstable b hb
    · exact congrArg BlockFacts.exposed (hs.others b hb)
  obtain ⟨hrecord, hagain⟩ := (sweep_replays (s := s) hg hgroup hf hproper).sweep hg hgroup hf
    hproper hs.fits hs.tracking hexposed
  have hs' := sweep_sweeps (s := s) hg hgroup hs.fits
  refine hs.fits.ext hs'.fits hs'.tracking ?_ hagain hrecord
  unfold round
  rw [current_sweep hg hgroup hs.fits, current_sweep hg hgroup hf, ← Option.or_assoc,
    Option.or_self]

/-- **The early end of the passes makes no difference**: a group comes out as if it had been
swept as often as the bound allows. -/
theorem facts_iterate (hg : g.Linked) (hgroup : ∀ b ∈ group, b < g.size) (hf : f.Fits g)
    (hproper : f.Proper g s) (left : Nat) :
    (f.iterate s g group left).facts = (round s g group)^[left] f := by
  obtain ⟨_, _, ⟨n, _, hn, hstable, _, he⟩ | ⟨_, he⟩⟩ :=
    iterate_cases (s := s) hg hgroup hf left
  · have hfixed := hstable.round_round hg hgroup (rounds hg hgroup hf n).fits
      (proper_rounds hg hf hproper n)
    rw [← Function.iterate_succ_apply' (round s g group)] at hfixed
    rw [he, ← Nat.sub_add_cancel (Nat.succ_le_of_lt hn),
      Function.iterate_add_apply (round s g group) (left - n.succ)]
    exact (Function.iterate_fixed hfixed _).symm
  · rw [he]

/-! ## A whole analysis as one sweep -/

/-- How often the analysis sweeps over a group, but for an early end. -/
def passes (s : Settings) (g : FlowGraph) (group : List BlockId) : Nat :=
  if g.isCyclic group then s.maxPasses else 1

theorem facts_analyzeGroup (hg : g.Linked) (hgroup : ∀ b ∈ group, b < g.size) (hf : f.Fits g)
    (hproper : f.Proper g s) :
    (f.analyzeGroup s g group).facts = (round s g group)^[passes s g group] f := by
  unfold analyzeGroup passes
  split
  · exact facts_iterate hg hgroup hf hproper _
  · rfl

/-- The blocks that an analysis of the groups in this order visits, one after another. -/
def plan (s : Settings) (g : FlowGraph) (order : List (List BlockId)) : List BlockId :=
  order.flatMap fun group => (List.replicate (passes s g group) group).flatten

theorem mem_flatten_of_mem_plan {order : List (List BlockId)} (h : b ∈ plan s g order) :
    b ∈ order.flatten := by
  obtain ⟨group, hgroup, hb⟩ := List.mem_flatMap.mp h
  obtain ⟨l, hl, hb⟩ := List.mem_flatten.mp hb
  exact List.mem_flatten.mpr ⟨group, hgroup, List.eq_of_mem_replicate hl ▸ hb⟩

theorem facts_sweep_append (hg : g.Linked) {bs cs : List BlockId} (hbs : ∀ b ∈ bs, b < g.size)
    (hf : f.Fits g) : (f.sweep s g (bs ++ cs)).facts = ((f.sweep s g bs).facts.sweep s g cs).facts := by
  induction bs generalizing f with
  | nil => rfl
  | cons b bs ih =>
      obtain ⟨hfault, hv⟩ := visitBlock_visits (s := s) hg hf (hbs b List.mem_cons_self)
      rw [List.cons_append, facts_sweep_cons hfault, facts_sweep_cons hfault]
      exact ih (fun d hd => hbs d (List.mem_cons_of_mem _ hd)) (hv.fits hf)

theorem rounds_eq_sweep (hg : g.Linked) (hgroup : ∀ b ∈ group, b < g.size) (hf : f.Fits g)
    (n : Nat) : (round s g group)^[n] f = (f.sweep s g (List.replicate n group).flatten).facts := by
  induction n generalizing f with
  | zero => rfl
  | succ n ih =>
      rw [Function.iterate_succ_apply, List.replicate_succ, List.flatten_cons,
        facts_sweep_append hg hgroup hf]
      exact ih (sweep_sweeps hg hgroup hf).fits

/-- **A whole analysis is one sweep** over a list of blocks that the graph, the order and the
level determine. -/
theorem facts_analyzeGroups (hg : g.Linked) {order : List (List BlockId)}
    (horder : ∀ group ∈ order, ∀ b ∈ group, b < g.size) (hf : f.Fits g) (hproper : f.Proper g s) :
    (f.analyzeGroups s g order).facts = (f.sweep s g (plan s g order)).facts := by
  induction order generalizing f with
  | nil => rfl
  | cons group order ih =>
      have hgroup := horder group List.mem_cons_self
      have hmany : ∀ b ∈ (List.replicate (passes s g group) group).flatten, b < g.size := by
        intro b hb
        obtain ⟨l, hl, hb⟩ := List.mem_flatten.mp hb
        exact hgroup b (List.eq_of_mem_replicate hl ▸ hb)
      unfold analyzeGroups plan
      rw [Outcome.andThen_eq (analyzeGroup_rounds hg hgroup hf).1, List.flatMap_cons,
        facts_sweep_append hg hmany hf, ← rounds_eq_sweep hg hgroup hf,
        ← facts_analyzeGroup hg hgroup hf hproper]
      exact ih (fun d hd => horder d (List.mem_cons_of_mem _ hd)) (analyzeGroup_fits hg hgroup hf)
        (analyzeGroup_preserves (fits_proper_visitBlock hg) group ⟨hf, hproper⟩).2

end Facts

end ReachingDefs
