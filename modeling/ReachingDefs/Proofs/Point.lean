import ReachingDefs.Proofs.Lane

/-!
# Visiting one instruction

A visit carries out the effects of an instruction one by one. Seen from outside only
three things happen. What is exposed moves one step along each lane: the lane of
every register, and the lane of memory. The record collects origins for what the
instruction reads, and they are those exposed *in front of* the instruction, since
all reading comes first. And the record notes what the instruction defines.

`Tracks` is the interface to the passes: whatever part of an exposed set moves along
a lane, the rest of the development needs no more than that about it.
-/

namespace ReachingDefs

variable {g : FlowGraph} {s : Settings} {tracking : Tracking}

/-! ## Records -/

namespace Record

/-- What no visit changes in a record: which instruction it is about, and whether it
has a memory side. -/
def head (x : Record) : Site × UInt64 × Bool := (x.site, x.address, x.mem.isSome)

/-- The stores that may have written what is loaded into `r`; none if there is no
memory side. -/
def memOrigins (x : Record) (r : Register) : List Site := (x.memRef? r).getD []

theorem head_fresh (o : Site) (address : UInt64) (tracking : Tracking) :
    (fresh o address tracking).head = (o, address, tracking.memory) := by
  cases tracking <;> rfl

theorem linkReg_eq (x : Record) (e : Exposed) (r : Register) :
    x.linkReg e r = { x with refs := x.refs.addOrigins r (e.regs.origins r) } := by
  unfold linkReg
  generalize e.regs.origins r = os
  induction os generalizing x with
  | nil => rfl
  | cons o os ih =>
      rw [List.foldl_cons, ih]
      rfl

theorem linkMem_eq (x : Record) (e : Exposed) (place : Value) (r : Register) :
    x.linkMem e place r =
      x.onMem fun m => { m with refs := m.refs.addOrigins r (e.mems.origins place) } := by
  unfold linkMem
  generalize e.mems.origins place = os
  induction os generalizing x with
  | nil =>
      unfold onMem
      rw [show (fun m : MemRecord => { m with refs := m.refs.addOrigins r [] }) = id from rfl,
        Option.map_id]
      rfl
  | cons o os ih =>
      rw [List.foldl_cons, ih]
      unfold addMemRef onMem
      rw [Option.map_map]
      rfl

theorem head_linkReg (x : Record) (e : Exposed) (r : Register) : (x.linkReg e r).head = x.head := by
  rw [linkReg_eq]
  rfl

theorem head_linkMem (x : Record) (e : Exposed) (place : Value) (r : Register) :
    (x.linkMem e place r).head = x.head := by
  rw [linkMem_eq]
  simp [head, onMem]

theorem head_addMemDef (x : Record) (r : Register) (place : Value) :
    (x.addMemDef r place).head = x.head := by
  simp [head, addMemDef, onMem]

theorem mem_memOrigins {x : Record} {r : Register} {o : Site} :
    o ∈ x.memOrigins r ↔ ∃ os, x.memRef? r = some os ∧ o ∈ os := by
  unfold memOrigins
  cases x.memRef? r <;> simp

theorem stores_iff {x : Record} : x.stores = true ↔ ∃ r, (x.memDef? r).isSome = true := by
  unfold stores memDef?
  cases x.mem with
  | none => simp
  | some m => simp [RegTable.isEmpty_eq_false_iff]

theorem memOrigins_of_mem {x : Record} {m : MemRecord} (h : x.mem = some m) (r : Register) :
    x.memOrigins r = m.refs.origins r := by
  unfold memOrigins memRef?
  rw [h]
  rfl

end Record

/-! ## One effect -/

namespace Effect

/-- What the effect does to the cells of memory, at the instruction `o`. -/
def onCells (o : Site) (cs : List Cell) : Effect → List Cell
  | define r _ => if r.isZero then cs else cs.filter (·.1.base ≠ r)
  | store place _ =>
    match place.location? with
    | some l => cs.filter (·.1 ≠ l) ++ [(l, o)]
    | none => cs
  | _ => cs

/-- Does the effect leave the cell at `l` alone? A new value of the base turns `l` into
another cell. -/
def spares (l : Location) (e : Effect) : Bool := !e.sets l.base && !e.storesTo l

/-- What an effect does to cells comes down to which it drops and which it adds. -/
theorem onCells_eq (o : Site) (cs : List Cell) (e : Effect) :
    e.onCells o cs = cs.filter (fun c => e.spares c.1) ++ e.onCells o [] := by
  cases e with
  | use r => simp [onCells, spares, sets, storesTo]
  | load place dst => simp [onCells, spares, sets, storesTo]
  | define r v =>
      by_cases hr : r.isZero = true
      · simp [onCells, spares, sets, storesTo, hr]
      · simp [onCells, spares, sets, storesTo, hr, eq_comm]
  | store place src =>
      cases hl : place.location? with
      | none => simp [onCells, spares, sets, storesTo, hl]
      | some l => simp [onCells, spares, sets, storesTo, hl, eq_comm]

theorem foldl_onCells_eq (o : Site) (es : List Effect) (cs : List Cell) :
    es.foldl (onCells o) cs =
      cs.filter (fun c => es.all (spares c.1)) ++ es.foldl (onCells o) [] := by
  induction es generalizing cs with
  | nil => simp
  | cons e es ih =>
      rw [List.foldl_cons, List.foldl_cons, ih, ih (e.onCells o []), onCells_eq,
        List.filter_append, List.filter_filter, List.append_assoc]
      congr 1
      refine List.filter_congr fun c _ => ?_
      rw [List.all_cons, Bool.and_comm]

/-- An instruction that stores to a location and does not move its base leaves its own
store there, whatever else it does. -/
theorem mem_onCells_self {o : Site} {cs : List Cell} {l : Location} {e : Effect}
    (h : e.sets l.base = false) :
    (l, o) ∈ e.onCells o cs ↔ (l, o) ∈ cs ∨ e.storesTo l = true := by
  cases e with
  | use r => simp [onCells, storesTo]
  | load place dst => simp [onCells, storesTo]
  | define r v =>
      by_cases hr : r.isZero = true
      · simp [onCells, storesTo, hr]
      · -- only cells with this base are dropped, and `l` has another one
        have hne : l.base ≠ r := by
          rintro rfl
          simp [sets, hr] at h
        simp [onCells, storesTo, hr, hne]
  | store place src =>
      cases hl : place.location? with
      | none => simp [onCells, storesTo, hl]
      | some k =>
          by_cases hk : l = k
          · simp [onCells, storesTo, hl, hk]
          · simp [onCells, storesTo, hl, hk, Ne.symm hk]

theorem mem_foldl_onCells_self {o : Site} {cs : List Cell} {l : Location} {es : List Effect}
    (h : es.any (sets l.base) = false) :
    (l, o) ∈ es.foldl (onCells o) cs ↔ (l, o) ∈ cs ∨ es.any (storesTo l) = true := by
  induction es generalizing cs with
  | nil => simp
  | cons e es ih =>
      rw [List.any_cons, Bool.or_eq_false_iff] at h
      rw [List.foldl_cons, ih h.2, mem_onCells_self h.1, List.any_cons, Bool.or_eq_true, or_assoc]

theorem storesTo_of_mem_onCells {o : Site} {e : Effect} {c : Cell} (h : c ∈ e.onCells o []) :
    e.storesTo c.1 = true := by
  cases e with
  | use r => exact absurd h List.not_mem_nil
  | load place dst => exact absurd h List.not_mem_nil
  | define r v => simp [onCells] at h
  | store place src =>
      cases hl : place.location? with
      | none => simp [onCells, hl] at h
      | some l =>
          obtain rfl : c = (l, o) := by simpa [onCells, hl] using h
          simp [storesTo, hl]

/-- A cell that the effects of an instruction leave was there, or one of them stored to it. -/
theorem mem_foldl_onCells {o : Site} {es : List Effect} {cs : List Cell} {c : Cell}
    (h : c ∈ es.foldl (onCells o) cs) : c ∈ cs ∨ es.any (storesTo c.1) = true := by
  induction es generalizing cs with
  | nil => exact Or.inl h
  | cons e es ih =>
      rw [List.any_cons, Bool.or_eq_true]
      rcases ih h with h | h
      · rw [onCells_eq] at h
        rcases List.mem_append.mp h with h | h
        · exact Or.inl (List.mem_filter.mp h).1
        · exact Or.inr (Or.inl (storesTo_of_mem_onCells h))
      · exact Or.inr (Or.inr h)

/-- A cell that an instruction leaves behind is its own store, and its base has not been
moved: a definition would have come later, and dropped it. -/
theorem own_of_mem_foldl_onCells {o : Site} {es : List Effect} (hes : InTurn es) {c : Cell}
    (hc : c ∈ es.foldl (onCells o) []) :
    c.2 = o ∧ es.any (storesTo c.1) = true ∧ es.any (sets c.1.base) = false := by
  induction es using List.reverseRecOn with
  | nil => exact absurd hc List.not_mem_nil
  | append_singleton es e ih =>
      obtain ⟨hfront, _, hlast⟩ := List.pairwise_append.mp hes
      rw [List.foldl_append, List.foldl_cons, List.foldl_nil, onCells_eq] at hc
      simp only [List.any_append, List.any_cons, List.any_nil, Bool.or_false, Bool.or_eq_true,
        Bool.or_eq_false_iff]
      rcases List.mem_append.mp hc with hc | hc
      · -- an older cell, which the last effect spares
        obtain ⟨hold, hspares⟩ := List.mem_filter.mp hc
        obtain ⟨hown, hstored, hset⟩ := ih hfront hold
        have hspared : e.sets c.1.base = false ∧ e.storesTo c.1 = false := by
          simpa [spares] using hspares
        exact ⟨hown, Or.inl hstored, hset, hspared.1⟩
      · cases e with
        | use r => exact absurd hc List.not_mem_nil
        | load place dst => exact absurd hc List.not_mem_nil
        | define r v => simp [onCells] at hc
        | store place src =>
            have hstored := storesTo_of_mem_onCells hc
            have hown : c.2 = o := by
              cases hl : place.location? with
              | none => simp [onCells, hl] at hc
              | some l => simp_all [onCells]
            -- no definition comes before a store
            have hset : es.any (sets c.1.base) = false := by
              rw [List.any_eq_false]
              intro d hd
              have hturn := hlast d hd _ (List.mem_singleton_self _)
              cases d <;> simp [sets, turn] at hturn ⊢
            exact ⟨hown, Or.inr hstored, hset, rfl⟩

theorem nodup_onCells {o : Site} {cs : List Cell} (h : cs.Nodup) (e : Effect) :
    (e.onCells o cs).Nodup := by
  cases e with
  | use r => exact h
  | load place dst => exact h
  | define r v =>
      dsimp only [onCells]
      split
      · exact h
      · exact h.filter _
  | store place src =>
      dsimp only [onCells]
      split
      · refine List.nodup_append.mpr ⟨h.filter _, by simp, ?_⟩
        rintro c hc _ hd rfl
        simp [List.mem_singleton.mp hd] at hc
      · exact h

end Effect

namespace Point

theorem head_apply (p : Point) (e : Effect) :
    (p.apply tracking e).record.head = p.record.head := by
  cases e with
  | use r =>
      dsimp only [apply]
      split
      · rfl
      · exact Record.head_linkReg ..
  | load place dst =>
      dsimp only [apply]
      split
      · exact Record.head_linkMem ..
      · rfl
  | define r v =>
      dsimp only [apply]
      split <;> rfl
  | store place src =>
      dsimp only [apply]
      split
      · exact Record.head_addMemDef ..
      · rfl

theorem site_apply (p : Point) (e : Effect) :
    (p.apply tracking e).record.site = p.record.site :=
  congrArg (·.1) (head_apply p e)

/-- Reading changes nothing that is exposed. -/
theorem exposed_apply_of_isRead (p : Point) {e : Effect} (h : e.isRead = true) :
    (p.apply tracking e).exposed = p.exposed := by
  cases e with
  | use r => dsimp only [apply]; split <;> rfl
  | load place dst => dsimp only [apply]; split <;> rfl
  | define r v => cases h
  | store place src => cases h

theorem origins_apply (p : Point) (e : Effect) (r : Register) :
    (p.apply tracking e).exposed.regs.origins r =
      if e.sets r then [p.record.site] else p.exposed.regs.origins r := by
  cases e with
  | use q => rw [exposed_apply_of_isRead p rfl]; rfl
  | load place dst => rw [exposed_apply_of_isRead p rfl]; rfl
  | define q v =>
      dsimp only [apply, Effect.sets]
      by_cases hq : q.isZero = true
      · simp [hq]
      · have hset : (p.exposed.setReg q p.record.site).regs.origins r =
            if r = q then [p.record.site] else p.exposed.regs.origins r :=
          RegTable.origins_setOrigin ..
        rw [if_neg hq]
        split <;> simp [Exposed.dropBase, hset, hq, eq_comm]
  | store place src =>
      dsimp only [apply, Effect.sets]
      split
      · dsimp only [Exposed.setMem]
        split <;> rfl
      · rfl

theorem mems_apply_of_untracked (p : Point) (e : Effect) (h : tracking.memory = false) :
    (p.apply tracking e).exposed.mems = p.exposed.mems := by
  cases e with
  | use r => rw [exposed_apply_of_isRead p rfl]
  | load place dst => rw [exposed_apply_of_isRead p rfl]
  | define r v =>
      dsimp only [apply]
      rw [h]
      split <;> rfl
  | store place src =>
      dsimp only [apply]
      rw [h]
      rfl

theorem cells_apply (p : Point) (e : Effect) (h : tracking.memory = true) :
    (p.apply tracking e).exposed.mems.cells = e.onCells p.record.site p.exposed.mems.cells := by
  cases e with
  | use r => rw [exposed_apply_of_isRead p rfl]; rfl
  | load place dst => rw [exposed_apply_of_isRead p rfl]; rfl
  | define r v =>
      dsimp only [apply, Effect.onCells]
      split
      · rfl
      · exact MemOrigins.cells_eraseBase ..
  | store place src =>
      dsimp only [apply, Effect.onCells, Exposed.setMem]
      rw [if_pos h]
      cases hl : place.location? with
      | none => rfl
      | some l => exact MemOrigins.cells_set hl

/-! ## All effects of an instruction -/

theorem head_applyAll (p : Point) (es : List Effect) :
    (p.applyAll tracking es).record.head = p.record.head := by
  unfold applyAll
  induction es generalizing p with
  | nil => rfl
  | cons e es ih => rw [List.foldl_cons, ih, head_apply]

theorem origins_applyAll (p : Point) (es : List Effect) (r : Register) :
    (p.applyAll tracking es).exposed.regs.origins r =
      if es.any (Effect.sets r) then [p.record.site] else p.exposed.regs.origins r := by
  unfold applyAll
  induction es generalizing p with
  | nil => rfl
  | cons e es ih =>
      rw [List.foldl_cons, ih, origins_apply, site_apply, List.any_cons]
      by_cases he : e.sets r = true <;> simp [he]

theorem mems_applyAll_of_untracked (p : Point) (es : List Effect) (h : tracking.memory = false) :
    (p.applyAll tracking es).exposed.mems = p.exposed.mems := by
  unfold applyAll
  induction es generalizing p with
  | nil => rfl
  | cons e es ih => rw [List.foldl_cons, ih, mems_apply_of_untracked p e h]

theorem cells_applyAll (p : Point) (es : List Effect) (h : tracking.memory = true) :
    (p.applyAll tracking es).exposed.mems.cells =
      es.foldl (Effect.onCells p.record.site) p.exposed.mems.cells := by
  unfold applyAll
  induction es generalizing p with
  | nil => rfl
  | cons e es ih => rw [List.foldl_cons, List.foldl_cons, ih, site_apply, cells_apply p e h]

/-! ## What records note -/

section Notes

-- `sees e x` stands for what the effect `e` finds when `x` is exposed
variable {note : Record → Prop} {sees : Effect → Exposed → Prop} {head : Site × UInt64 × Bool}

theorem noted_applyAll_of_isRead
    (hone : ∀ (p : Point) (e : Effect), p.record.head = head →
      (note (p.apply tracking e).record ↔ note p.record ∨ sees e p.exposed))
    {p : Point} (hp : p.record.head = head) {es : List Effect} (h : ∀ e ∈ es, e.isRead = true) :
    note (p.applyAll tracking es).record ↔ note p.record ∨ ∃ e ∈ es, sees e p.exposed := by
  unfold applyAll
  induction es generalizing p with
  | nil => simp
  | cons e es ih =>
      rw [List.foldl_cons,
        ih ((head_apply p e).trans hp) fun d hd => h d (List.mem_cons_of_mem _ hd), hone p e hp,
        exposed_apply_of_isRead p (h e List.mem_cons_self)]
      simp [or_assoc]

theorem noted_applyAll_of_not_isRead (hread : ∀ e x, sees e x → e.isRead = true)
    (hone : ∀ (p : Point) (e : Effect), p.record.head = head →
      (note (p.apply tracking e).record ↔ note p.record ∨ sees e p.exposed))
    {p : Point} (hp : p.record.head = head) {es : List Effect}
    (h : ∀ e ∈ es, e.isRead = false) : note (p.applyAll tracking es).record ↔ note p.record := by
  unfold applyAll
  induction es generalizing p with
  | nil => rfl
  | cons e es ih =>
      -- a write sees nothing, so it adds nothing to the notes
      have he : ¬ sees e p.exposed := by
        intro hs
        exact absurd ((hread e _ hs).symm.trans (h e List.mem_cons_self)) (by simp)
      rw [List.foldl_cons,
        ih ((head_apply p e).trans hp) fun d hd => h d (List.mem_cons_of_mem _ hd), hone p e hp]
      exact ⟨fun h => h.resolve_right he, Or.inl⟩

/-- **Since all reading comes first, it sees what is exposed in front of the
instruction**, whatever the instruction then sets. -/
theorem noted_applyAll (note : Record → Prop) (sees : Effect → Exposed → Prop)
    (hread : ∀ e x, sees e x → e.isRead = true)
    (hone : ∀ (p : Point) (e : Effect), p.record.head = head →
      (note (p.apply tracking e).record ↔ note p.record ∨ sees e p.exposed))
    {p : Point} (hp : p.record.head = head) {es : List Effect}
    (hes : Effect.readsFirst es = true) :
    note (p.applyAll tracking es).record ↔ note p.record ∨ ∃ e ∈ es, sees e p.exposed := by
  obtain ⟨front, back, rfl, hfront, hback⟩ := Effect.readsFirst_split hes
  -- the reads leave what is exposed alone, the writes leave the notes alone
  have hsplit : p.applyAll tracking (front ++ back) =
      (p.applyAll tracking front).applyAll tracking back := List.foldl_append
  rw [hsplit, noted_applyAll_of_not_isRead hread hone ((head_applyAll p front).trans hp) hback,
    noted_applyAll_of_isRead hone hp hfront]
  refine or_congr_right ⟨?_, ?_⟩
  · rintro ⟨e, he, hs⟩
    exact ⟨e, List.mem_append_left _ he, hs⟩
  · rintro ⟨e, he, hs⟩
    rcases List.mem_append.mp he with he | he
    · exact ⟨e, he, hs⟩
    · exact absurd ((hread e _ hs).symm.trans (hback e he)) (by simp)

end Notes

theorem mem_refs_apply (p : Point) (e : Effect) (r : Register) (o : Site) :
    o ∈ (p.apply tracking e).record.refs.origins r ↔
      o ∈ p.record.refs.origins r ∨ e.reads r = true ∧ o ∈ p.exposed.regs.origins r := by
  cases e with
  | use q =>
      dsimp only [apply, Effect.reads]
      by_cases hq : q.isZero = true
      · simp [hq]
      · rw [if_neg hq, Record.linkReg_eq]
        dsimp only
        rw [RegTable.origins_addOrigins]
        by_cases h : r = q
        · subst h
          simp [hq]
        · simp [h, Ne.symm h]
  | load place dst =>
      dsimp only [apply, Effect.reads]
      split
      · rw [Record.linkMem_eq]
        simp [Record.onMem]
      · simp
  | define q v =>
      dsimp only [apply, Effect.reads]
      split <;> simp [Record.addDef]
  | store place src =>
      dsimp only [apply, Effect.reads]
      split <;> simp [Record.addMemDef, Record.onMem]

/-- A visit notes the origins of what the instruction reads, and nothing else about
registers. -/
theorem mem_refs_visit (p : Point) (i : Instruction) (r : Register) (d : Site) :
    d ∈ (p.visit s tracking i).record.refs.origins r ↔ d ∈ p.record.refs.origins r ∨
      (s.effects i p.record.address).any (Effect.reads r) = true ∧
        d ∈ p.exposed.regs.origins r := by
  have hread : ∀ (e : Effect) (x : Exposed),
      e.reads r = true ∧ d ∈ x.regs.origins r → e.isRead = true := by
    intro e x hs
    cases e <;> simp_all [Effect.reads, Effect.isRead]
  unfold visit
  rw [noted_applyAll (d ∈ ·.refs.origins r) _ hread (fun q e _ => mem_refs_apply q e r d) rfl
    (s.effects_readsFirst i p.record.address)]
  refine or_congr_right ⟨?_, ?_⟩
  · rintro ⟨e, he, hr, hd⟩
    exact ⟨List.any_eq_true.mpr ⟨e, he, hr⟩, hd⟩
  · rintro ⟨hr, hd⟩
    obtain ⟨e, he, hr⟩ := List.any_eq_true.mp hr
    exact ⟨e, he, hr, hd⟩

theorem mem_memOrigins_apply (p : Point) (e : Effect) (dst : Register) (o : Site)
    (ht : tracking.memory = true) (hm : p.record.mem.isSome = true) :
    o ∈ (p.apply tracking e).record.memOrigins dst ↔
      o ∈ p.record.memOrigins dst ∨
        ∃ l, e.loadsFrom l dst = true ∧ (l, o) ∈ p.exposed.mems.cells := by
  obtain ⟨m, hm⟩ := Option.isSome_iff_exists.mp hm
  cases e with
  | use q =>
      dsimp only [apply, Effect.loadsFrom]
      split
      · simp
      · rw [Record.linkReg_eq]
        simp [Record.memOrigins, Record.memRef?]
  | load place q =>
      dsimp only [apply, Effect.loadsFrom]
      rw [if_pos ht, Record.linkMem_eq]
      dsimp only
      rw [Record.memOrigins_of_mem (show (Record.onMem _ _).mem = some _ by
        rw [Record.onMem, hm, Option.map_some]), Record.memOrigins_of_mem hm]
      dsimp only
      rw [RegTable.origins_addOrigins]
      by_cases h : dst = q
      · subst h
        simp [MemOrigins.mem_origins]
      · simp [h, Ne.symm h]
  | define q v =>
      dsimp only [apply, Effect.loadsFrom]
      split <;> simp [Record.memOrigins, Record.memRef?, Record.addDef]
  | store place src =>
      dsimp only [apply, Effect.loadsFrom]
      split <;> simp [Record.memOrigins, Record.memRef?, Record.addMemDef, Record.onMem, hm]

theorem get?_defs_apply (p : Point) (e : Effect) (r : Register) :
    (p.apply tracking e).record.defs.get? r = (e.defined? r).or (p.record.defs.get? r) := by
  cases e with
  | use q =>
      dsimp only [apply, Effect.defined?]
      split
      · rfl
      · rw [Record.linkReg_eq]
        rfl
  | load place dst =>
      dsimp only [apply, Effect.defined?]
      split
      · rw [Record.linkMem_eq]
        rfl
      · rfl
  | define q v =>
      dsimp only [apply, Effect.defined?]
      by_cases hq : q.isZero = true
      · simp [hq]
      · rw [if_neg hq]
        dsimp only [Record.addDef]
        rw [RegTable.get?_insert]
        by_cases h : q = r
        · simp [h, h ▸ hq]
        · simp [h, Ne.symm h]
  | store place src =>
      dsimp only [apply, Effect.defined?]
      split <;> rfl

theorem memDef?_apply (p : Point) (e : Effect) (r : Register) (ht : tracking.memory = true)
    (hm : p.record.mem.isSome = true) :
    (p.apply tracking e).record.memDef? r = (e.stored? r).or (p.record.memDef? r) := by
  obtain ⟨m, hm⟩ := Option.isSome_iff_exists.mp hm
  cases e with
  | use q =>
      dsimp only [apply, Effect.stored?]
      split
      · rfl
      · rw [Record.linkReg_eq]
        rfl
  | load place dst =>
      dsimp only [apply, Effect.stored?]
      rw [if_pos ht, Record.linkMem_eq]
      simp [Record.memDef?, Record.onMem, hm]
  | define q v =>
      dsimp only [apply, Effect.stored?]
      split <;> rfl
  | store place src =>
      dsimp only [apply, Effect.stored?]
      rw [if_pos ht]
      by_cases h : src = r
      · simp [Record.memDef?, Record.addMemDef, Record.onMem, hm, RegTable.get?_insert, h]
      · simp [Record.memDef?, Record.addMemDef, Record.onMem, hm, RegTable.get?_insert, h,
          Ne.symm h]

/-- An entry that every effect leaves or replaces is in the end what the last of them put
there. -/
theorem entry_applyAll (look : Record → Option Value) {pick : Effect → Option Value}
    {site : Site} {address : UInt64} {memory : Bool}
    (hone : ∀ (q : Point) (e : Effect), q.record.head = (site, address, memory) →
      look (q.apply tracking e).record = (pick e).or (look q.record))
    {p : Point} (hp : p.record.head = (site, address, memory)) (es : List Effect) :
    look (p.applyAll tracking es).record = (Effect.last? pick es).or (look p.record) := by
  induction es using List.reverseRecOn with
  | nil => rfl
  | append_singleton es e ih =>
      have hall : p.applyAll tracking (es ++ [e]) = (p.applyAll tracking es).apply tracking e :=
        List.foldl_append
      rw [hall, hone _ e ((head_applyAll p es).trans hp), ih, Effect.last?_concat, Option.or_assoc]

end Point

/-! ## The lanes of registers and of memory -/

namespace FlowGraph

/-- The lane of a register: whoever sets it is its only origin. -/
def regLane (g : FlowGraph) (s : Settings) (r : Register) : Lane Site where
  keep o _ := !g.sets s o r
  gen o := if g.sets s o r then [o] else []

/-- The effects of an instruction that memory sees: none if memory is not tracked. -/
def memEffects (g : FlowGraph) (s : Settings) (tracking : Tracking) (o : Site) : List Effect :=
  if tracking.memory then g.effectsAt s o else []

/-- The lane of memory: a cell is lost to a store that overwrites it, and to a new value
of its base. -/
def memLane (g : FlowGraph) (s : Settings) (tracking : Tracking) : Lane Cell where
  keep o c := (g.memEffects s tracking o).all (Effect.spares c.1)
  gen o := (g.memEffects s tracking o).foldl (Effect.onCells o) []

theorem mem_gen_regLane {r : Register} {o d : Site} :
    d ∈ (g.regLane s r).gen o ↔ g.sets s o r = true ∧ d = o := by
  unfold regLane
  dsimp only
  split
  · rename_i h
    simp [h]
  · rename_i h
    simp [h]

/-- **A definition arrives along the paths on which nothing else sets its register.** -/
theorem arrives_regLane_iff {r : Register} {o q : Site} :
    (g.regLane s r).Arrives g o q ↔ g.sets s o r = true ∧
      ∃ path, g.Path o (o :: path) q ∧ ∀ i ∈ path, g.sets s i r = false := by
  have hkeep : ∀ i d : Site, (g.regLane s r).keep i d = true ↔ g.sets s i r = false := by
    simp [regLane]
  constructor
  · rintro ⟨o', path, hgen, hpath, hkept⟩
    obtain ⟨hset, rfl⟩ := mem_gen_regLane.mp hgen
    exact ⟨hset, path, hpath, fun i hi => (hkeep i _).mp (hkept i hi)⟩
  · rintro ⟨hset, path, hpath, hnone⟩
    exact ⟨o, path, mem_gen_regLane.mpr ⟨hset, rfl⟩, hpath,
      fun i hi => (hkeep i _).mpr (hnone i hi)⟩

/-- An instruction adds a cell exactly if it stores there and does not move the base. -/
theorem mem_gen_memLane {l : Location} {o d : Site} :
    (l, d) ∈ (g.memLane s .registersAndMemory).gen o ↔
      g.storesTo s o l = true ∧ g.sets s o l.base = false ∧ d = o := by
  show (l, d) ∈ (g.effectsAt s o).foldl (Effect.onCells o) [] ↔ _
  constructor
  · intro h
    obtain ⟨hown, hstored, hset⟩ := Effect.own_of_mem_foldl_onCells (g.effectsAt_inTurn s o) h
    exact ⟨hstored, hset, hown⟩
  · rintro ⟨hstored, hset, rfl⟩
    exact (Effect.mem_foldl_onCells_self hset).mpr (Or.inr hstored)

/-- A cell comes through an instruction that neither stores to it nor moves its base. -/
theorem keep_memLane {l : Location} {o d : Site} :
    (g.memLane s .registersAndMemory).keep o (l, d) = true ↔
      g.sets s o l.base = false ∧ g.storesTo s o l = false := by
  show (g.effectsAt s o).all (Effect.spares l) = true ↔ _
  unfold sets storesTo
  rw [List.all_eq_true, List.any_eq_false, List.any_eq_false, ← forall₂_and]
  simp [Effect.spares]

/-- **A store arrives along the paths on which its location is not stored to again and its
base is not moved**, neither by a later instruction nor by the storing one. -/
theorem arrives_memLane_iff {l : Location} {o q : Site} :
    (g.memLane s .registersAndMemory).Arrives g (l, o) q ↔
      g.storesTo s o l = true ∧ g.sets s o l.base = false ∧ ∃ path, g.Path o (o :: path) q ∧
        ∀ i ∈ path, g.sets s i l.base = false ∧ g.storesTo s i l = false := by
  constructor
  · rintro ⟨o', path, hgen, hpath, hkeep⟩
    obtain ⟨hstored, hset, rfl⟩ := mem_gen_memLane.mp hgen
    exact ⟨hstored, hset, path, hpath, fun i hi => keep_memLane.mp (hkeep i hi)⟩
  · rintro ⟨hstored, hset, path, hpath, hkept⟩
    exact ⟨o, path, mem_gen_memLane.mpr ⟨hstored, hset, rfl⟩, hpath,
      fun i hi => keep_memLane.mpr (hkept i hi)⟩

end FlowGraph

/-- `p` is the instruction `i` of `g` at `o`, being visited. -/
structure Point.Stands (g : FlowGraph) (tracking : Tracking) (p : Point) (o : Site)
    (i : Instruction) : Prop where
  instruction : g.instruction? o = some i
  head : p.record.head = (o, i.address, tracking.memory)

/-- What `view` shows of an exposed set moves along the lane `c`. -/
structure Tracks {α : Type} [DecidableEq α] (g : FlowGraph) (s : Settings) (tracking : Tracking)
    (c : Lane α) (view : Exposed → List α) : Prop where
  empty : view {} = []
  merge : ∀ x y, view (x.merge y) = OrderedSet.union (view x) (view y)
  visit : ∀ (p : Point) (o : Site) (i : Instruction), p.Stands g tracking o i →
    view (p.visit s tracking i).exposed = c.step o (view p.exposed)

namespace Point

variable {p : Point} {o : Site} {i : Instruction}

theorem Stands.effects (h : p.Stands g tracking o i) :
    s.effects i p.record.address = g.effectsAt s o := by
  have haddress : p.record.address = i.address := congrArg (·.2.1) h.head
  rw [haddress, FlowGraph.effectsAt_of_instruction h.instruction]

theorem Stands.visited (h : p.Stands g tracking o i) :
    (p.visit s tracking i).Stands g tracking o i :=
  ⟨h.instruction, (head_applyAll _ _).trans h.head⟩

theorem Stands.mem_eq_none (h : p.Stands g tracking o i) (ht : ¬ tracking.memory = true) :
    p.record.mem = none := by
  simpa [Record.head, ht] using congrArg (·.2.2) h.head

theorem Stands.memOrigins_eq_nil (h : p.Stands g tracking o i) (ht : ¬ tracking.memory = true)
    (r : Register) : p.record.memOrigins r = [] := by
  unfold Record.memOrigins Record.memRef?
  rw [h.mem_eq_none ht]
  rfl

/-- The record of an instruction notes the origins of what the instruction reads. -/
theorem Stands.mem_refs (h : p.Stands g tracking o i) (r : Register) (d : Site) :
    d ∈ (p.visit s tracking i).record.refs.origins r ↔
      d ∈ p.record.refs.origins r ∨ g.reads s o r = true ∧ d ∈ p.exposed.regs.origins r := by
  rw [mem_refs_visit, h.effects]
  rfl

/-- The record of an instruction notes the stores to where the instruction loads from. -/
theorem Stands.mem_memOrigins (h : p.Stands g tracking o i) (ht : tracking.memory = true)
    (dst : Register) (d : Site) :
    d ∈ (p.visit s tracking i).record.memOrigins dst ↔
      d ∈ p.record.memOrigins dst ∨
        ∃ l, g.loadsFrom s o l dst = true ∧ (l, d) ∈ p.exposed.mems.cells := by
  have hread : ∀ (e : Effect) (x : Exposed),
      (∃ l, e.loadsFrom l dst = true ∧ (l, d) ∈ x.mems.cells) → e.isRead = true := by
    rintro e x ⟨l, hs, _⟩
    cases e <;> simp_all [Effect.loadsFrom, Effect.isRead]
  have hone : ∀ (q : Point) (e : Effect), q.record.head = (o, i.address, tracking.memory) →
      (d ∈ (q.apply tracking e).record.memOrigins dst ↔ d ∈ q.record.memOrigins dst ∨
        ∃ l, e.loadsFrom l dst = true ∧ (l, d) ∈ q.exposed.mems.cells) := by
    intro q e hq
    exact mem_memOrigins_apply q e dst d ht ((congrArg (·.2.2) hq).trans ht)
  unfold visit
  rw [noted_applyAll (d ∈ ·.memOrigins dst) _ hread hone h.head
    (s.effects_readsFirst i p.record.address), h.effects]
  refine or_congr_right ⟨?_, ?_⟩
  · rintro ⟨e, he, l, hl, hd⟩
    exact ⟨l, List.any_eq_true.mpr ⟨e, he, hl⟩, hd⟩
  · rintro ⟨l, hl, hd⟩
    obtain ⟨e, he, hl⟩ := List.any_eq_true.mp hl
    exact ⟨e, he, l, hl, hd⟩

/-- The record of an instruction notes the values that it sets registers to. -/
theorem Stands.get?_defs (h : p.Stands g tracking o i) (r : Register) :
    (p.visit s tracking i).record.defs.get? r =
      (Effect.last? (Effect.defined? r) (g.effectsAt s o)).or (p.record.defs.get? r) := by
  unfold visit
  rw [← h.effects]
  exact entry_applyAll (·.defs.get? r) (fun q e _ => get?_defs_apply q e r) h.head _

/-- The record of an instruction notes the addresses that it stores registers to. -/
theorem Stands.memDef? (h : p.Stands g tracking o i) (ht : tracking.memory = true)
    (r : Register) : (p.visit s tracking i).record.memDef? r =
      (Effect.last? (Effect.stored? r) (g.effectsAt s o)).or (p.record.memDef? r) := by
  have hone : ∀ (q : Point) (e : Effect), q.record.head = (o, i.address, tracking.memory) →
      (q.apply tracking e).record.memDef? r = (e.stored? r).or (q.record.memDef? r) := by
    intro q e hq
    exact memDef?_apply q e r ht ((congrArg (·.2.2) hq).trans ht)
  unfold visit
  rw [← h.effects]
  exact entry_applyAll (·.memDef? r) hone h.head _

theorem Stands.isSome_defs (h : p.Stands g tracking o i) (r : Register) :
    ((p.visit s tracking i).record.defs.get? r).isSome = true ↔
      (p.record.defs.get? r).isSome = true ∨ g.sets s o r = true := by
  rw [h.get?_defs, Option.isSome_or, Bool.or_eq_true, Effect.isSome_last?, or_comm]
  simp only [Effect.isSome_defined?]
  exact or_congr_right List.any_eq_true.symm

/-- The record of an instruction says whether the instruction stores something. -/
theorem Stands.stores_iff (h : p.Stands g tracking o i) (ht : tracking.memory = true) :
    (p.visit s tracking i).record.stores = true ↔
      p.record.stores = true ∨ (g.effectsAt s o).any Effect.isStore = true := by
  have hlast : (∃ r, (Effect.last? (Effect.stored? r) (g.effectsAt s o)).isSome = true) ↔
      (g.effectsAt s o).any Effect.isStore = true := by
    simp only [Effect.isSome_last?, List.any_eq_true, Effect.isStore_iff]
    exact ⟨fun ⟨r, e, he, hr⟩ => ⟨e, he, r, hr⟩, fun ⟨e, he, r, hr⟩ => ⟨r, e, he, hr⟩⟩
  simp only [Record.stores_iff, h.memDef? ht, Option.isSome_or, Bool.or_eq_true, exists_or, hlast]
  exact or_comm

end Point

/-! ## What moves along them -/

/-- **The origins of a register move along its lane.** -/
theorem tracks_regLane (g : FlowGraph) (s : Settings) (tracking : Tracking) (r : Register) :
    Tracks g s tracking (g.regLane s r) (·.regs.origins r) where
  empty := rfl
  merge x y := RegTable.origins_mergeOrigins x.regs y.regs r
  visit p o i h := by
    have hsite : p.record.site = o := congrArg (·.1) h.head
    unfold Point.visit Lane.step FlowGraph.regLane
    rw [Point.origins_applyAll, h.effects, hsite]
    change (if g.sets s o r then _ else _) = _
    by_cases hs : g.sets s o r = true <;> simp [hs]

/-- **The cells of memory move along its lane.** -/
theorem tracks_memLane (g : FlowGraph) (s : Settings) (tracking : Tracking) :
    Tracks g s tracking (g.memLane s tracking) (·.mems.cells) where
  empty := rfl
  merge x y := MemOrigins.cells_merge x.mems y.mems
  visit p o i h := by
    have hsite : p.record.site = o := congrArg (·.1) h.head
    unfold Point.visit Lane.step FlowGraph.memLane FlowGraph.memEffects
    -- without tracking nothing moves, and the lane lets everything through
    by_cases ht : tracking.memory = true
    · dsimp only
      rw [Point.cells_applyAll _ _ ht, h.effects, hsite, if_pos ht]
      exact Effect.foldl_onCells_eq o _ _
    · rw [Point.mems_applyAll_of_untracked _ _ (by simpa using ht)]
      simp [ht]

end ReachingDefs
