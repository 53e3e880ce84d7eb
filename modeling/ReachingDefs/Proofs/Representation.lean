import Mathlib.Data.List.Perm.Basic
import ReachingDefs.Proofs.Visit

/-!
# Exposed sets and their lanes

Lanes show the origins of each register and the cells of memory. An exposed set has a
little more to it: a register may have an entry without origins, and a store is listed
under one of several trees for its location. Neither makes a difference in sets that
the analysis computes. They have no empty entries, and each store is listed under
the tree that its instruction writes last. So there the lanes tell everything, which is
`Proper.ext`.
-/

namespace ReachingDefs

/-! ## Tables are their lookups -/

theorem RegTable.ext_get? {α : Type} {t u : RegTable α} (h : ∀ r, t.get? r = u.get? r) : t = u := by
  -- sorted lists with the same members are equal
  have hmem : ∀ e, e ∈ t.entries ↔ e ∈ u.entries := by
    rintro ⟨r, v⟩
    rw [← get?_eq_some_iff, ← get?_eq_some_iff, h]
  have hlt : ∀ a b : Register × α, a.1 < b.1 → a ≠ b := by
    rintro a b hab rfl
    exact absurd hab (by simp [Register.lt_iff])
  have hperm : t.entries.Perm u.entries := by
    refine (List.perm_ext_iff_of_nodup ?_ ?_).mpr hmem
    · exact t.sorted.imp (hlt _ _)
    · exact u.sorted.imp (hlt _ _)
  have hentries : t.entries = u.entries := by
    refine hperm.eq_of_pairwise ?_ t.sorted u.sorted
    intro a b _ _ hab hba
    exact absurd hab (by simp only [Register.lt_iff] at *; omega)
  cases t
  cases u
  simpa using hentries

namespace RegTable

/-- No entry of the table is without origins. -/
def NoEmpty (t : RegOrigins) : Prop := ∀ r, t.get? r ≠ some []

theorem noEmpty_empty : NoEmpty empty := fun r h => by simp at h

theorem NoEmpty.insert {t : RegOrigins} (h : t.NoEmpty) (r : Register) {os : List Site}
    (hos : os ≠ []) : NoEmpty (t.insert r os) := by
  intro q hq
  rw [get?_insert] at hq
  split at hq
  · exact hos (Option.some.inj hq)
  · exact h q hq

theorem NoEmpty.addOrigins {t : RegOrigins} (h : t.NoEmpty) (r : Register) (os : List Site) :
    NoEmpty (t.addOrigins r os) := by
  unfold RegTable.addOrigins
  induction os generalizing t with
  | nil => exact h
  | cons o os ih =>
      refine ih (h.insert r ?_)
      unfold OrderedSet.insert
      split
      · rename_i hmem
        exact List.ne_nil_of_mem hmem
      · simp

theorem NoEmpty.mergeOrigins {t : RegOrigins} (h : t.NoEmpty) (u : RegOrigins) :
    NoEmpty (t.mergeOrigins u) := by
  unfold RegTable.mergeOrigins
  induction u.entries generalizing t with
  | nil => exact h
  | cons e entries ih => exact ih (h.addOrigins e.1 e.2)

theorem NoEmpty.get?_eq {t : RegOrigins} (h : t.NoEmpty) (r : Register) :
    t.get? r = if t.origins r = [] then none else some (t.origins r) := by
  unfold origins
  cases hr : t.get? r with
  | none => rfl
  | some os =>
      have hos : os ≠ [] := by
        rintro rfl
        exact h r hr
      simp [hos]

/-- Without empty entries, a table is determined by the origins in it. -/
theorem NoEmpty.ext {t u : RegOrigins} (ht : t.NoEmpty) (hu : u.NoEmpty)
    (h : ∀ r, t.origins r = u.origins r) : t = u := by
  refine ext_get? fun r => ?_
  rw [ht.get?_eq, hu.get?_eq, h]

end RegTable

/-- No entry of the record is without origins. -/
structure Record.NoEmpty (x : Record) : Prop where
  refs : x.refs.NoEmpty
  memRefs : ∀ m, x.mem = some m → m.refs.NoEmpty

theorem Record.noEmpty_fresh (o : Site) (address : UInt64) (tracking : Tracking) :
    (fresh o address tracking).NoEmpty := by
  refine ⟨RegTable.noEmpty_empty, fun m hm => ?_⟩
  cases tracking with
  | registers => cases hm
  | registersAndMemory =>
      obtain rfl : {} = m := Option.some.inj hm
      exact RegTable.noEmpty_empty

namespace Point

variable {tracking : Tracking}

theorem noEmpty_record_apply (p : Point) (h : p.record.NoEmpty) (e : Effect) :
    (p.apply tracking e).record.NoEmpty := by
  cases e with
  | use r =>
      dsimp only [apply]
      split
      · exact h
      · rw [Record.linkReg_eq]
        exact ⟨h.refs.addOrigins r _, h.memRefs⟩
  | load place dst =>
      dsimp only [apply]
      split
      · rw [Record.linkMem_eq]
        refine ⟨h.refs, fun m hm => ?_⟩
        obtain ⟨n, hn, rfl⟩ := Option.map_eq_some_iff.mp hm
        exact (h.memRefs n hn).addOrigins dst _
      · exact h
  | define r v =>
      dsimp only [apply]
      split
      · exact h
      · exact ⟨h.refs, h.memRefs⟩
  | store place src =>
      dsimp only [apply]
      split
      · refine ⟨h.refs, fun m hm => ?_⟩
        obtain ⟨n, hn, rfl⟩ := Option.map_eq_some_iff.mp hm
        exact h.memRefs n hn
      · exact h

theorem noEmpty_record_visit {s : Settings} (p : Point) (h : p.record.NoEmpty) (i : Instruction) :
    (p.visit s tracking i).record.NoEmpty := by
  unfold visit applyAll
  induction s.effects i p.record.address generalizing p with
  | nil => exact h
  | cons e es ih => exact ih _ (noEmpty_record_apply p h e)

end Point

/-! ## Stores and their trees -/

namespace MemOrigins

theorem mem_stores_add {m : MemOrigins} {place : Value} {o : Site} {st : StoreOrigin}
    (h : st ∈ (m.add place o).stores) : st ∈ m.stores ∨ st = ⟨place, o⟩ := by
  unfold add at h
  split at h
  · exact Or.inl h
  · simpa using h

theorem mem_stores_merge {m n : MemOrigins} {st : StoreOrigin} (h : st ∈ (m.merge n).stores) :
    st ∈ m.stores ∨ st ∈ n.stores := by
  obtain ⟨stores⟩ := n
  unfold merge at h
  induction stores generalizing m with
  | nil => exact Or.inl h
  | cons s rest ih =>
      rcases ih h with h | h
      · rcases mem_stores_add h with h | rfl
        · exact Or.inl h
        · exact Or.inr List.mem_cons_self
      · exact Or.inr (List.mem_cons_of_mem _ h)

theorem mem_stores_set {m : MemOrigins} {place : Value} {o : Site} {l : Location}
    (hl : place.location? = some l) {st : StoreOrigin} (h : st ∈ (m.set place o).stores) :
    st ∈ m.stores ∧ st.place.location? ≠ some l ∨ st = ⟨place, o⟩ := by
  rcases mem_stores_add h with h | h
  · obtain ⟨hmem, hnot⟩ := List.mem_filter.mp h
    refine Or.inl ⟨hmem, fun he => ?_⟩
    have hsame : st.place.sameLocation place = true := sameLocation_iff.mpr ⟨l, he, hl⟩
    simp [hsame] at hnot
  · exact Or.inr h

end MemOrigins

namespace Effect

/-- The tree under which the effect stores to `l`. -/
def tree? (l : Location) : Effect → Option Value
  | store place _ => if place.location? = some l then some place else none
  | _ => none

/-- The tree under which the last of the effects that stores to `l` does so. -/
def lastTree? (l : Location) (es : List Effect) : Option Value :=
  es.reverse.findSome? (tree? l)

theorem lastTree?_concat (l : Location) (es : List Effect) (e : Effect) :
    lastTree? l (es ++ [e]) = (e.tree? l).or (lastTree? l es) :=
  last?_concat (tree? l) es e

end Effect

/-- The tree under which the instruction at `o` stores to `l`. -/
def FlowGraph.treeAt? (g : FlowGraph) (s : Settings) (o : Site) (l : Location) : Option Value :=
  Effect.lastTree? l (g.effectsAt s o)

namespace Point

variable {tracking : Tracking}

theorem stores_apply (p : Point) (ht : tracking.memory = true) (e : Effect) {st : StoreOrigin}
    (hst : st ∈ (p.apply tracking e).exposed.mems.stores) :
    st ∈ p.exposed.mems.stores ∧ (∀ l, st.place.location? = some l → e.tree? l = none) ∨
      ∃ l, st.place.location? = some l ∧ e.tree? l = some st.place ∧
        st.origin = p.record.site := by
  cases e with
  | use r =>
      rw [exposed_apply_of_isRead p rfl] at hst
      exact Or.inl ⟨hst, fun _ _ => rfl⟩
  | load place dst =>
      rw [exposed_apply_of_isRead p rfl] at hst
      exact Or.inl ⟨hst, fun _ _ => rfl⟩
  | define r v =>
      refine Or.inl ⟨?_, fun _ _ => rfl⟩
      dsimp only [apply] at hst
      split at hst
      · exact hst
      · exact (List.mem_filter.mp hst).1
  | store place src =>
      dsimp only [apply, Exposed.setMem] at hst
      rw [if_pos ht] at hst
      cases hl : place.location? with
      | none =>
          rw [hl] at hst
          exact Or.inl ⟨hst, fun l _ => by simp [Effect.tree?, hl]⟩
      | some k =>
          rw [hl] at hst
          -- a store that is left over is to another location
          rcases MemOrigins.mem_stores_set hl hst with ⟨hmem, hne⟩ | rfl
          · refine Or.inl ⟨hmem, fun l hloc => ?_⟩
            rw [hloc] at hne
            simp [Effect.tree?, hl, Ne.symm (fun he => hne (congrArg some he))]
          · exact Or.inr ⟨k, hl, by simp [Effect.tree?, hl], rfl⟩

/-- What an instruction leaves in memory was there before, or is its own store under the
last tree that it writes. -/
theorem stores_applyAll (p : Point) (ht : tracking.memory = true) (es : List Effect)
    {st : StoreOrigin} (hst : st ∈ (p.applyAll tracking es).exposed.mems.stores) :
    st ∈ p.exposed.mems.stores ∨
      ∃ l, st.place.location? = some l ∧ Effect.lastTree? l es = some st.place ∧
        st.origin = p.record.site := by
  induction es using List.reverseRecOn with
  | nil => exact Or.inl hst
  | append_singleton es e ih =>
      have hsite : (p.applyAll tracking es).record.site = p.record.site :=
        congrArg (·.1) (head_applyAll p es)
      simp only [Effect.lastTree?_concat]
      unfold applyAll at hst
      rw [List.foldl_append] at hst
      rcases stores_apply _ ht e hst with ⟨hold, hnone⟩ | ⟨l, hl, htree, horigin⟩
      · -- the last effect did not write this store, so it counts as before
        rcases ih hold with hstart | ⟨l, hl, htree, horigin⟩
        · exact Or.inl hstart
        · refine Or.inr ⟨l, hl, ?_, horigin⟩
          rw [hnone l hl, htree]
          rfl
      · refine Or.inr ⟨l, hl, ?_, horigin.trans hsite⟩
        rw [htree]
        rfl

end Point

/-! ## Proper sets -/

/-- No register is entered without origins, and every store is listed under the tree that
its instruction writes last. -/
structure Exposed.Proper (g : FlowGraph) (s : Settings) (x : Exposed) : Prop where
  regs : x.regs.NoEmpty
  mems : ∀ st ∈ x.mems.stores, ∃ l, st.place.location? = some l ∧
    g.treeAt? s st.origin l = some st.place

namespace Exposed

variable {g : FlowGraph} {s : Settings} {tracking : Tracking} {x y : Exposed}

theorem proper_empty : Proper g s {} :=
  ⟨RegTable.noEmpty_empty, fun _ h => absurd h List.not_mem_nil⟩

theorem Proper.merge (hx : x.Proper g s) (hy : y.Proper g s) : (x.merge y).Proper g s := by
  refine ⟨hx.regs.mergeOrigins y.regs, ?_⟩
  intro st hst
  rcases MemOrigins.mem_stores_merge hst with h | h
  · exact hx.mems st h
  · exact hy.mems st h

theorem noEmpty_apply (p : Point) (h : p.exposed.regs.NoEmpty) (e : Effect) :
    (p.apply tracking e).exposed.regs.NoEmpty := by
  cases e with
  | use r => rwa [Point.exposed_apply_of_isRead p rfl]
  | load place dst => rwa [Point.exposed_apply_of_isRead p rfl]
  | define r v =>
      dsimp only [Point.apply]
      split
      · exact h
      · have hset : (p.exposed.setReg r p.record.site).regs.NoEmpty := h.insert r (by simp)
        split <;> exact hset
  | store place src =>
      dsimp only [Point.apply, setMem]
      split
      · split <;> exact h
      · exact h

theorem noEmpty_applyAll (p : Point) (h : p.exposed.regs.NoEmpty) (es : List Effect) :
    (p.applyAll tracking es).exposed.regs.NoEmpty := by
  unfold Point.applyAll
  induction es generalizing p with
  | nil => exact h
  | cons e es ih => exact ih _ (noEmpty_apply p h e)

/-- **Visits keep sets proper.** -/
theorem Proper.visit {p : Point} {o : Site} {i : Instruction} (hp : p.Stands g tracking o i)
    (h : p.exposed.Proper g s) : (p.visit s tracking i).exposed.Proper g s := by
  have hsite : p.record.site = o := congrArg (·.1) hp.head
  unfold Point.visit
  rw [hp.effects]
  refine ⟨noEmpty_applyAll p h.regs _, ?_⟩
  intro st hst
  by_cases ht : tracking.memory = true
  · rcases Point.stores_applyAll p ht _ hst with hold | ⟨l, hl, htree, horigin⟩
    · exact h.mems st hold
    · refine ⟨l, hl, ?_⟩
      rw [horigin, hsite]
      exact htree
  · rw [Point.mems_applyAll_of_untracked _ _ (by simpa using ht)] at hst
    exact h.mems st hst

/-- Stores under the trees of their instructions are determined by their cells. -/
theorem stores_ext {a b : List StoreOrigin}
    (ha : ∀ st ∈ a, ∃ l, st.place.location? = some l ∧ g.treeAt? s st.origin l = some st.place)
    (hb : ∀ st ∈ b, ∃ l, st.place.location? = some l ∧ g.treeAt? s st.origin l = some st.place)
    (h : a.filterMap StoreOrigin.cell? = b.filterMap StoreOrigin.cell?) : a = b := by
  have hcell : ∀ {st : StoreOrigin} {l : Location}, st.place.location? = some l →
      st.cell? = some (l, st.origin) := by
    intro st l hl
    unfold StoreOrigin.cell?
    rw [hl]
    rfl
  induction a generalizing b with
  | nil =>
      cases b with
      | nil => rfl
      | cons st b =>
          obtain ⟨l, hl, _⟩ := hb st List.mem_cons_self
          rw [List.filterMap_cons_some (hcell hl)] at h
          cases h
  | cons st a ih =>
      obtain ⟨l, hl, htree⟩ := ha st List.mem_cons_self
      rw [List.filterMap_cons_some (hcell hl)] at h
      cases b with
      | nil => cases h
      | cons st' b =>
          obtain ⟨l', hl', htree'⟩ := hb st' List.mem_cons_self
          rw [List.filterMap_cons_some (hcell hl')] at h
          obtain ⟨hhead, htail⟩ := List.cons.inj h
          obtain ⟨rfl, horigin⟩ := Prod.mk.inj hhead
          -- one instruction and one location make one tree
          have hplace : st.place = st'.place := by
            rw [horigin, htree'] at htree
            exact (Option.some.inj htree).symm
          have hst : st = st' := by
            cases st
            cases st'
            simp_all
          rw [hst, ih (fun x hx => ha x (List.mem_cons_of_mem _ hx))
            (fun x hx => hb x (List.mem_cons_of_mem _ hx)) htail]

/-- **The lanes of a proper set tell everything about it.** -/
theorem Proper.ext (hx : x.Proper g s) (hy : y.Proper g s)
    (hregs : ∀ r, x.regs.origins r = y.regs.origins r) (hmems : x.mems.cells = y.mems.cells) :
    x = y := by
  have hregs' : x.regs = y.regs := hx.regs.ext hy.regs hregs
  have hstores : x.mems.stores = y.mems.stores := stores_ext hx.mems hy.mems hmems
  obtain ⟨xr, ⟨xm⟩⟩ := x
  obtain ⟨yr, ⟨ym⟩⟩ := y
  simp only at hregs' hstores
  rw [hregs', hstores]

end Exposed

/-! ## Proper facts -/

namespace Facts

variable {g : FlowGraph} {s : Settings} {b : BlockId}

/-- Every block exposes proper sets. -/
def Proper (g : FlowGraph) (s : Settings) (f : Facts) : Prop :=
  ∀ b, (f.exposed b).Proper g s

/-- No record has an entry without origins. -/
def RecordsNoEmpty (f : Facts) : Prop := ∀ o x, f.record? o = some x → x.NoEmpty

theorem RecordsNoEmpty.visits {f f' : Facts} (h : f.RecordsNoEmpty) (hf : f.Fits g)
    (hv : Visits s g b f f') : f'.RecordsNoEmpty := by
  intro o x hx
  by_cases hb : o.block = b
  · obtain ⟨i, p, _, _, _, hold, rfl⟩ := hv.record_eq hf hb hx
    refine Point.noEmpty_record_visit p ?_ i
    rw [hold]
    cases hy : f.record? o with
    | none => exact Record.noEmpty_fresh ..
    | some y => exact h o y hy
  · exact h o x ((record?_congr (hv.others _ hb)).symm.trans hx)

theorem fresh_proper (g : FlowGraph) (s : Settings) (tracking : Tracking) :
    (fresh g tracking).Proper g s := by
  intro b
  rw [exposed_fresh]
  exact Exposed.proper_empty

theorem Proper.union {f : Facts} (h : f.Proper g s) (ps : List BlockId) :
    (f.union ps).Proper g s :=
  union_preserves Exposed.proper_empty (fun _ p hx => hx.merge (h p)) ps

theorem Proper.visits {f f' : Facts} (h : f.Proper g s) (hv : Visits s g b f f') :
    f'.Proper g s := by
  intro d
  by_cases hd : d = b
  · subst hd
    exact hv.exposed.keeps (fun p o i hp hprop => hprop.visit hp) (h.union _)
  · unfold exposed
    rw [hv.others d hd]
    exact h d

end Facts

end ReachingDefs
