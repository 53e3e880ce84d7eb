import ReachingDefs.Facts.Exposed

/-!
# Lookups in tables of origins

What each operation on exposed sets does to a lookup. A register's origins are one
ordered list. The stores to memory are read as one ordered list as well, of
*cells*: locations, each with a site that may have written there. The trees
that addresses are written in do not show in it, so a store listed under another
tree for its location changes nothing.

Both kinds of list obey the same laws. A definition or a store drops some members
and puts its own at the end; a join adds the members that are not there yet.
-/

namespace ReachingDefs

namespace OrderedSet

variable {α : Type} [DecidableEq α]

theorem insert_of_mem {xs : List α} {x : α} (h : x ∈ xs) : insert xs x = xs :=
  if_pos h

theorem insert_of_not_mem {xs : List α} {x : α} (h : x ∉ xs) : insert xs x = xs ++ [x] :=
  if_neg h

theorem union_nil (xs : List α) : union xs [] = xs := rfl

theorem union_cons (xs ys : List α) (y : α) : union xs (y :: ys) = union (insert xs y) ys := rfl

end OrderedSet

/-! ## Origins of registers -/

namespace RegTable

theorem origins_setOrigin (t : RegOrigins) (r q : Register) (o : Site) :
    (t.setOrigin r o).origins q = if q = r then [o] else t.origins q := by
  unfold origins setOrigin
  rw [get?_insert]
  split <;> rfl

theorem origins_addOrigin (t : RegOrigins) (r q : Register) (o : Site) :
    (t.addOrigin r o).origins q =
      if q = r then OrderedSet.insert (t.origins r) o else t.origins q := by
  unfold origins addOrigin
  rw [get?_insert]
  split <;> rfl

theorem origins_addOrigins (t : RegOrigins) (r q : Register) (os : List Site) :
    (t.addOrigins r os).origins q =
      if q = r then OrderedSet.union (t.origins r) os else t.origins q := by
  unfold addOrigins
  induction os generalizing t with
  | nil =>
      split
      · rename_i h
        rw [h]
        rfl
      · rfl
  | cons o os ih =>
      rw [List.foldl_cons, ih]
      split
      · rw [origins_addOrigin, if_pos rfl, OrderedSet.union_cons]
      · rename_i h
        rw [origins_addOrigin, if_neg h]

/-- A register has at most one entry, so a merge reaches its origins once. -/
theorem origins_foldl_entries (l : List (Register × List Site))
    (hl : l.Pairwise fun a b => a.1 < b.1) (t : RegOrigins) (r : Register) :
    (l.foldl (fun t e => t.addOrigins e.1 e.2) t).origins r =
      OrderedSet.union (t.origins r) ((l.lookup r).getD []) := by
  induction l generalizing t with
  | nil => rfl
  | cons e l ih =>
      obtain ⟨q, os⟩ := e
      obtain ⟨hq, hl⟩ := List.pairwise_cons.mp hl
      rw [List.foldl_cons, ih hl, lookup_cons_ite, origins_addOrigins]
      by_cases h : r = q
      · subst h
        -- the entries are sorted, so the rest has none for `r`
        have hnone : l.lookup r = none := by
          rw [List.lookup_eq_none_iff]
          intro p hp
          have hlt := hq p hp
          simp only [bne_iff_ne, ne_eq]
          rintro rfl
          exact absurd hlt (by simp [Register.lt_iff])
        simp [hnone, OrderedSet.union_nil]
      · simp [h]

theorem origins_mergeOrigins (t u : RegOrigins) (r : Register) :
    (t.mergeOrigins u).origins r = OrderedSet.union (t.origins r) (u.origins r) :=
  origins_foldl_entries u.entries u.sorted t r

theorem isEmpty_eq_false_iff {α : Type} {t : RegTable α} :
    t.isEmpty = false ↔ ∃ r, (t.get? r).isSome = true := by
  unfold isEmpty
  rw [List.isEmpty_eq_false_iff_exists_mem]
  constructor
  · rintro ⟨⟨r, v⟩, he⟩
    exact ⟨r, Option.isSome_iff_exists.mpr ⟨v, (get?_eq_some_iff t).mpr he⟩⟩
  · rintro ⟨r, hr⟩
    obtain ⟨v, hv⟩ := Option.isSome_iff_exists.mp hr
    exact ⟨(r, v), (get?_eq_some_iff t).mp hv⟩

end RegTable

/-! ## Cells of memory -/

/-- A cell that may have been written, and the site of a store that did. -/
abbrev Cell := Location × Site

/-- The cell that a store writes; none if its address has no location. -/
def StoreOrigin.cell? (s : StoreOrigin) : Option Cell :=
  s.place.location?.map fun l => (l, s.origin)

namespace MemOrigins

/-- The cells that may have been written, in order of discovery. -/
def cells (m : MemOrigins) : List Cell :=
  m.stores.filterMap StoreOrigin.cell?

theorem mem_cells {m : MemOrigins} {l : Location} {o : Site} :
    (l, o) ∈ m.cells ↔ ∃ s ∈ m.stores, s.place.location? = some l ∧ s.origin = o := by
  unfold cells StoreOrigin.cell?
  rw [List.mem_filterMap]
  constructor
  · rintro ⟨s, hs, he⟩
    obtain ⟨l', hl, hp⟩ := Option.map_eq_some_iff.mp he
    obtain ⟨rfl, rfl⟩ := Prod.mk.inj hp
    exact ⟨s, hs, hl, rfl⟩
  · rintro ⟨s, hs, hl, rfl⟩
    exact ⟨s, hs, by rw [hl]; rfl⟩

theorem sameLocation_iff {a b : Value} :
    a.sameLocation b = true ↔ ∃ l, a.location? = some l ∧ b.location? = some l := by
  unfold Value.sameLocation
  split
  · rename_i l m ha hb
    rw [ha, hb, decide_eq_true_eq]
    constructor
    · rintro rfl
      exact ⟨l, rfl, rfl⟩
    · rintro ⟨k, hl, hm⟩
      exact (Option.some.inj hl).trans (Option.some.inj hm).symm
  · rename_i hnot
    refine ⟨fun h => absurd h (by simp), ?_⟩
    rintro ⟨l, ha, hb⟩
    exact absurd hb (hnot l l ha)

theorem mem_origins {m : MemOrigins} {place : Value} {o : Site} :
    o ∈ m.origins place ↔ ∃ l, place.location? = some l ∧ (l, o) ∈ m.cells := by
  unfold origins
  simp only [List.mem_map, List.mem_filter, sameLocation_iff, mem_cells]
  constructor
  · rintro ⟨s, ⟨hs, l, hl, hp⟩, rfl⟩
    exact ⟨l, hp, s, hs, hl, rfl⟩
  · rintro ⟨l, hp, s, hs, hl, rfl⟩
    exact ⟨s, ⟨hs, l, hl, hp⟩, rfl⟩

/-- The store of `o` to a place with a location is listed exactly if its cell is. -/
theorem holds_iff {m : MemOrigins} {place : Value} {o : Site} {l : Location}
    (hl : place.location? = some l) : m.holds place o = true ↔ (l, o) ∈ m.cells := by
  unfold holds
  rw [List.any_eq_true, mem_cells]
  simp only [Bool.and_eq_true, Bool.or_eq_true, decide_eq_true_eq, sameLocation_iff]
  constructor
  · rintro ⟨s, hs, ho, hp | ⟨k, hk, hpk⟩⟩
    · exact ⟨s, hs, hp ▸ hl, ho⟩
    · rw [hl] at hpk
      exact ⟨s, hs, hpk ▸ hk, ho⟩
  · rintro ⟨s, hs, hk, ho⟩
    exact ⟨s, hs, ho, Or.inr ⟨l, hk, hl⟩⟩

/-- What holds between any two stores of a list still does when one is added, if it holds
between those that are there and the new one, unless they are one store. -/
theorem pairwise_add {R : StoreOrigin → StoreOrigin → Prop} {m : MemOrigins} {place : Value}
    {o : Site} (h : m.stores.Pairwise R)
    (hnew : ∀ s ∈ m.stores,
      ¬ (s.origin = o ∧ (s.place = place ∨ s.place.sameLocation place = true)) → R s ⟨place, o⟩) :
    (m.add place o).stores.Pairwise R := by
  unfold add
  split
  · exact h
  · rename_i hnot
    refine List.pairwise_append.mpr ⟨h, List.pairwise_singleton .., ?_⟩
    intro a ha b hb
    obtain rfl := List.mem_singleton.mp hb
    refine hnew a ha fun hsame => hnot (List.any_eq_true.mpr ⟨a, ha, ?_⟩)
    simpa using hsame

theorem cells_add_of_some {m : MemOrigins} {place : Value} {o : Site} {l : Location}
    (hl : place.location? = some l) : (m.add place o).cells = OrderedSet.insert m.cells (l, o) := by
  unfold add
  by_cases h : m.holds place o = true
  · rw [if_pos h, OrderedSet.insert_of_mem ((holds_iff hl).mp h)]
  · rw [if_neg h, OrderedSet.insert_of_not_mem (fun hm => h ((holds_iff hl).mpr hm))]
    unfold cells
    rw [List.filterMap_append]
    simp [StoreOrigin.cell?, hl]

theorem cells_add_of_none {m : MemOrigins} {place : Value} {o : Site}
    (hl : place.location? = none) : (m.add place o).cells = m.cells := by
  unfold add
  split
  · rfl
  · unfold cells
    rw [List.filterMap_append]
    simp [StoreOrigin.cell?, hl]

theorem cells_merge (m n : MemOrigins) : (m.merge n).cells = OrderedSet.union m.cells n.cells := by
  obtain ⟨stores⟩ := n
  unfold merge
  induction stores generalizing m with
  | nil => rfl
  | cons s rest ih =>
      rw [List.foldl_cons, ih]
      cases hl : s.place.location? with
      | none =>
          rw [cells_add_of_none hl]
          congr 1
          simp [cells, StoreOrigin.cell?, hl]
      | some l =>
          rw [cells_add_of_some hl, ← OrderedSet.union_cons]
          congr 1
          simp [cells, StoreOrigin.cell?, hl]

/-- Dropping the stores that fail a test of their cell drops their cells. -/
theorem cells_filter (m : MemOrigins) (drop : StoreOrigin → Bool) (keep : Cell → Bool)
    (h : ∀ s c, s.cell? = some c → drop s = keep c) :
    (MemOrigins.mk (m.stores.filter drop)).cells = m.cells.filter keep := by
  unfold cells
  induction m.stores with
  | nil => rfl
  | cons s rest ih =>
      cases hc : s.cell? with
      | none =>
          rw [List.filterMap_cons_none hc, ← ih]
          by_cases hd : drop s = true
          · rw [List.filter_cons_of_pos hd, List.filterMap_cons_none hc]
          · rw [List.filter_cons_of_neg hd]
      | some c =>
          have hk := h s c hc
          rw [List.filterMap_cons_some hc]
          by_cases hd : drop s = true
          · rw [List.filter_cons_of_pos hd, List.filterMap_cons_some hc,
              List.filter_cons_of_pos (hk ▸ hd), ih]
          · rw [List.filter_cons_of_neg hd, List.filter_cons_of_neg (hk ▸ hd), ih]

theorem cell?_eq_some {s : StoreOrigin} {c : Cell} (h : s.cell? = some c) :
    s.place.location? = some c.1 ∧ s.origin = c.2 := by
  obtain ⟨l, hl, rfl⟩ := Option.map_eq_some_iff.mp h
  exact ⟨hl, rfl⟩

theorem cells_erase {m : MemOrigins} {place : Value} {l : Location}
    (hl : place.location? = some l) : (m.erase place).cells = m.cells.filter (·.1 ≠ l) := by
  refine cells_filter m _ _ fun s c hc => ?_
  obtain ⟨hs, _⟩ := cell?_eq_some hc
  simp [Value.sameLocation, hs, hl]

/-- A new store takes the place of all others to its location. -/
theorem cells_set {m : MemOrigins} {place : Value} {o : Site} {l : Location}
    (hl : place.location? = some l) :
    (m.set place o).cells = m.cells.filter (·.1 ≠ l) ++ [(l, o)] := by
  -- the other stores are dropped first, so the new one is not there yet
  unfold set
  rw [cells_add_of_some hl, cells_erase hl, OrderedSet.insert_of_not_mem]
  simp

/-- A new base value takes its cells away. -/
theorem cells_eraseBase (m : MemOrigins) (r : Register) :
    (m.eraseBase r).cells = m.cells.filter (·.1.base ≠ r) := by
  refine cells_filter m _ _ fun s c hc => ?_
  obtain ⟨hs, _⟩ := cell?_eq_some hc
  simp [Value.baseRegister?, hs]

end MemOrigins

end ReachingDefs
