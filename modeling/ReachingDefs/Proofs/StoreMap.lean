import ReachingDefs.Proofs.Components
import ReachingDefs.Proofs.Origins

/-!
# A list of stores is a map from locations

Stores are kept in one list, and a lookup scans it for the location of a place. Two
relations are at work in it. A store is not entered twice under one tree, whether or not the
tree has a location; and it is not entered under two trees that have the same location. A
tree without a location has no location in common with any tree, itself included, so the
second relation alone would let it in again and again.

Seen through lookups there is nothing left of the trees: `MemOrigins.sitesAt` is the map from
locations to sites that a list stands for, and every operation on the list is one on that map
(`MemOrigins.IsMap`). This takes lists without repetitions, and those are all that can be made
(`Reached.unrepeated`).
-/

namespace ReachingDefs

theorem OrderedSet.ofList_of_nodup {α : Type} [DecidableEq α] {l : List α} (h : l.Nodup) :
    ofList l = l := by
  induction l with
  | nil => rfl
  | cons x l ih =>
      obtain ⟨hx, hl⟩ := List.nodup_cons.mp h
      have hne : l.filter (· ≠ x) = l :=
        List.filter_eq_self.mpr fun y hy => decide_eq_true fun he => hx (he ▸ hy)
      rw [ofList_cons, hne, ih hl]

namespace MemOrigins

/-! ## The map that a list stands for -/

/-- The sites that the cells list for a location, in order. -/
def sitesIn (cells : List Cell) (l : Location) : List Site :=
  (cells.filter (·.1 = l)).map (·.2)

/-- The sites that may have written the cell at `l`. -/
def sitesAt (m : MemOrigins) (l : Location) : List Site := sitesIn m.cells l

variable {m n : MemOrigins} {place q : Value} {k l : Location} {o : Site} {cells : List Cell}

theorem mem_sitesIn : o ∈ sitesIn cells l ↔ (l, o) ∈ cells := by
  simp [sitesIn]

theorem sitesIn_cons :
    sitesIn ((k, o) :: cells) l = if l = k then o :: sitesIn cells l else sitesIn cells l := by
  unfold sitesIn
  split
  · rename_i h
    rw [List.filter_cons_of_pos (by simp [h]), List.map_cons]
  · rename_i h
    rw [List.filter_cons_of_neg (by simp [Ne.symm h])]

theorem sitesIn_concat :
    sitesIn (cells ++ [(k, o)]) l = if l = k then sitesIn cells l ++ [o] else sitesIn cells l := by
  have happend : sitesIn (cells ++ [(k, o)]) l = sitesIn cells l ++ sitesIn [(k, o)] l := by
    simp [sitesIn]
  rw [happend, sitesIn_cons]
  split
  · rfl
  · exact List.append_nil _

theorem sitesIn_insert :
    sitesIn (OrderedSet.insert cells (k, o)) l =
      if l = k then OrderedSet.insert (sitesIn cells l) o else sitesIn cells l := by
  by_cases hmem : (k, o) ∈ cells
  · rw [OrderedSet.insert_of_mem hmem]
    split
    · rename_i h
      rw [OrderedSet.insert_of_mem (mem_sitesIn.mpr (h ▸ hmem))]
    · rfl
  · rw [OrderedSet.insert_of_not_mem hmem, sitesIn_concat]
    split
    · rename_i h
      rw [OrderedSet.insert_of_not_mem (fun ho => hmem (h ▸ mem_sitesIn.mp ho))]
    · rfl

theorem sitesIn_union (cells cells' : List Cell) (l : Location) :
    sitesIn (OrderedSet.union cells cells') l =
      OrderedSet.union (sitesIn cells l) (sitesIn cells' l) := by
  induction cells' generalizing cells with
  | nil => rfl
  | cons c rest ih =>
      obtain ⟨k, o⟩ := c
      rw [OrderedSet.union_cons, ih, sitesIn_insert, sitesIn_cons]
      split <;> rfl

/-- Dropping cells by their location drops all or none of the sites at a location. -/
theorem sitesIn_filter (cells : List Cell) (keep : Location → Bool) (l : Location) :
    sitesIn (cells.filter (keep ·.1)) l = if keep l then sitesIn cells l else [] := by
  induction cells with
  | nil => simp [sitesIn]
  | cons c rest ih =>
      obtain ⟨k, o⟩ := c
      rw [sitesIn_cons]
      by_cases hk : keep k = true
      · rw [List.filter_cons_of_pos (by exact hk), sitesIn_cons, ih]
        by_cases hl : l = k
        · simp [hl, hk]
        · simp [hl]
      · rw [List.filter_cons_of_neg (by exact hk), ih]
        by_cases hl : l = k
        · simp [hl, hk]
        · simp [hl]

/-- **A lookup asks the map**, and finds nothing for a place without a location. -/
theorem origins_eq (m : MemOrigins) (q : Value) :
    m.origins q = (q.location?.map m.sitesAt).getD [] := by
  obtain ⟨stores⟩ := m
  unfold origins sitesAt MemOrigins.cells
  cases hq : q.location? with
  | none =>
      have hnone : ∀ s : StoreOrigin, s.place.sameLocation q = false := fun s => by
        simp [Value.sameLocation, hq]
      simp [hnone]
  | some l =>
      dsimp only [Option.map_some, Option.getD_some]
      induction stores with
      | nil => rfl
      | cons s rest ih =>
          cases hs : s.place.location? with
          | none =>
              rw [List.filterMap_cons_none (by simp [StoreOrigin.cell?, hs]),
                List.filter_cons_of_neg (by simp [Value.sameLocation, hs]), ih]
          | some k =>
              rw [List.filterMap_cons_some (b := (k, s.origin)) (by simp [StoreOrigin.cell?, hs]),
                sitesIn_cons, ← ih]
              by_cases hk : l = k
              · rw [List.filter_cons_of_pos (by simp [Value.sameLocation, hs, hq, hk]), if_pos hk,
                  List.map_cons]
              · rw [List.filter_cons_of_neg (by simp [Value.sameLocation, hs, hq, Ne.symm hk]),
                  if_neg hk]

theorem origins_of_some (hq : q.location? = some l) : m.origins q = m.sitesAt l := by
  rw [origins_eq, hq]
  rfl

theorem origins_of_none (hq : q.location? = none) : m.origins q = [] := by
  rw [origins_eq, hq]
  rfl

/-! ## What operations do to the map -/

theorem sitesAt_add (hl : place.location? = some l) :
    (m.add place o).sitesAt k =
      if k = l then OrderedSet.insert (m.sitesAt k) o else m.sitesAt k := by
  unfold sitesAt
  rw [cells_add_of_some hl, sitesIn_insert]

theorem sitesAt_set (hl : place.location? = some l) :
    (m.set place o).sitesAt k = if k = l then [o] else m.sitesAt k := by
  unfold sitesAt
  rw [cells_set hl, sitesIn_concat, sitesIn_filter m.cells (· ≠ l)]
  by_cases h : k = l <;> simp [h]

theorem sitesAt_merge (m n : MemOrigins) (l : Location) :
    (m.merge n).sitesAt l = OrderedSet.union (m.sitesAt l) (n.sitesAt l) := by
  unfold sitesAt
  rw [cells_merge, sitesIn_union]

theorem sitesAt_erase (hl : place.location? = some l) :
    (m.erase place).sitesAt k = if k = l then [] else m.sitesAt k := by
  unfold sitesAt
  rw [cells_erase hl, sitesIn_filter m.cells (· ≠ l)]
  by_cases h : k = l <;> simp [h]

theorem sitesAt_eraseBase (m : MemOrigins) (r : Register) (l : Location) :
    (m.eraseBase r).sitesAt l = if l.base = r then [] else m.sitesAt l := by
  unfold sitesAt
  rw [cells_eraseBase, sitesIn_filter m.cells (·.base ≠ r)]
  by_cases h : l.base = r <;> simp [h]

/-- Two places with the same location are one key of the map, and nothing else is changed. -/
theorem origins_of_sitesAt (change : MemOrigins → MemOrigins) (new : List Site → List Site)
    (hplaced : ∀ l, place.location? = some l → ∀ k,
      (change m).sitesAt k = if k = l then new (m.sitesAt k) else m.sitesAt k)
    (hunplaced : place.location? = none → (change m).cells = m.cells) (q : Value) :
    (change m).origins q =
      if q.sameLocation place = true then new (m.origins q) else m.origins q := by
  cases hq : q.location? with
  | none => simp [origins_of_none hq, Value.sameLocation, hq]
  | some k =>
      rw [origins_of_some hq, origins_of_some hq]
      cases hplace : place.location? with
      | none => simp [sitesAt, hunplaced hplace, Value.sameLocation, hq, hplace]
      | some l => simp [hplaced l hplace, Value.sameLocation, hq, hplace]

/-- A place without a location has no stores to erase. -/
theorem erase_of_none (hplace : place.location? = none) : m.erase place = m := by
  obtain ⟨stores⟩ := m
  unfold erase
  rw [List.filter_eq_self.mpr fun s _ => by simp [Value.sameLocation, hplace]]

theorem origins_add (m : MemOrigins) (place : Value) (o : Site) (q : Value) :
    (m.add place o).origins q =
      if q.sameLocation place = true then OrderedSet.insert (m.origins q) o else m.origins q :=
  origins_of_sitesAt (·.add place o) (OrderedSet.insert · o) (fun _ hl _ => sitesAt_add hl)
    cells_add_of_none q

theorem origins_set (m : MemOrigins) (place : Value) (o : Site) (q : Value) :
    (m.set place o).origins q = if q.sameLocation place = true then [o] else m.origins q := by
  refine origins_of_sitesAt (·.set place o) (fun _ => [o]) (fun _ hl _ => sitesAt_set hl)
    (fun hplace => ?_) q
  dsimp only [set]
  rw [erase_of_none hplace, cells_add_of_none hplace]

theorem origins_erase (m : MemOrigins) (place q : Value) :
    (m.erase place).origins q = if q.sameLocation place = true then [] else m.origins q :=
  origins_of_sitesAt (·.erase place) (fun _ => []) (fun _ hl _ => sitesAt_erase hl)
    (fun hplace => by rw [erase_of_none hplace]) q

theorem origins_merge (m n : MemOrigins) (q : Value) :
    (m.merge n).origins q = OrderedSet.union (m.origins q) (n.origins q) := by
  cases hq : q.location? with
  | none => simp [origins_of_none hq, OrderedSet.union_nil]
  | some l => rw [origins_of_some hq, origins_of_some hq, origins_of_some hq, sitesAt_merge]

theorem origins_eraseBase (m : MemOrigins) (r : Register) (q : Value) :
    (m.eraseBase r).origins q = if q.baseRegister? = some r then [] else m.origins q := by
  cases hq : q.location? with
  | none => simp [origins_of_none hq]
  | some l => simp [origins_of_some hq, sitesAt_eraseBase, Value.baseRegister?, hq]

theorem covers_iff (m : MemOrigins) (q : Value) : m.covers q = true ↔ m.origins q ≠ [] := by
  simp [covers, origins]

/-! ## Lists that can be made -/

/-- The lists that can be made from the empty one, which is also what clearing a list leaves. -/
inductive Reached : MemOrigins → Prop where
  | empty : Reached .empty
  | set {m : MemOrigins} (place : Value) (o : Site) : Reached m → Reached (m.set place o)
  | add {m : MemOrigins} (place : Value) (o : Site) : Reached m → Reached (m.add place o)
  | addIfCovered {m : MemOrigins} (place : Value) (o : Site) :
      Reached m → Reached (m.addIfCovered place o)
  | merge {m n : MemOrigins} : Reached m → Reached n → Reached (m.merge n)
  | erase {m : MemOrigins} (place : Value) : Reached m → Reached (m.erase place)
  | eraseBase {m : MemOrigins} (r : Register) : Reached m → Reached (m.eraseBase r)

/-- No store is listed twice, under one tree or under two trees with the same location. -/
def Unrepeated (m : MemOrigins) : Prop :=
  m.stores.Pairwise fun a b =>
    ¬ (a.origin = b.origin ∧ (a.place = b.place ∨ a.place.sameLocation b.place = true))

theorem Unrepeated.add (h : m.Unrepeated) (place : Value) (o : Site) :
    (m.add place o).Unrepeated :=
  pairwise_add h fun _ _ hnot => hnot

theorem Unrepeated.filter (h : m.Unrepeated) (keep : StoreOrigin → Bool) :
    Unrepeated ⟨m.stores.filter keep⟩ :=
  List.Pairwise.filter keep h

theorem Unrepeated.merge (h : m.Unrepeated) (n : MemOrigins) : (m.merge n).Unrepeated := by
  unfold MemOrigins.merge
  induction n.stores generalizing m with
  | nil => exact h
  | cons s rest ih => exact ih (h.add s.place s.origin)

/-- **Every list that can be made is without repetitions.** -/
theorem Reached.unrepeated (h : m.Reached) : m.Unrepeated := by
  induction h with
  | empty => exact List.Pairwise.nil
  | set place o _ ih => exact (ih.filter _).add place o
  | add place o _ ih => exact ih.add place o
  | addIfCovered place o _ ih =>
      unfold MemOrigins.addIfCovered
      split
      · exact ih.add place o
      · exact ih
  | merge _ _ ih _ => exact ih.merge _
  | erase place _ ih => exact ih.filter _
  | eraseBase r _ ih => exact ih.filter _

theorem Unrepeated.nodup_origins (h : m.Unrepeated) (q : Value) : (m.origins q).Nodup := by
  unfold origins
  rw [List.Nodup, List.pairwise_map]
  refine (h.filter _).imp_of_mem fun {a b} ha hb hne horigin => hne ⟨horigin, Or.inr ?_⟩
  -- both are to the location of `q`
  obtain ⟨l, hal, hql⟩ := sameLocation_iff.mp (List.mem_filter.mp ha).2
  obtain ⟨k, hbk, hqk⟩ := sameLocation_iff.mp (List.mem_filter.mp hb).2
  obtain rfl : l = k := Option.some.inj (hql.symm.trans hqk)
  exact sameLocation_iff.mpr ⟨l, hal, hbk⟩

/-! ## The laws -/

/-- The list `m` is a map from locations to sets of sites in order of discovery: this is what
each operation does to every lookup. -/
structure IsMap (m : MemOrigins) : Prop where
  unrepeated : m.Unrepeated
  nodup : ∀ q, (m.origins q).Nodup
  /-- A lookup depends on the location of the place alone. -/
  lookup : ∀ q, m.origins q = (q.location?.map m.sitesAt).getD []
  set : ∀ place o q, (m.set place o).origins q =
    if q.sameLocation place = true then [o] else m.origins q
  add : ∀ place o q, (m.add place o).origins q =
    if q.sameLocation place = true ∧ o ∉ m.origins q then m.origins q ++ [o] else m.origins q
  /-- A conditional addition takes place exactly if there is a store at the place already. -/
  covers : ∀ place, m.covers place = true ↔ m.origins place ≠ []
  addIfCovered : ∀ place o, m.addIfCovered place o =
    if m.origins place ≠ [] then m.add place o else m
  /-- What is merged in goes to the end, but for what is there already. -/
  merge : ∀ n, n.Reached → ∀ q, (m.merge n).origins q =
    m.origins q ++ (n.origins q).filter (· ∉ m.origins q)
  erase : ∀ place q, (m.erase place).origins q =
    if q.sameLocation place = true then [] else m.origins q
  /-- The width that the base is read with does not matter. -/
  eraseBase : ∀ r q, (m.eraseBase r).origins q =
    if q.baseRegister? = some r then [] else m.origins q
  countBase : ∀ r, m.countBase r = (m.stores.filter (·.place.baseRegister? = some r)).length
  /-- No operation at a place without a location shows in a lookup. -/
  unplaced : ∀ place, place.location? = none → ∀ o q,
    (m.set place o).origins q = m.origins q ∧ (m.add place o).origins q = m.origins q ∧
      (m.addIfCovered place o).origins q = m.origins q ∧ (m.erase place).origins q = m.origins q

theorem countBase_eq (m : MemOrigins) (r : Register) :
    m.countBase r = (m.stores.filter (·.place.baseRegister? = some r)).length := by
  unfold countBase eraseBase size
  rw [List.length_eq_length_filter_add (·.place.baseRegister? = some r)]
  simp

/-- **Lists of stores are maps from locations**, after any operations in any order, with any
places, with a location or without. -/
theorem reached_isMap (hm : m.Reached) : m.IsMap where
  unrepeated := hm.unrepeated
  nodup := hm.unrepeated.nodup_origins
  lookup := origins_eq m
  set := origins_set m
  add place o q := by
    rw [origins_add]
    unfold OrderedSet.insert
    by_cases hq : q.sameLocation place = true <;> by_cases ho : o ∈ m.origins q <;> simp [hq, ho]
  covers := covers_iff m
  addIfCovered place o := by
    unfold MemOrigins.addIfCovered
    simp only [covers_iff]
  merge n hn q := by
    rw [origins_merge, OrderedSet.union_eq,
      OrderedSet.ofList_of_nodup ((hn.unrepeated.nodup_origins q).filter _)]
  erase := origins_erase m
  eraseBase := origins_eraseBase m
  countBase := countBase_eq m
  unplaced place hplace o q := by
    have hq : q.sameLocation place = false := by simp [Value.sameLocation, hplace]
    have hcovers : ¬ m.covers place = true := by
      rw [covers_iff, origins_of_none hplace]
      exact fun h => h rfl
    refine ⟨?_, ?_, ?_, ?_⟩
    · simp [origins_set, hq]
    · simp [origins_add, hq]
    · unfold MemOrigins.addIfCovered
      rw [if_neg hcovers]
    · rw [erase_of_none hplace]

/-- Two stores to `[x1, #8]` under different trees, between them one to an address without a
location, which was to be entered twice. -/
def aliased : MemOrigins :=
  (((empty.add (.binary .add (.reg ⟨1⟩ 8) (.const 8)) ⟨0, 0⟩).add
    (.binary .add (.reg ⟨1⟩ 8) (.reg ⟨2⟩ 8)) ⟨0, 1⟩).set
    (.binary .add (.reg ⟨1⟩ 8) (.reg ⟨2⟩ 8)) ⟨0, 1⟩).addIfCovered
    (.binary .add (.const 8) (.reg ⟨1⟩ 8)) ⟨0, 2⟩

/-- Both stores are found under a third tree, and dropped together with their base. The one
without a location stays, and is never found. -/
theorem reached_isMap_aliased :
    aliased.Reached ∧ aliased.IsMap ∧ aliased.size = 3 ∧
      aliased.origins (.binary .sub (.reg ⟨1⟩ 8) (.const (-8))) = [⟨0, 0⟩, ⟨0, 2⟩] ∧
      aliased.origins (.binary .add (.reg ⟨1⟩ 8) (.reg ⟨2⟩ 8)) = [] ∧
      aliased.countBase ⟨1⟩ = 2 ∧ (aliased.eraseBase ⟨1⟩).size = 1 := by
  have haliased : aliased.Reached := .addIfCovered _ _ (.set _ _ (.add _ _ (.add _ _ .empty)))
  exact ⟨haliased, reached_isMap haliased, by decide, by decide, by decide, by decide, by decide⟩

end MemOrigins

end ReachingDefs
