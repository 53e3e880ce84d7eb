import ReachingDefs.Proofs.Point
import ReachingDefs.UseChain

/-!
# Chains turn the records around

A use of what `d` wrote is a register, in some record, with `d` among its origins.
`UseChains.mem_uses` says that the chains of some facts list exactly these, so all that is
known about the records is known about the chains.

The chains are a map that is filled use by use. Read off, it is no more than the list of all
links between a site and a use of it, in the order in which they are found, each listed once:
`UseChains.uses_eq`, `UseChains.defs_eq`.
-/

namespace ReachingDefs

/-! ## Links -/

/-- The uses in a table of origins, each behind the site it comes from. -/
def RegTable.links (t : RegOrigins) (site : Site) (kind : UseKind) : List (Site × Use) :=
  t.entries.flatMap fun e => e.2.map fun o => (o, ⟨site, e.1, kind⟩)

/-- The uses in a record, registers before memory. -/
def Record.links (x : Record) : List (Site × Use) :=
  x.refs.links x.site .register ++
    (x.mem.map fun m => m.refs.links x.site .memory).getD []

/-- The uses in all records, by block and position. -/
def Facts.links (f : Facts) : List (Site × Use) := f.records.flatMap (·.links)

theorem RegTable.mem_links {t : RegOrigins} {site d : Site} {kind : UseKind} {u : Use} :
    (d, u) ∈ t.links site kind ↔ u.site = site ∧ u.kind = kind ∧ d ∈ t.origins u.reg := by
  unfold links
  rw [List.mem_flatMap]
  constructor
  · rintro ⟨⟨r, os⟩, he, hlink⟩
    obtain ⟨o, ho, heq⟩ := List.mem_map.mp hlink
    obtain ⟨rfl, rfl⟩ := Prod.mk.inj heq
    have hget : t.get? r = some os := (get?_eq_some_iff t).mpr he
    refine ⟨rfl, rfl, ?_⟩
    unfold origins
    rw [hget]
    exact ho
  · rintro ⟨rfl, rfl, hd⟩
    unfold origins at hd
    cases hget : t.get? u.reg with
    | none => simp [hget] at hd
    | some os =>
        rw [hget, Option.getD_some] at hd
        exact ⟨(u.reg, os), (get?_eq_some_iff t).mp hget, List.mem_map.mpr ⟨d, hd, rfl⟩⟩

/-- The uses in a record are its registers, those that are read and those that are loaded,
with their origins. -/
theorem Record.mem_links {x : Record} {d : Site} {u : Use} :
    (d, u) ∈ x.links ↔ u.site = x.site ∧ (u.kind = .register ∧ d ∈ x.refs.origins u.reg ∨
      u.kind = .memory ∧ d ∈ x.memOrigins u.reg) := by
  have hmem : (d, u) ∈ (x.mem.map fun m => m.refs.links x.site .memory).getD [] ↔
      u.site = x.site ∧ u.kind = .memory ∧ d ∈ x.memOrigins u.reg := by
    cases hm : x.mem with
    | none => simp [memOrigins, memRef?, hm]
    | some m =>
        rw [Option.map_some, Option.getD_some, RegTable.mem_links, memOrigins_of_mem hm]
  unfold links
  rw [List.mem_append, RegTable.mem_links, hmem, ← and_or_left]

theorem Facts.mem_records {f : Facts} {x : Record} :
    x ∈ f.records ↔ ∃ o, f.record? o = some x := by
  have hslots : ∀ slots : List (Option Record),
      x ∈ slots.filterMap id ↔ ∃ j : Nat, slots[j]?.join = some x := by
    intro slots
    rw [List.mem_filterMap]
    simp [List.mem_iff_getElem?, Option.join_eq_some_iff]
  unfold records record? block
  rw [List.mem_flatMap]
  simp only [Array.getD_eq_getD_getElem?, ← Array.getElem?_toList]
  constructor
  · rintro ⟨y, hy, hx⟩
    obtain ⟨b, hb⟩ := List.mem_iff_getElem?.mp hy
    obtain ⟨j, hj⟩ := (hslots _).mp hx
    refine ⟨⟨b, j⟩, ?_⟩
    rw [hb]
    exact hj
  · rintro ⟨⟨b, j⟩, hx⟩
    cases hb : f.blocks.toList[b]? with
    | none => simp [hb] at hx
    | some y =>
        rw [hb] at hx
        exact ⟨y, List.mem_of_getElem? hb, (hslots _).mpr ⟨j, hx⟩⟩

/-! ## The map of uses -/

namespace UseChains

theorem uses_push (c : UseChains) (d e : Site) (u : Use) :
    (c.push d u).uses e = if e = d then OrderedSet.insert (c.uses d) u else c.uses e := by
  obtain ⟨entries⟩ := c
  unfold uses push
  dsimp only
  induction entries with
  | nil => by_cases h : e = d <;> simp [push.go, OrderedSet.insert, h, eq_comm]
  | cons entry entries ih =>
      obtain ⟨a, us⟩ := entry
      unfold push.go
      by_cases ha : a = d
      · subst ha
        by_cases h : e = a
        · simp [h]
        · simp [h, Ne.symm h]
      · by_cases he : a = e
        · subst he
          simp [ha]
        · simp [ha, he, ih]

theorem defs_push (c : UseChains) (d : Site) (u : Use) :
    (c.push d u).defs = OrderedSet.insert c.defs d := by
  obtain ⟨entries⟩ := c
  unfold defs push
  dsimp only
  induction entries with
  | nil => rfl
  | cons entry entries ih =>
      obtain ⟨a, us⟩ := entry
      by_cases ha : a = d
      · simp [push.go, OrderedSet.insert, ha]
      · rw [push.go, if_neg ha, List.map_cons, ih]
        unfold OrderedSet.insert
        simp only [List.map_cons, List.mem_cons, Ne.symm ha, false_or]
        split <;> rfl

/-- Links are noted one after another. -/
def pushLinks (c : UseChains) (links : List (Site × Use)) : UseChains :=
  links.foldl (fun c l => c.push l.1 l.2) c

theorem pushOrigins_eq (c : UseChains) (site : Site) (kind : UseKind) (t : RegOrigins) :
    c.pushOrigins site kind t = c.pushLinks (t.links site kind) := by
  unfold pushOrigins pushLinks RegTable.links
  rw [List.foldl_flatMap]
  simp only [List.foldl_map]

theorem pushRecord_eq (c : UseChains) (x : Record) : c.pushRecord x = c.pushLinks x.links := by
  unfold pushRecord Record.links
  cases x.mem with
  | none =>
      rw [Option.map_none, Option.getD_none, List.append_nil]
      exact pushOrigins_eq ..
  | some m =>
      rw [Option.map_some, Option.getD_some]
      unfold pushLinks
      rw [List.foldl_append]
      dsimp only
      rw [pushOrigins_eq, pushOrigins_eq]
      rfl

theorem ofFacts_eq (f : Facts) : ofFacts f = pushLinks {} f.links := by
  unfold ofFacts Facts.links pushLinks
  rw [List.foldl_flatMap]
  exact congrArg (fun h => List.foldl h _ _) (funext fun c => funext fun x => pushRecord_eq c x)

theorem uses_pushLinks (c : UseChains) (links : List (Site × Use)) (d : Site) :
    (c.pushLinks links).uses d =
      OrderedSet.union (c.uses d) ((links.filter (·.1 = d)).map (·.2)) := by
  induction links generalizing c with
  | nil => rfl
  | cons l links ih =>
      refine (ih (c.push l.1 l.2)).trans ?_
      rw [uses_push]
      by_cases h : d = l.1
      · rw [if_pos h, h, List.filter_cons_of_pos (by simp)]
        rfl
      · rw [if_neg h, List.filter_cons_of_neg (by simpa using Ne.symm h)]

theorem defs_pushLinks (c : UseChains) (links : List (Site × Use)) :
    (c.pushLinks links).defs = OrderedSet.union c.defs (links.map (·.1)) := by
  induction links generalizing c with
  | nil => rfl
  | cons l links ih =>
      refine (ih (c.push l.1 l.2)).trans ?_
      rw [defs_push]
      rfl

/-- **The uses of a site are the links from it, each where it was found first.** -/
theorem uses_eq (f : Facts) (d : Site) :
    (ofFacts f).uses d = OrderedSet.ofList ((f.links.filter (·.1 = d)).map (·.2)) := by
  rw [ofFacts_eq, uses_pushLinks]
  rfl

/-- **The definitions are the sites with a link, each where it was found first.** -/
theorem defs_eq (f : Facts) : (ofFacts f).defs = OrderedSet.ofList (f.links.map (·.1)) := by
  rw [ofFacts_eq, defs_pushLinks]
  rfl

theorem size_eq (f : Facts) :
    (ofFacts f).size = (OrderedSet.ofList (f.links.map (·.1))).length := by
  rw [← defs_eq, defs, List.length_map]
  rfl

end UseChains

/-- **The uses of what `d` wrote** are those in the records. -/
theorem UseChains.mem_uses {f : Facts} {d : Site} {u : Use} :
    u ∈ (ofFacts f).uses d ↔ ∃ o x, f.record? o = some x ∧ (d, u) ∈ x.links := by
  rw [uses_eq, OrderedSet.mem_ofList, Facts.links]
  simp only [List.mem_map, List.mem_filter, List.mem_flatMap, Facts.mem_records, decide_eq_true_eq]
  constructor
  · rintro ⟨⟨_, _⟩, ⟨⟨x, ⟨o, hx⟩, hlink⟩, rfl⟩, rfl⟩
    exact ⟨o, x, hx, hlink⟩
  · rintro ⟨o, x, hx, hlink⟩
    exact ⟨(d, u), ⟨⟨x, ⟨o, hx⟩, hlink⟩, rfl⟩, rfl⟩

/-- Something that `d` wrote is used if some record has `d` among its origins. -/
theorem UseChains.isUsed_iff {f : Facts} {d : Site} :
    (ofFacts f).isUsed d = true ↔ ∃ q x r, f.record? q = some x ∧
      (d ∈ x.refs.origins r ∨ d ∈ x.memOrigins r) := by
  unfold isUsed
  rw [Bool.not_eq_true', List.isEmpty_eq_false_iff_exists_mem]
  simp only [mem_uses, Record.mem_links]
  constructor
  · rintro ⟨u, q, x, hx, _, h⟩
    exact ⟨q, x, u.reg, hx, h.imp And.right And.right⟩
  · rintro ⟨q, x, r, hx, h | h⟩
    · exact ⟨⟨x.site, r, .register⟩, q, x, hx, rfl, .inl ⟨rfl, h⟩⟩
    · exact ⟨⟨x.site, r, .memory⟩, q, x, hx, rfl, .inr ⟨rfl, h⟩⟩

end ReachingDefs
