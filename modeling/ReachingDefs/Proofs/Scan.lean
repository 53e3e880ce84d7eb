import Mathlib.Data.Set.Card
import ReachingDefs.Proofs.Chains
import ReachingDefs.Proofs.Listing
import ReachingDefs.Proofs.Passes

/-!
# Chains are the records turned around

The chains are made in one scan of the records: block by block and position by position,
in each record the registers that were read before those that were loaded, and each kind by
ascending register. A site becomes a definition when its first use is found.

Both the uses of one definition and the definitions themselves are listed in the order of
that scan. `Facts.scan` writes it down once, one entry for every register that a record
notes origins for. The entries are strictly ascending, so the uses of a site are just the
entries that name it, and which of two sites comes first is settled by the first entry
that names one of them.

All this asks of the facts is that every record stands in the slot of its own site, as it
does in all facts that can be made (`Facts.Made.placed`). The origins may be any sites, also
such as have no record.
-/

namespace ReachingDefs

/-! ## Which of two comes first -/

namespace OrderedSet

variable {α : Type} [DecidableEq α] {a b : α}

theorem first_ofList (l : List α) : first a b (ofList l) = first a b l := by
  rw [ofList, first_union]
  rfl

/-- In a list without repetitions, everything comes before what stands behind it. -/
theorem pairwise_first {l : List α} (h : l.Nodup) : l.Pairwise fun a b => first a b l = some a := by
  induction l with
  | nil => exact .nil
  | cons x l ih =>
      obtain ⟨hx, hl⟩ := List.nodup_cons.mp h
      refine List.pairwise_cons.mpr ⟨fun b _ => by simp [first_cons], ?_⟩
      refine (ih hl).imp_of_mem fun {a b} ha hb hab => ?_
      have hne : ¬ (x = a ∨ x = b) := by
        rintro (rfl | rfl)
        · exact hx ha
        · exact hx hb
      rw [first_cons, if_neg hne, hab]

end OrderedSet

open OrderedSet

/-! ## The facts that can be made -/

namespace Facts

variable {f : Facts}

/-- The facts that can be made, from none, by single steps and by analyses of any graphs. -/
inductive Made : Facts → Prop where
  | fresh (g : FlowGraph) (tracking : Tracking) : Made (.fresh g tracking)
  | enter {f : Facts} (b : BlockId) : Made f → Made (f.enter b).facts
  | join {f : Facts} (b : BlockId) (bs : List BlockId) : Made f → Made (f.join b bs).facts
  | onCurrent {f : Facts} (change : Exposed → Exposed) : Made f → Made (f.onCurrent change)
  | dropBase {f : Facts} (r : Register) : Made f → Made (f.dropBase r).1
  | linkReg {f : Facts} (o : Site) (r : Register) : Made f → Made (f.linkReg o r)
  | linkMem {f : Facts} (o : Site) (r : Register) (place : Value) :
      Made f → Made (f.linkMem o r place).1
  | analyze {f : Facts} (s : Settings) (g : FlowGraph) (order : List (List BlockId)) :
      Made f → Made (f.analyze s g order).facts

/-- **In all facts that can be made, every record stands in the slot of its own site.** -/
theorem Made.placed (hf : f.Made) : f.Placed := by
  induction hf with
  | fresh g tracking =>
      intro o x hx
      rw [record?_fresh] at hx
      cases hx
  | enter b _ ih => exact placed_visitClosed.enter b ih
  | join b bs _ ih => exact placed_visitClosed.join b bs ih
  | onCurrent change _ ih => exact ih.onCurrent change
  | dropBase r _ ih => exact ih.dropBase r
  | linkReg o r _ ih =>
      unfold Facts.linkReg
      split
      · exact ih.onRecord o fun x => x.head_linkReg ..
      · exact ih
  | linkMem o r place _ ih =>
      unfold Facts.linkMem
      split
      · exact ih.onRecord o fun x => x.head_linkMem ..
      · exact ih
  | analyze s g order _ ih => exact placed_visitClosed.analyze ih s g order

end Facts

/-! ## In the order of the scan -/

/-- By block, and within a block by position. -/
def Site.Before (a b : Site) : Prop :=
  a.block < b.block ∨ a.block = b.block ∧ a.index < b.index

/-- By site; at one site registers before memory, and then by register. -/
def Use.Before (u v : Use) : Prop :=
  u.site.Before v.site ∨ u.site = v.site ∧
    (u.kind = .register ∧ v.kind = .memory ∨ u.kind = v.kind ∧ u.reg < v.reg)

theorem Use.Before.ne {u v : Use} (h : u.Before v) : u ≠ v := by
  rintro rfl
  simp only [Use.Before, Site.Before, Register.lt_iff] at h
  grind

/-- The origins that a record notes for a register, as one that is read or one that is
loaded. -/
def Record.originsFor? (x : Record) : UseKind → Register → Option (List Site)
  | .register, r => x.refs.get? r
  | .memory, r => x.memRef? r

namespace Facts

variable {f : Facts}

/-- **Records are listed by ascending site.** -/
theorem Placed.records_ascending (hf : f.Placed) :
    f.records.Pairwise fun x y => x.site.Before y.site := by
  have hblock : ∀ {b : Nat} {y : BlockFacts} {x : Record}, f.blocks[b]? = some y →
      x ∈ y.slots.filterMap id → x.site.block = b := by
    intro b y x hy hx
    obtain ⟨slot, hslot, rfl⟩ := List.mem_filterMap.mp hx
    obtain ⟨j, hj⟩ := List.mem_iff_getElem?.mp hslot
    rw [hf.site_eq hy hj]
  unfold records
  rw [List.pairwise_flatMap]
  constructor
  · -- in one block, by position
    intro y hy
    obtain ⟨b, hb⟩ := List.mem_iff_getElem?.mp hy
    rw [Array.getElem?_toList] at hb
    rw [List.pairwise_filterMap, List.pairwise_iff_getElem]
    intro i j hi hj hlt x hx z hz
    have hxs := hf.site_eq hb ((List.getElem?_eq_getElem hi).trans (congrArg some hx))
    have hzs := hf.site_eq hb ((List.getElem?_eq_getElem hj).trans (congrArg some hz))
    rw [hxs, hzs]
    exact Or.inr ⟨rfl, hlt⟩
  · -- in two blocks, by block
    rw [List.pairwise_iff_getElem]
    intro b c hb hc hlt x hx z hz
    have hxb := hblock ((Array.getElem?_toList).symm.trans (List.getElem?_eq_getElem hb)) hx
    have hzc := hblock ((Array.getElem?_toList).symm.trans (List.getElem?_eq_getElem hc)) hz
    exact Or.inl (hxb ▸ hzc ▸ hlt)

end Facts

/-! ## The scan -/

/-- The entries of a table of origins, as uses at one site. -/
def RegTable.scan (t : RegOrigins) (site : Site) (kind : UseKind) : List (Use × List Site) :=
  t.entries.map fun e => (⟨site, e.1, kind⟩, e.2)

/-- What the scan finds in a record. -/
def Record.scan (x : Record) : List (Use × List Site) :=
  x.refs.scan x.site .register ++ (x.mem.map fun m => m.refs.scan x.site .memory).getD []

/-- What the scan finds, in order: every register that a record notes origins for. -/
def Facts.scan (f : Facts) : List (Use × List Site) := f.records.flatMap (·.scan)

theorem RegTable.mem_scan {t : RegOrigins} {site : Site} {kind : UseKind} {u : Use}
    {os : List Site} :
    (u, os) ∈ t.scan site kind ↔ u.site = site ∧ u.kind = kind ∧ t.get? u.reg = some os := by
  unfold scan
  rw [List.mem_map, get?_eq_some_iff]
  constructor
  · rintro ⟨e, he, heq⟩
    obtain ⟨rfl, rfl⟩ := Prod.mk.inj heq
    exact ⟨rfl, rfl, he⟩
  · rintro ⟨rfl, rfl, he⟩
    exact ⟨_, he, rfl⟩

theorem RegTable.scan_ascending (t : RegOrigins) (site : Site) (kind : UseKind) :
    (t.scan site kind).Pairwise fun a b => a.1.Before b.1 := by
  unfold scan
  rw [List.pairwise_map]
  exact t.sorted.imp fun h => Or.inr ⟨rfl, Or.inr ⟨rfl, h⟩⟩

namespace Record

variable {x : Record}

theorem mem_scan {u : Use} {os : List Site} :
    (u, os) ∈ x.scan ↔ u.site = x.site ∧ x.originsFor? u.kind u.reg = some os := by
  have hmem : (u, os) ∈ (x.mem.map fun m => m.refs.scan x.site .memory).getD [] ↔
      u.site = x.site ∧ u.kind = .memory ∧ x.memRef? u.reg = some os := by
    unfold memRef?
    cases x.mem with
    | none => simp
    | some m => exact RegTable.mem_scan
  unfold scan
  rw [List.mem_append, RegTable.mem_scan, hmem, ← and_or_left]
  cases u.kind <;> simp [originsFor?]

theorem scan_ascending (x : Record) : x.scan.Pairwise fun a b => a.1.Before b.1 := by
  unfold scan
  refine List.pairwise_append.mpr ⟨RegTable.scan_ascending .., ?_, ?_⟩
  · cases x.mem with
    | none => exact .nil
    | some m => exact RegTable.scan_ascending ..
  · -- registers stand before memory
    rintro ⟨u, _⟩ hu ⟨v, _⟩ hv
    obtain ⟨hus, huk, _⟩ := RegTable.mem_scan.mp hu
    cases hm : x.mem with
    | none => simp [hm] at hv
    | some m =>
        rw [hm] at hv
        obtain ⟨hvs, hvk, _⟩ := RegTable.mem_scan.mp hv
        exact Or.inr ⟨hus.trans hvs.symm, Or.inl ⟨huk, hvk⟩⟩

theorem links_eq (x : Record) : x.links = x.scan.flatMap fun e => e.2.map fun o => (o, e.1) := by
  have htable : ∀ (t : RegOrigins) (kind : UseKind),
      t.links x.site kind = (t.scan x.site kind).flatMap fun e => e.2.map fun o => (o, e.1) := by
    intro t kind
    unfold RegTable.links RegTable.scan
    rw [List.flatMap_map]
  unfold links scan
  rw [List.flatMap_append, htable]
  cases x.mem with
  | none => rfl
  | some m => exact congrArg _ (htable m.refs .memory)

end Record

namespace Facts

variable {f : Facts}

theorem Placed.mem_scan (hf : f.Placed) {u : Use} {os : List Site} :
    (u, os) ∈ f.scan ↔
      ∃ x, f.record? u.site = some x ∧ x.originsFor? u.kind u.reg = some os := by
  unfold scan
  rw [List.mem_flatMap]
  constructor
  · rintro ⟨x, hx, hu⟩
    obtain ⟨o, ho⟩ := mem_records.mp hx
    obtain ⟨hsite, horigins⟩ := Record.mem_scan.mp hu
    rw [hf o x ho] at hsite
    exact ⟨x, hsite ▸ ho, horigins⟩
  · rintro ⟨x, hx, horigins⟩
    exact ⟨x, mem_records.mpr ⟨_, hx⟩, Record.mem_scan.mpr ⟨(hf _ x hx).symm, horigins⟩⟩

/-- **The scan ascends strictly**: it comes to no use twice. -/
theorem Placed.scan_ascending (hf : f.Placed) : f.scan.Pairwise fun a b => a.1.Before b.1 := by
  unfold scan
  refine List.pairwise_flatMap.mpr ⟨fun x _ => x.scan_ascending, ?_⟩
  refine hf.records_ascending.imp fun h => ?_
  rintro ⟨u, _⟩ hu ⟨v, _⟩ hv
  refine Or.inl ?_
  rw [(Record.mem_scan.mp hu).1, (Record.mem_scan.mp hv).1]
  exact h

theorem links_eq (f : Facts) :
    f.links = f.scan.flatMap fun e => e.2.map fun o => (o, e.1) := by
  unfold links scan
  simp only [Record.links_eq, List.flatMap_assoc]

end Facts

/-! ## What the scan leaves behind -/

/-- The uses found for `d`, in order. -/
def usesIn (entries : List (Use × List Site)) (d : Site) : List Use :=
  (entries.filter (d ∈ ·.2)).map (·.1)

theorem mem_usesIn {entries : List (Use × List Site)} {d : Site} {u : Use} :
    u ∈ usesIn entries d ↔ ∃ os, (u, os) ∈ entries ∧ d ∈ os := by
  unfold usesIn
  simp

theorem usesIn_cons (u : Use) (os : List Site) (entries : List (Use × List Site)) (d : Site) :
    usesIn ((u, os) :: entries) d = if d ∈ os then u :: usesIn entries d else usesIn entries d := by
  unfold usesIn
  by_cases h : d ∈ os <;> simp [h]

/-- An entry that lists a site more than once still makes one use of it. -/
theorem first_repeated {u v w : Use} {os : List Site} {d : Site} :
    first v w (((os.map fun o => (o, u)).filter (·.1 = d)).map (·.2)) =
      first v w (if d ∈ os then [u] else []) := by
  induction os with
  | nil => rfl
  | cons o os ih =>
      by_cases h : o = d
      · subst h
        simp only [List.map_cons, decide_true, List.filter_cons_of_pos, List.mem_cons, true_or,
          if_true, first_cons]
        split
        · rfl
        · rename_i hu
          rw [ih]
          split <;> simp [first, hu]
      · simp only [List.map_cons, List.mem_cons, Ne.symm h, false_or, ← ih]
        rw [List.filter_cons_of_neg (by simpa using h)]

/-- What is collected for `d` link by link are the entries that name `d`. -/
theorem ofList_links {entries : List (Use × List Site)}
    (h : entries.Pairwise fun a b => a.1.Before b.1) (d : Site) :
    ofList (((entries.flatMap fun e => e.2.map fun o => (o, e.1)).filter (·.1 = d)).map (·.2)) =
      usesIn entries d := by
  have hnodup : (usesIn entries d).Nodup := by
    unfold usesIn
    rw [List.Nodup, List.pairwise_map]
    exact (h.filter _).imp Use.Before.ne
  refine eq_of_first (nodup_ofList _) hnodup fun v w => ?_
  rw [first_ofList]
  clear h hnodup
  induction entries with
  | nil => rfl
  | cons e entries ih =>
      obtain ⟨u, os⟩ := e
      rw [List.flatMap_cons, List.filter_append, List.map_append, first_append, first_repeated,
        usesIn_cons, ih, ← first_append]
      split <;> rfl

/-- **The first entry that names one of two sites tells which of them is found first.** The
two may stand in that entry both, and then its list tells. -/
theorem first_found {entries : List (Use × List Site)}
    (h : entries.Pairwise fun a b => a.1.Before b.1) {d e : Site} (hne : d ≠ e)
    (hfirst : first d e (entries.flatMap (·.2)) = some d) :
    ∃ u os, (usesIn entries d).head? = some u ∧ (u, os) ∈ entries ∧
      ∀ v, (usesIn entries e).head? = some v → u.Before v ∨ u = v ∧ first d e os = some d := by
  induction entries with
  | nil => simp [first] at hfirst
  | cons entry entries ih =>
      obtain ⟨u, os⟩ := entry
      obtain ⟨hu, hentries⟩ := List.pairwise_cons.mp h
      rw [List.flatMap_cons, first_append] at hfirst
      rw [usesIn_cons, usesIn_cons]
      cases hos : first d e os with
      | none =>
          rw [hos, Option.none_or] at hfirst
          obtain ⟨hd, he⟩ := first_eq_none.mp hos
          rw [if_neg hd, if_neg he]
          obtain ⟨v, os', hhead, hmem, hlater⟩ := ih hentries hfirst
          exact ⟨v, os', hhead, List.mem_cons_of_mem _ hmem, hlater⟩
      | some a =>
          rw [hos, Option.some_or] at hfirst
          obtain rfl : a = d := Option.some.inj hfirst
          have hd : a ∈ os := List.mem_of_find?_eq_some hos
          rw [if_pos hd]
          refine ⟨u, os, rfl, List.mem_cons_self, fun v hv => ?_⟩
          by_cases he : e ∈ os
          · rw [if_pos he, List.head?_cons] at hv
            exact Or.inr ⟨Option.some.inj hv, hos⟩
          · -- all that names `e` comes later
            rw [if_neg he] at hv
            obtain ⟨os', hmem, _⟩ := mem_usesIn.mp (List.mem_of_head? hv)
            exact Or.inl (hu _ hmem)

/-! ## The chains -/

/-- The chains `c` are the records of `f` turned around. -/
structure UseChains.Inverts (c : UseChains) (f : Facts) : Prop where
  /-- A use stands under the sites that its record notes as its origins, and no others. -/
  mem_uses : ∀ d u, u ∈ c.uses d ↔
    ∃ x os, f.record? u.site = some x ∧ x.originsFor? u.kind u.reg = some os ∧ d ∈ os
  nodup_uses : ∀ d, (c.uses d).Nodup
  uses_ascending : ∀ d, (c.uses d).Pairwise Use.Before
  /-- The definitions are the sites with a use. -/
  mem_defs : ∀ d, d ∈ c.defs ↔ c.uses d ≠ []
  isUsed : ∀ d, c.isUsed d = true ↔ c.uses d ≠ []
  nodup_defs : c.defs.Nodup
  size : c.size = Set.ncard {d | c.isUsed d = true}
  /-- Definitions are listed in the order of their first uses. Two with the same first use are
  listed as its record lists them. -/
  defs_in_order : c.defs.Pairwise fun d e => ∃ u v,
    (c.uses d).head? = some u ∧ (c.uses e).head? = some v ∧
      (u.Before v ∨ u = v ∧ ∃ x os, f.record? u.site = some x ∧
        x.originsFor? u.kind u.reg = some os ∧ first d e os = some d)

namespace UseChains

variable {f : Facts}

theorem uses_ofFacts (hf : f.Placed) (d : Site) : (ofFacts f).uses d = usesIn f.scan d := by
  rw [uses_eq, Facts.links_eq]
  exact ofList_links hf.scan_ascending d

theorem defs_ofFacts (f : Facts) : (ofFacts f).defs = ofList (f.scan.flatMap (·.2)) := by
  rw [defs_eq, Facts.links_eq, List.map_flatMap]
  simp [Function.comp_def]

theorem isUsed_iff_uses {c : UseChains} {d : Site} : c.isUsed d = true ↔ c.uses d ≠ [] := by
  simp [isUsed]

theorem mem_defs_iff {d : Site} : d ∈ (ofFacts f).defs ↔ (ofFacts f).uses d ≠ [] := by
  rw [defs_eq, uses_eq]
  simp [List.eq_nil_iff_forall_not_mem]

/-- **Chains are the exact inverse of the records**, whatever origins the records note. -/
theorem ofFacts_inverts (hf : f.Placed) : (ofFacts f).Inverts f := by
  have hmem : ∀ d u, u ∈ (ofFacts f).uses d ↔ ∃ x os, f.record? u.site = some x ∧
      x.originsFor? u.kind u.reg = some os ∧ d ∈ os := by
    intro d u
    rw [uses_ofFacts hf, mem_usesIn]
    simp only [hf.mem_scan]
    exact ⟨fun ⟨os, ⟨x, hx, hos⟩, hd⟩ => ⟨x, os, hx, hos, hd⟩,
      fun ⟨x, os, hx, hos, hd⟩ => ⟨os, ⟨x, hx, hos⟩, hd⟩⟩
  have hdefs : (ofFacts f).defs.Nodup := defs_eq f ▸ nodup_ofList _
  refine ⟨hmem, fun d => uses_eq f d ▸ nodup_ofList _, fun d => ?_, fun d => mem_defs_iff,
    fun d => isUsed_iff_uses, hdefs, ?_, ?_⟩
  · rw [uses_ofFacts hf, usesIn, List.pairwise_map]
    exact hf.scan_ascending.filter _
  · have hset : {d | (ofFacts f).isUsed d = true} = ↑(ofFacts f).defs.toFinset := by
      ext d
      simp [isUsed_iff_uses, mem_defs_iff]
    rw [hset, Set.ncard_coe_finset, List.toFinset_card_of_nodup hdefs, size_eq, ← defs_eq]
  · refine ((pairwise_first hdefs).and hdefs).imp_of_mem fun {d e} _ he hde => ?_
    obtain ⟨hfirst, hne⟩ := hde
    rw [defs_ofFacts, first_ofList] at hfirst
    obtain ⟨u, os, hu, hscan, hlater⟩ := first_found hf.scan_ascending hne hfirst
    rw [← uses_ofFacts hf] at hu hlater
    obtain ⟨v, hv⟩ : ∃ v, ((ofFacts f).uses e).head? = some v :=
      Option.isSome_iff_exists.mp (List.isSome_head?.mpr (mem_defs_iff.mp he))
    obtain ⟨x, hx, hos⟩ := hf.mem_scan.mp hscan
    exact ⟨u, v, hu, hv, (hlater v hv).imp_right fun h => ⟨h.1, x, os, hx, hos, h.2⟩⟩

/-- Two records of which the second notes the first as an origin, and in front of it a site
that nobody has visited. -/
def stray : Facts where
  tracking := .registersAndMemory
  blocks := #[{ slots := [
    some { site := ⟨0, 0⟩, address := 0x100, mem := some {} },
    some { site := ⟨0, 1⟩, address := 0x104, refs := RegTable.empty.insert ⟨1⟩ [⟨7, 7⟩, ⟨0, 0⟩],
           mem := some { refs := RegTable.empty.insert ⟨3⟩ [⟨0, 0⟩] } }] }]

theorem stray_placed : stray.Placed := by
  rintro ⟨b, j⟩ x hx
  match b, j, hx with
  | 0, 0, hx | 0, 1, hx =>
      obtain rfl := Option.some.inj hx
      rfl

/-- The site that nobody has visited has a chain like any other, and comes first. -/
theorem ofFacts_inverts_stray :
    stray.Placed ∧ (ofFacts stray).Inverts stray ∧ stray.record? ⟨7, 7⟩ = none ∧
      (ofFacts stray).defs = [⟨7, 7⟩, ⟨0, 0⟩] ∧
      (ofFacts stray).uses ⟨0, 0⟩ = [⟨⟨0, 1⟩, ⟨1⟩, .register⟩, ⟨⟨0, 1⟩, ⟨3⟩, .memory⟩] :=
  ⟨stray_placed, ofFacts_inverts stray_placed, by decide, by decide, by decide⟩

end UseChains

end ReachingDefs
