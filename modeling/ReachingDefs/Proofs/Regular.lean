import ReachingDefs.Proofs.Dead
import ReachingDefs.Proofs.Refusal
import ReachingDefs.Proofs.Representation
import ReachingDefs.Proofs.Scan

/-!
# Regular facts

What the tables of an analysis look like, whatever has been analysed: no register is listed
without origins or with one twice, the zero register is never listed, every store in memory
has a location relative to a 64-bit register, and no store is listed twice for one location.
Lookups count on all of this. A store without a location would never be found again, and one
that is listed twice would be reported twice.

Nothing of it is checked when facts are used. It holds because joins and single effects keep
it (`Exposed.Regular.merge`, `Point.Regular.apply`), so every visit of a block does, and every
analysis, also one that is stopped in the middle.
-/

namespace ReachingDefs

/-! ## Tables of origins -/

namespace RegTable

/-- Every entry of the table lists at least one origin, and none twice. -/
structure Tidy (t : RegOrigins) : Prop where
  noEmpty : t.NoEmpty
  nodup : ∀ r, (t.origins r).Nodup

variable {t : RegOrigins}

theorem tidy_empty : Tidy empty := ⟨noEmpty_empty, fun _ => List.nodup_nil⟩

theorem Tidy.setOrigin (h : t.Tidy) (r : Register) (o : Site) : Tidy (t.setOrigin r o) := by
  refine ⟨h.noEmpty.insert r (by simp), fun q => ?_⟩
  rw [origins_setOrigin]
  split
  · exact List.nodup_singleton o
  · exact h.nodup q

theorem Tidy.addOrigins (h : t.Tidy) (r : Register) (os : List Site) : Tidy (t.addOrigins r os) := by
  refine ⟨h.noEmpty.addOrigins r os, fun q => ?_⟩
  rw [origins_addOrigins]
  split
  · exact OrderedSet.nodup_union (h.nodup r)
  · exact h.nodup q

theorem Tidy.mergeOrigins (h : t.Tidy) (u : RegOrigins) : Tidy (t.mergeOrigins u) := by
  refine ⟨h.noEmpty.mergeOrigins u, fun q => ?_⟩
  rw [origins_mergeOrigins]
  exact OrderedSet.nodup_union (h.nodup q)

/-- In a tidy table, to be without origins is to be without an entry. -/
theorem Tidy.get?_eq_none_iff (h : t.Tidy) {r : Register} : t.get? r = none ↔ t.origins r = [] := by
  rw [h.noEmpty.get?_eq]
  split <;> simp_all

end RegTable

/-! ## Stores in memory -/

namespace MemOrigins

/-- No two stores of the list have the same origin and the same location. -/
def Distinct (m : MemOrigins) : Prop :=
  m.stores.Pairwise fun a b => ¬ (a.origin = b.origin ∧ a.place.sameLocation b.place = true)

variable {m : MemOrigins}

theorem Distinct.add (h : m.Distinct) (place : Value) (o : Site) : (m.add place o).Distinct :=
  pairwise_add h fun _ _ hnot hsame => hnot ⟨hsame.1, Or.inr hsame.2⟩

theorem Distinct.merge (h : m.Distinct) (n : MemOrigins) : (m.merge n).Distinct := by
  unfold MemOrigins.merge
  induction n.stores generalizing m with
  | nil => exact h
  | cons st rest ih => exact ih (h.add st.place st.origin)

theorem Distinct.set (h : m.Distinct) (place : Value) (o : Site) : (m.set place o).Distinct :=
  Distinct.add (List.Pairwise.filter _ h) place o

end MemOrigins

/-- Every address is relative to a base that is read in full. -/
theorem MemOperand.width_place {m : MemOperand} {l : Location} (h : m.place.location? = some l) :
    l.width = 8 := by
  unfold place at h
  cases hoffset : m.offset <;> simp only [hoffset, Value.location?] at h
  case const n =>
    obtain rfl := Option.some.inj h
    rfl
  all_goals cases h

theorem MemOperand.width_nextPlace {m : MemOperand} {width : UInt8} {l : Location}
    (h : (m.nextPlace width).location? = some l) : l.width = 8 := by
  obtain ⟨k, hk, rfl⟩ := Option.map_eq_some_iff.mp (show m.place.location?.map _ = some l from h)
  exact width_place (l := k) hk

namespace Effect

/-- If the effect stores to a location, it is one relative to a register of 8 bytes. -/
def Wide (e : Effect) : Prop :=
  ∀ place src l, e = store place src → place.location? = some l → l.width = 8

theorem wide_of_not_isStore {e : Effect} (h : e.isStore = false) : e.Wide := by
  rintro place src l rfl
  cases h

theorem not_isStore_useAddress {m : MemOperand} {e : Effect} (he : e ∈ useAddress m) :
    e.isStore = false := by
  obtain ⟨r, _, rfl⟩ := List.mem_map.mp he
  rfl

theorem not_isStore_moveBase {m : MemOperand} {w : Writeback} {e : Effect}
    (he : e ∈ moveBase m w) : e.isStore = false := by
  obtain ⟨v, _, rfl⟩ : ∃ v, m.update? w = some v ∧ define m.base v = e := by
    simpa [moveBase] using he
  rfl

theorem wide_place (m : MemOperand) (src : Register) : (store m.place src).Wide := by
  rintro place src l he hl
  obtain ⟨rfl, rfl⟩ := Effect.store.inj he
  exact MemOperand.width_place hl

theorem wide_nextPlace (m : MemOperand) (width : UInt8) (src : Register) :
    (store (m.nextPlace width) src).Wide := by
  rintro place src l he hl
  obtain ⟨rfl, rfl⟩ := Effect.store.inj he
  exact MemOperand.width_nextPlace hl

theorem wide_storeReg {w : Writeback} {xs : List Operand} {es : List Effect}
    (h : storeReg w xs = some es) : ∀ e ∈ es, e.Wide := by
  unfold storeReg at h
  split at h <;> cases h
  intro e he
  simp only [List.cons_append, List.mem_append, List.mem_cons, List.not_mem_nil, or_false] at he
  rcases he with rfl | (he | rfl) | he
  · exact wide_of_not_isStore rfl
  · exact wide_of_not_isStore (not_isStore_useAddress he)
  · exact wide_place _ _
  · exact wide_of_not_isStore (not_isStore_moveBase he)

theorem wide_storePair {w : Writeback} {xs : List Operand} {es : List Effect}
    (h : storePair w xs = some es) : ∀ e ∈ es, e.Wide := by
  unfold storePair at h
  split at h <;> cases h
  intro e he
  simp only [List.cons_append, List.mem_append, List.mem_cons, List.not_mem_nil, or_false] at he
  rcases he with rfl | rfl | (he | rfl | rfl) | he
  · exact wide_of_not_isStore rfl
  · exact wide_of_not_isStore rfl
  · exact wide_of_not_isStore (not_isStore_useAddress he)
  · exact wide_place _ _
  · exact wide_nextPlace _ _ _
  · exact wide_of_not_isStore (not_isStore_moveBase he)

end Effect

open Effect in
/-- **Every store of an operation is to an address that is computed from 64-bit registers.** -/
theorem Operation.effects_wide {o : Operation} {returnTo : UInt64} {es : List Effect}
    (h : o.effects returnTo = some es) : ∀ e ∈ es, e.Wide := by
  by_cases hstore : o.opcode.isStore = true
  · unfold Operation.effects at h
    cases hop : o.opcode <;> simp only [hop, Opcode.isStore, Bool.false_eq_true] at h hstore
    case str | strb | strh => exact wide_storeReg h
    case stp => exact wide_storePair h
  · intro e he
    have hnone := Operation.any_isStore_effects h (by simpa using hstore)
    exact wide_of_not_isStore (by simpa using List.any_eq_false.mp hnone e he)

theorem Settings.effects_wide (s : Settings) (i : Instruction) (address : UInt64) :
    ∀ e ∈ s.effects i address, e.Wide :=
  s.effects_cases i address (P := (∀ e ∈ ·, e.Wide)) (by simp)
    fun _ _ _ hes => Operation.effects_wide hes

/-! ## One point -/

/-- What is exposed has origins for everything that it lists, and each one once. -/
structure Exposed.Regular (x : Exposed) : Prop where
  regs : x.regs.Tidy
  zero : x.regs.get? .xzr = none
  place : ∀ st ∈ x.mems.stores, ∃ l, st.place.location? = some l ∧ l.width = 8
  distinct : x.mems.Distinct

/-- The record has origins for everything that it lists, each one once, and says nothing about
the zero register but where it was stored to, and what a load into it would have found. -/
structure Record.Regular (x : Record) : Prop where
  refs : x.refs.Tidy
  memRefs : ∀ m, x.mem = some m → m.refs.Tidy
  defsZero : x.defs.get? .xzr = none
  refsZero : x.refs.get? .xzr = none

theorem Register.ne_xzr {r : Register} (h : ¬ r.isZero = true) : xzr ≠ r := by
  rintro rfl
  exact h rfl

namespace Exposed

variable {x y : Exposed}

theorem regular_empty : Regular {} :=
  ⟨RegTable.tidy_empty, rfl, fun _ h => absurd h List.not_mem_nil, List.Pairwise.nil⟩

/-- **Joins keep what is exposed regular.** -/
theorem Regular.merge (hx : x.Regular) (hy : y.Regular) : (x.merge y).Regular := by
  refine ⟨hx.regs.mergeOrigins y.regs, ?_, ?_, hx.distinct.merge y.mems⟩
  · refine (hx.regs.mergeOrigins y.regs).get?_eq_none_iff.mpr ?_
    rw [RegTable.origins_mergeOrigins, hx.regs.get?_eq_none_iff.mp hx.zero,
      hy.regs.get?_eq_none_iff.mp hy.zero]
    rfl
  · intro st hst
    rcases MemOrigins.mem_stores_merge hst with h | h
    · exact hx.place st h
    · exact hy.place st h

theorem Regular.setReg (h : x.Regular) {r : Register} (hr : ¬ r.isZero = true) (o : Site) :
    (x.setReg r o).Regular := by
  refine ⟨h.regs.setOrigin r o, ?_, h.place, h.distinct⟩
  unfold Exposed.setReg RegTable.setOrigin
  rw [RegTable.get?_insert, if_neg (Register.ne_xzr hr)]
  exact h.zero

theorem Regular.dropBase (h : x.Regular) (r : Register) : (x.dropBase r).Regular :=
  ⟨h.regs, h.zero, fun st hst => h.place st (List.mem_filter.mp hst).1, h.distinct.filter _⟩

theorem Regular.setMem (h : x.Regular) {place : Value} {src : Register}
    (hwide : (Effect.store place src).Wide) (o : Site) : (x.setMem place o).Regular := by
  cases hl : place.location? with
  | none =>
      unfold Exposed.setMem
      rw [hl]
      exact h
  | some l =>
      unfold Exposed.setMem
      rw [hl]
      refine ⟨h.regs, h.zero, ?_, h.distinct.set place o⟩
      intro st hst
      rcases MemOrigins.mem_stores_set hl hst with ⟨hst, _⟩ | rfl
      · exact h.place st hst
      · exact ⟨l, hl, hwide place src l rfl hl⟩

end Exposed

theorem Record.regular_fresh (o : Site) (address : UInt64) (tracking : Tracking) :
    (fresh o address tracking).Regular := by
  refine ⟨RegTable.tidy_empty, fun m hm => ?_, rfl, rfl⟩
  cases tracking with
  | registers => cases hm
  | registersAndMemory =>
      obtain rfl : {} = m := Option.some.inj hm
      exact RegTable.tidy_empty

/-- Both what is exposed at the point and its record are regular. -/
structure Point.Regular (p : Point) : Prop where
  exposed : p.exposed.Regular
  record : p.record.Regular

namespace Point

variable {p : Point} {tracking : Tracking}

/-- **Every effect of an operation keeps a point regular.** -/
theorem Regular.apply (h : p.Regular) {e : Effect} (he : e.Wide) : (p.apply tracking e).Regular := by
  obtain ⟨hx, hi⟩ := h
  cases e with
  | use r =>
      dsimp only [Point.apply]
      split
      · exact ⟨hx, hi⟩
      · rename_i hr
        rw [Record.linkReg_eq]
        refine ⟨hx, hi.refs.addOrigins r _, hi.memRefs, hi.defsZero, ?_⟩
        refine (hi.refs.addOrigins r _).get?_eq_none_iff.mpr ?_
        rw [RegTable.origins_addOrigins, if_neg (Register.ne_xzr hr)]
        exact hi.refs.get?_eq_none_iff.mp hi.refsZero
  | load place dst =>
      dsimp only [Point.apply]
      split
      · rw [Record.linkMem_eq]
        refine ⟨hx, hi.refs, fun m hm => ?_, hi.defsZero, hi.refsZero⟩
        obtain ⟨n, hn, rfl⟩ := Option.map_eq_some_iff.mp hm
        exact (hi.memRefs n hn).addOrigins dst _
      · exact ⟨hx, hi⟩
  | define r v =>
      dsimp only [Point.apply]
      split
      · exact ⟨hx, hi⟩
      · rename_i hr
        refine ⟨?_, hi.refs, hi.memRefs, ?_, hi.refsZero⟩
        · have hset := hx.setReg hr p.record.site
          split
          · exact hset.dropBase r
          · exact hset
        · unfold Record.addDef
          rw [RegTable.get?_insert, if_neg (Register.ne_xzr hr)]
          exact hi.defsZero
  | store place src =>
      dsimp only [Point.apply]
      split
      · refine ⟨hx.setMem he p.record.site, hi.refs, fun m hm => ?_, hi.defsZero, hi.refsZero⟩
        obtain ⟨n, hn, rfl⟩ := Option.map_eq_some_iff.mp hm
        exact hi.memRefs n hn
      · exact ⟨hx, hi⟩

theorem Regular.visit (h : p.Regular) (s : Settings) (i : Instruction) :
    (p.visit s tracking i).Regular := by
  unfold Point.visit applyAll
  have hwide := s.effects_wide i p.record.address
  generalize s.effects i p.record.address = es at hwide
  induction es generalizing p with
  | nil => exact h
  | cons e es ih =>
      exact ih (h.apply (hwide e List.mem_cons_self)) fun d hd => hwide d (List.mem_cons_of_mem _ hd)

end Point

/-! ## Blocks -/

/-- What the block exposes is regular, and so are its records. -/
structure BlockFacts.Regular (x : BlockFacts) : Prop where
  exposed : x.exposed.Regular
  record : ∀ y, some y ∈ x.slots → y.Regular

/-- **A visit of instructions keeps a block regular**, however far it gets. -/
theorem visitFrom_regular {s : Settings} {tracking : Tracking} {b : BlockId} {index : Nat}
    {is : List Instruction} {x : BlockFacts} (h : x.Regular) :
    (visitFrom s tracking b index is x).facts.Regular := by
  fun_induction visitFrom s tracking b index is x with
  | case1 => exact h
  | case2 => exact h
  | case3 index i rest x slot slots p q v ih =>
      have hp : p.Regular := by
        refine ⟨h.exposed, ?_⟩
        cases hslot : slot with
        | none => simpa [p, hslot] using Record.regular_fresh _ _ _
        | some y => simpa [p, hslot] using h.record y (by simp [hslot])
      have hq : q.Regular := hp.visit s i
      have hrest := ih ⟨hq.exposed, fun y hy => h.record y (List.mem_cons_of_mem _ hy)⟩
      refine ⟨hrest.exposed, fun y hy => ?_⟩
      rcases List.mem_cons.mp hy with hy | hy
      · obtain rfl := Option.some.inj hy
        exact hq.record
      · exact hrest.record y hy

namespace Facts

variable {g : FlowGraph} {tracking : Tracking} {f : Facts}

/-- All that is exposed is regular, all records are, and each stands in the slot of its site. -/
structure Regular (f : Facts) : Prop where
  exposed : ∀ b, (f.exposed b).Regular
  record : ∀ o x, f.record? o = some x → x.Regular
  placed : f.Placed

theorem union_regular (hf : ∀ b, (f.block b).Regular) (ps : List BlockId) :
    (f.union ps).Regular :=
  union_preserves Exposed.regular_empty (fun _ p hx => hx.merge (hf p).exposed) ps

theorem block_visitBlock_regular {s : Settings} (hg : g.Linked) (hsize : g.size = f.size)
    (hplaced : f.Placed) (hf : ∀ b, (f.block b).Regular) (b d : BlockId) :
    ((f.visitBlock s g b).facts.block d).Regular := by
  rcases Nat.lt_or_ge b g.size with hb | hb
  · rw [visitBlock_eq hg hsize.symm hplaced hb, block_put_current f b d _ (hsize ▸ hb)]
    split
    · exact visitFrom_regular ⟨union_regular hf _, (hf b).record⟩
    · exact hf d
  · rw [facts_visitBlock_of_le hb]
    exact hf d

theorem block_fresh_regular (g : FlowGraph) (tracking : Tracking) (b : BlockId) :
    ((fresh g tracking).block b).Regular := by
  rw [block_fresh]
  refine ⟨Exposed.regular_empty, fun y hy => ?_⟩
  simp at hy

/-- Analyses keep all blocks regular, whatever graph they are of. -/
theorem Derived.block_regular (hf : f.Derived g tracking) : ∀ b, (f.block b).Regular := by
  induction hf with
  | fresh => exact block_fresh_regular g tracking
  | @analyze f g' s order hg' hf ih =>
      by_cases hsize : g'.size = f.size
      · -- no visit changes the number of blocks, so all later ones are of this size too
        have hlinked := FlowGraph.built_linked hg'
        have hkept := analyze_preserves (s := s) (g := g')
          (P := fun f => f.Slotted g ∧ ∀ b, (f.block b).Regular) ?_ order ⟨hf.slotted, ih⟩
        · exact hkept.2
        · rintro f' b ⟨hslotted, hregular⟩
          have hsize' : g'.size = f'.size := (hsize.trans hf.slotted.size).trans hslotted.size.symm
          exact ⟨hslotted.visitBlock hlinked hsize' b,
            block_visitBlock_regular hlinked hsize' hslotted.placed hregular b⟩
      · -- a graph of another size is refused
        unfold Facts.analyze accept
        rw [if_neg hsize]
        exact ih

/-- **Facts are regular after any sequence of analyses**, with any settings and orders, of any
graphs, and also if some of them were stopped. -/
theorem derived_regular (hf : f.Derived g tracking) : f.Regular := by
  refine ⟨fun b => (hf.block_regular b).exposed, fun o x hx => ?_, hf.slotted.placed⟩
  refine (hf.block_regular o.block).record x ?_
  exact List.mem_of_getElem? (Option.join_eq_some_iff.mp hx)

/-- The facts about `tally` after an analysis of its loop that only looks at stores, another one
of everything, and one that is refused. -/
def tallyThrice : Facts :=
  ((((fresh .tally .registersAndMemory).analyze ⟨0, [.str]⟩ .tally [[2, 1]]).facts.analyze ⟨1, []⟩
    .tally [[1], [0, 1, 2]]).facts.analyze ⟨1, []⟩ .tally [[3]]).facts

/-- The loop counts on, and what it stored the last time around is still there. -/
theorem derived_regular_tally :
    tallyThrice.Regular ∧
      (tallyThrice.exposed 1).regs.get? ⟨0⟩ = some [⟨1, 1⟩] ∧
      (tallyThrice.exposed 1).mems.cells = [(⟨⟨2⟩, 8, 0⟩, ⟨2, 0⟩)] := by
  have hf : tallyThrice.Derived .tally .registersAndMemory :=
    .analyze _ _ FlowGraph.tally_built
      (.analyze _ _ FlowGraph.tally_built (.analyze _ _ FlowGraph.tally_built .fresh))
  exact ⟨derived_regular hf, by decide +kernel, by decide +kernel⟩

end Facts

end ReachingDefs
