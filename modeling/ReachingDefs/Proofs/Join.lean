import ReachingDefs.Proofs.EdgeOrder
import ReachingDefs.Proofs.Transfer

/-!
# Joins are unions

A join resets what one block exposes to what several blocks expose together. The target may be
one of its own sources, as for a loop of one block: then its old set takes part in the union,
and otherwise nothing is left of it.

Both sets are unions member by member, for whatever facts. A register that is listed without
origins would get lost in a join, since there is nothing to add for it. But no request ever
lists one (`Listed.serveAll`), so which registers are listed is a union as well.
-/

namespace ReachingDefs

theorem RegTable.NoEmpty.get?_eq_none {t : RegOrigins} (h : t.NoEmpty) {r : Register} :
    t.get? r = none ↔ ∀ o, o ∉ t.origins r := by
  rw [h.get?_eq, ← List.eq_nil_iff_forall_not_mem]
  split <;> simp_all

namespace Facts

/-! ## Requests -/

/-- A request to facts. -/
inductive Request where
  | enter (b : BlockId)
  | join (b : BlockId) (ps : List BlockId)
  | setReg (r : Register) (o : Site)
  | addReg (r : Register) (o : Site)
  | setMem (place : Value) (o : Site)
  | addMem (place : Value) (o : Site)
  | dropBase (r : Register)
  | linkReg (o : Site) (r : Register)
  | linkMem (o : Site) (r : Register) (place : Value)
  | analyze (s : Settings) (g : FlowGraph) (order : List (List BlockId))

/-- Serves a request, and says whether a fault came in the way. -/
def serve (f : Facts) : Request → Facts × Option Fault
  | .enter b => ((f.enter b).facts, (f.enter b).fault)
  | .join b ps => ((f.join b ps).facts, (f.join b ps).fault)
  | .setReg r o => (f.setReg r o, none)
  | .addReg r o => (f.addReg r o, none)
  | .setMem place o => ((f.setMem place o).1, none)
  | .addMem place o => (f.addMem place o, none)
  | .dropBase r => ((f.dropBase r).1, none)
  | .linkReg o r => (f.linkReg o r, none)
  | .linkMem o r place => ((f.linkMem o r place).1, none)
  | .analyze s g order => ((f.analyze s g order).facts, (f.analyze s g order).fault)

/-- The facts after requests in order, whatever faults there were. -/
def serveAll (f : Facts) (rs : List Request) : Facts :=
  rs.foldl (fun f r => (f.serve r).1) f

/-! ## Registers are listed with their origins -/

/-- Every register that some block lists has an origin. -/
def Listed : Facts → Prop := Each fun _ x => x.exposed.regs.NoEmpty

variable {f : Facts} {b : BlockId} {ps : List BlockId}

theorem Listed.exposed (hf : f.Listed) (b : BlockId) : (f.exposed b).regs.NoEmpty := by
  unfold Facts.exposed block
  rw [Array.getD_eq_getD_getElem?]
  cases hx : f.blocks[b]? with
  | none => exact RegTable.noEmpty_empty
  | some x => exact hf b x hx

theorem fresh_listed (g : FlowGraph) (tracking : Tracking) : (fresh g tracking).Listed := by
  intro b x hx
  unfold fresh at hx
  rw [Array.getElem?_map] at hx
  obtain ⟨_, _, rfl⟩ := Option.map_eq_some_iff.mp hx
  exact RegTable.noEmpty_empty

theorem Listed.onExposed (hf : f.Listed) (b : BlockId) {change : Exposed → Exposed}
    (hchange : ∀ x : Exposed, x.regs.NoEmpty → (change x).regs.NoEmpty) :
    (f.onExposed b change).Listed :=
  hf.modify b fun x hx => hchange x.exposed hx

theorem Listed.onRecord (hf : f.Listed) (o : Site) (change : Record → Record) :
    (f.onRecord o change).Listed :=
  hf.modify o.block fun _ hx => hx

theorem Listed.onCurrent (hf : f.Listed) {change : Exposed → Exposed}
    (hchange : ∀ x : Exposed, x.regs.NoEmpty → (change x).regs.NoEmpty) :
    (f.onCurrent change).Listed := by
  unfold Facts.onCurrent
  split
  · exact hf.onExposed _ hchange
  · exact hf

theorem listed_visitClosed : VisitClosed Listed where
  onRecord o change _ hf := hf.onRecord o change
  setReg r o hf := hf.onCurrent fun _ hx => hx.insert r (List.cons_ne_nil _ _)
  setMem place o hf := hf.onCurrent fun x hx => by
    unfold Exposed.setMem
    split <;> exact hx
  dropBase r hf := by
    unfold Facts.dropBase
    split
    · exact hf.onExposed _ fun _ hx => hx
    · exact hf
  ensureRecord o address hf := by
    unfold Facts.ensureRecord
    split
    · exact hf.modify o.block fun _ hx => hx
    · exact hf
  join {f} b ps hf := by
    rw [join_eq]
    split
    · exact hf
    · exact hf.onExposed b fun _ _ => noEmpty_union f ps
  enter b hf := by
    rw [enter_eq]
    split <;> exact hf

/-- **No request lists a register without origins.** -/
theorem Listed.serve (hf : f.Listed) (r : Request) : (f.serve r).1.Listed := by
  cases r with
  | enter b => exact listed_visitClosed.enter b hf
  | join b ps => exact listed_visitClosed.join b ps hf
  | setReg r o => exact listed_visitClosed.setReg r o hf
  | addReg r o => exact hf.onCurrent fun x hx => hx.addOrigins r [o]
  | setMem place o => exact listed_visitClosed.setMem place o hf
  | addMem place o =>
      refine hf.onCurrent fun x hx => ?_
      unfold Exposed.addMem
      split <;> exact hx
  | dropBase r => exact listed_visitClosed.dropBase r hf
  | linkReg o r =>
      dsimp only [Facts.serve, Facts.linkReg]
      split
      · exact hf.onRecord o _
      · exact hf
  | linkMem o r place =>
      dsimp only [Facts.serve, Facts.linkMem]
      split
      · exact hf.onRecord o _
      · exact hf
  | analyze s g order => exact listed_visitClosed.analyze hf s g order

theorem Listed.serveAll (hf : f.Listed) (rs : List Request) : (f.serveAll rs).Listed := by
  unfold Facts.serveAll
  induction rs generalizing f with
  | nil => exact hf
  | cons r rs ih => exact ih (hf.serve r)

/-! ## The join -/

/-- In `f'` block `b` exposes the union of what the blocks `ps` expose in `f`, and all else is as
in `f`. -/
structure Unites (f : Facts) (b : BlockId) (ps : List BlockId) (f' : Facts) : Prop where
  origin : ∀ r o, o ∈ (f'.exposed b).regs.origins r ↔ ∃ p ∈ ps, o ∈ (f.exposed p).regs.origins r
  absent : ∀ r, (f'.exposed b).regs.get? r = none ↔ ∀ p ∈ ps, (f.exposed p).regs.get? r = none
  cell : ∀ c, c ∈ (f'.exposed b).mems.cells ↔ ∃ p ∈ ps, c ∈ (f.exposed p).mems.cells
  others : ∀ d, d ≠ b → f'.exposed d = f.exposed d
  /-- All records stay as they are. -/
  slots : ∀ d, (f'.block d).slots = (f.block d).slots
  current : f'.current = f.current
  tracking : f'.tracking = f.tracking
  size : f'.size = f.size

theorem exposed_onExposed_self (hb : b < f.size) (change : Exposed → Exposed) :
    (f.onExposed b change).exposed b = change (f.exposed b) := by
  unfold exposed
  rw [block_onExposed f b b change hb, if_pos rfl]
  rfl

theorem onExposed_unites (hf : f.Listed) (hb : b < f.size) (ps : List BlockId) :
    f.Unites b ps (f.onExposed b fun _ => f.union ps) := by
  have hself := exposed_onExposed_self hb fun _ => f.union ps
  have hblock := fun d => block_onExposed f b d (fun _ => f.union ps) hb
  refine ⟨fun r o => ?_, fun r => ?_, fun c => ?_, fun d hd => ?_, fun d => ?_, rfl, rfl, ?_⟩
  · rw [hself, mem_origins_union]
  · -- a register without origins is not listed, neither in the union nor at a source
    rw [hself, (noEmpty_union f ps).get?_eq_none]
    simp only [mem_origins_union, not_exists, not_and]
    exact ⟨fun h p hp => (hf.exposed p).get?_eq_none.mpr fun o => h o p hp,
      fun h o p hp => (hf.exposed p).get?_eq_none.mp (h p hp) o⟩
  · rw [hself, mem_cells_union]
  · unfold exposed
    rw [hblock, if_neg hd]
  · rw [hblock]
    split
    · rename_i hd
      rw [hd]
    · rfl
  · exact Array.size_modify

/-- The order of the sources, and how often each one is named, only decide how the union is
listed. -/
theorem union_sameSets (f : Facts) {ps qs : List BlockId} (h : ∀ p, p ∈ qs ↔ p ∈ ps) :
    (f.union ps).SameSets (f.union qs) where
  regs := (noEmpty_union f ps).sameEntries (noEmpty_union f qs) fun r o => by
    simp only [mem_origins_union, h]
  cells c := by simp only [mem_cells_union, h]

theorem serve_join (hids : ∀ id ∈ b :: ps, id < f.size) :
    f.serve (.join b ps) = (f.onExposed b fun _ => f.union ps, none) := by
  have hfind : (b :: ps).find? (f.size ≤ ·) = none :=
    List.find?_eq_none.mpr fun id hid => by simpa using hids id hid
  dsimp only [Facts.serve]
  rw [join_eq, hfind]

/-- A join that names blocks that are not there reports the first of them. -/
theorem serve_join_refused {id : BlockId} (hid : (b :: ps).find? (f.size ≤ ·) = some id) :
    f.serve (.join b ps) = (f, some (.nodeOutOfRange id f.size)) := by
  dsimp only [Facts.serve]
  rw [join_eq, hid]

/-- **A join is a union, or changes nothing.** After any requests, a join of blocks that are there
is served, and the order and the repetitions of its sources do not matter; one that names another
block is refused. -/
theorem serve_join_unites (g : FlowGraph) (tracking : Tracking) (rs : List Request) (b : BlockId)
    (ps : List BlockId) :
    let f := (fresh g tracking).serveAll rs
    ((∀ id ∈ b :: ps, id < f.size) →
      ∃ f', f.serve (.join b ps) = (f', none) ∧ f.Unites b ps f' ∧
        ∀ qs, (∀ p, p ∈ qs ↔ p ∈ ps) →
          ∃ f'', f.serve (.join b qs) = (f'', none) ∧ (f'.exposed b).SameSets (f''.exposed b)) ∧
    ((∃ id ∈ b :: ps, f.size ≤ id) →
      ∃ id, (b :: ps).find? (f.size ≤ ·) = some id ∧
        f.serve (.join b ps) = (f, some (.nodeOutOfRange id f.size))) := by
  intro f
  have hf : f.Listed := (fresh_listed g tracking).serveAll rs
  constructor
  · intro hids
    have hb : b < f.size := hids b List.mem_cons_self
    refine ⟨_, serve_join hids, onExposed_unites hf hb ps, fun qs hqs => ⟨_, serve_join ?_, ?_⟩⟩
    · simp only [List.mem_cons, hqs] at hids ⊢
      exact hids
    · rw [exposed_onExposed_self hb, exposed_onExposed_self hb]
      exact union_sameSets f hqs
  · rintro ⟨id, hmem, hid⟩
    cases hfind : (b :: ps).find? (f.size ≤ ·) with
    | none =>
        have hlt := List.find?_eq_none.mp hfind id hmem
        exact absurd (decide_eq_true hid) hlt
    | some first => exact ⟨first, rfl, serve_join_refused hfind⟩

/-- A run over the first block of `churn`, some changes by hand to the second, and a join that is
refused. -/
def churnEdited : List Request :=
  [.analyze {} FlowGraph.churn [[0]], .enter 1, .addReg ⟨0⟩ ⟨1, 1⟩, .addReg ⟨0⟩ ⟨0, 0⟩,
    .addMem (.reg ⟨2⟩ 8) ⟨1, 0⟩, .join 1 [1, 2]]

/-- The second block goes round, so it keeps what it exposed. Its origin of `x0` that the first
block has as well is listed once. -/
theorem serve_join_unites_churnEdited :
    let f := (fresh FlowGraph.churn .registersAndMemory).serveAll churnEdited
    (∀ id ∈ [1, 0, 1], id < f.size) ∧
      (∃ f', f.serve (.join 1 [0, 1]) = (f', none) ∧ f.Unites 1 [0, 1] f' ∧
        ∀ qs, (∀ p, p ∈ qs ↔ p ∈ [0, 1]) →
          ∃ f'', f.serve (.join 1 qs) = (f'', none) ∧
            (f'.exposed 1).SameSets (f''.exposed 1)) ∧
      ((f.serve (.join 1 [0, 1])).1.exposed 1).regs.get? ⟨0⟩ = some [⟨0, 0⟩, ⟨1, 1⟩] ∧
      (∃ id ∈ [1, 0, 3, 2], f.size ≤ id) ∧
      ∃ id, [1, 0, 3, 2].find? (f.size ≤ ·) = some id ∧
        f.serve (.join 1 [0, 3, 2]) = (f, some (.nodeOutOfRange id f.size)) := by
  intro f
  have hids : ∀ id ∈ [1, 0, 1], id < f.size := by decide +kernel
  have hid : ∃ id ∈ [1, 0, 3, 2], f.size ≤ id := ⟨3, by decide, by decide +kernel⟩
  exact ⟨hids, (serve_join_unites FlowGraph.churn .registersAndMemory churnEdited 1 [0, 1]).1 hids,
    by decide +kernel, hid,
    (serve_join_unites FlowGraph.churn .registersAndMemory churnEdited 1 [0, 3, 2]).2 hid⟩

end Facts

end ReachingDefs
