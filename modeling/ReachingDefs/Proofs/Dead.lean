import ReachingDefs.Proofs.Chains
import ReachingDefs.Proofs.Precision

/-!
# Which instructions are dead

An instruction that stores nothing can be removed if nobody reads what it leaves in
registers. The chains answer that exactly, when the passes were not cut short: such an
instruction is called dead if it sets some register, and for none of the registers that it
sets there is a path to a reader on which nothing else sets it.

It takes both sides of the analysis. Nothing is missed, so what can be read is used; and
nothing is made up, so what is used can be read. Uses of memory stand in the same chains, but
only stores are ever used that way.
-/

namespace ReachingDefs

variable {g : FlowGraph} {s : Settings}

/-! ## Stores -/

/-- Is this the opcode of a store? -/
def Opcode.isStore : Opcode → Bool
  | str | strb | strh | stp => true
  | _ => false

/-- Was the instruction decoded as a store? -/
def Instruction.isStore (i : Instruction) : Bool :=
  i.operation.any (·.opcode.isStore)

namespace Effect

theorem any_isStore_loadOne (w : Writeback) (dst : Register) (m : MemOperand) (width : UInt8)
    (signed : Bool) : (loadOne w dst m width signed).any isStore = false := by
  obtain ⟨base, index, disp⟩ := m
  cases index <;> cases w <;> rfl

theorem any_isStore_loadPair {w : Writeback} {xs : List Operand} {es : List Effect}
    (h : loadPair w xs = some es) : es.any isStore = false := by
  unfold loadPair at h
  split at h
  · rename_i a width b _ m
    obtain ⟨base, index, disp⟩ := m
    cases h
    cases index <;> cases w <;> rfl
  · exact absurd h (by simp)

end Effect

open Effect in
/-- Only stores store. -/
theorem Operation.any_isStore_effects {o : Operation} {returnTo : UInt64} {es : List Effect}
    (h : o.effects returnTo = some es) (hop : o.opcode.isStore = false) :
    es.any isStore = false := by
  obtain ⟨opcode, operands, cond, writeback⟩ := o
  unfold Operation.effects at h
  cases opcode <;> dsimp only at h
  case str | strb | strh | stp => cases hop
  case ldp => exact any_isStore_loadPair h
  case ldaxr =>
    unfold loadExclusive at h
    split at h <;> cases h
    exact any_isStore_loadOne ..
  case ldr | ldur | ldrb | ldrh | ldrsb | ldrsh | ldrsw =>
    unfold loadReg at h
    split at h <;> cases h
    · exact any_isStore_loadOne ..
    · rfl
  case add | sub | and | orr | lsl =>
    unfold arithmetic at h
    split at h <;> cases h <;> rfl
  case cmp =>
    unfold Effect.compare at h
    split at h <;> cases h <;> rfl
  case csel =>
    unfold choose at h
    split at h <;> cases h
    rfl
  case mov =>
    unfold move at h
    split at h <;> cases h <;> rfl
  case ret =>
    unfold leave at h
    split at h <;> cases h <;> rfl
  case b =>
    cases h
    split <;> rfl
  case nop =>
    cases h
    rfl
  case other => cases h
  all_goals
    split at h <;> cases h
    rfl

theorem FlowGraph.any_isStore_effectsAt {o : Site} {i : Instruction}
    (hi : g.instruction? o = some i) (hstore : i.isStore = false) :
    (g.effectsAt s o).any Effect.isStore = false := by
  rw [effectsAt_of_instruction hi]
  refine s.effects_cases i i.address (P := (·.any Effect.isStore = false)) rfl ?_
  intro op es hop hes
  unfold Instruction.isStore at hstore
  rw [hop, Option.any_some] at hstore
  exact Operation.any_isStore_effects hes hstore

/-! ## Records say what their instructions do -/

namespace FlowGraph

/-- **What a record says at the end of an analysis is the work of its own instruction.** If a
visit makes a record say `P` only where `Q` holds, then `P` is said only there. -/
theorem run_record (hg : g.Linked) (options : Options) {P : Record → Prop} {Q : Site → Prop}
    (hfresh : ∀ o address, ¬ P (.fresh o address options.tracking))
    (hvisit : ∀ (p : Point) o i, p.Stands g options.tracking o i →
      P (p.visit options.toSettings options.tracking i).record → P p.record ∨ Q o)
    {o : Site} {x : Record} (hx : (g.run options).facts.record? o = some x) (hP : P x) : Q o := by
  have hrun := g.run_preserves hg options
    (P := fun f => f.Fits g ∧ f.tracking = options.tracking ∧
      ∀ o x, f.record? o = some x → P x → Q o) (fun _ hf => hf.1) ?_ ?_
  · exact hrun.2.2 o x hx hP
  · refine ⟨Facts.fresh_fits g _, rfl, fun o x hx => ?_⟩
    rw [Facts.record?_fresh] at hx
    cases hx
  · rintro f f' b ⟨hf, htracking, hold⟩ hv
    refine ⟨hv.fits hf, hv.tracking.trans htracking, fun o x hx hP => ?_⟩
    rcases hv.record_cases hf (htracking ▸ hfresh) hx hP with ⟨y, hy, hPy⟩ | hadded
    · exact hold o y hy hPy
    · obtain ⟨i, p, _, _, hp, _, hnot, hnew⟩ := hadded
      rw [htracking] at hp hnew
      exact (hvisit p o i hp hnew).resolve_left hnot

theorem run_refsGenuine (hg : g.Linked) (options : Options) :
    (g.run options).facts.RefsGenuine g options.toSettings :=
  g.run_preserves hg options (fun _ hf => hf.genuine.fits) (Facts.refsGenuine_fresh ..)
    fun _ _ _ hf hv => hf.visits hg hv

variable {options : Options} {o q : Site} {x : Record} {r : Register}

/-- Only what is read has origins. -/
theorem reads_of_mem_refs (hg : g.Linked) (hx : (g.run options).facts.record? q = some x)
    (ho : o ∈ x.refs.origins r) : g.reads options.toSettings q r = true :=
  run_record hg options (P := (o ∈ ·.refs.origins r))
    (Q := fun q => g.reads options.toSettings q r = true) (fun _ _ => List.not_mem_nil)
    (fun _ _ _ hp hnew => ((hp.mem_refs r o).mp hnew).imp_right And.left) hx ho

/-- Records note definitions of the registers that their instructions set, and no others. -/
theorem isSome_defs_iff (hg : g.Linked) (hx : (g.run options).facts.record? o = some x) :
    (x.defs.get? r).isSome = true ↔ g.sets options.toSettings o r = true := by
  refine ⟨?_, (run_refsGenuine hg options).defs hx⟩
  exact run_record hg options (P := fun x => (x.defs.get? r).isSome = true)
    (Q := fun o => g.sets options.toSettings o r = true)
    (fun _ _ => by simp [Record.fresh, RegTable.get?_empty])
    (fun _ _ _ hp => (hp.isSome_defs r).mp) hx

/-- A record that says that its instruction stores is right. -/
theorem any_isStore_of_stores (hg : g.Linked) (hx : (g.run options).facts.record? o = some x)
    (hstores : x.stores = true) : (g.effectsAt options.toSettings o).any Effect.isStore = true := by
  refine run_record hg options (P := fun x => x.stores = true)
    (Q := fun o => (g.effectsAt options.toSettings o).any Effect.isStore = true) ?_ ?_ hx hstores
  · intro o address
    cases options.tracking <;> simp [Record.fresh, Record.stores, Tracking.memory, RegTable.isEmpty,
      RegTable.empty]
  · intro p o i hp hnew
    by_cases hmemory : options.tracking.memory = true
    · exact (hp.stores_iff hmemory).mp hnew
    · -- without a memory side a record does not say so
      unfold Record.stores at hnew
      rw [hp.visited.mem_eq_none hmemory] at hnew
      cases hnew

theorem run_loadsGenuine (hg : g.Linked) (s : Settings) :
    (g.run ⟨s, .registersAndMemory⟩).facts.LoadsGenuine g s :=
  g.run_preserves hg ⟨s, .registersAndMemory⟩ (fun _ hf => hf.genuine.fits)
    (Facts.loadsGenuine_fresh g s) fun _ _ _ hf hv => hf.visits hg hv

/-- What is loaded was stored. -/
theorem any_isStore_of_mem_memOrigins (hg : g.Linked)
    (hx : (g.run options).facts.record? q = some x) (ho : o ∈ x.memOrigins r) :
    (g.effectsAt options.toSettings o).any Effect.isStore = true := by
  obtain ⟨s, tracking⟩ := options
  cases tracking with
  | registers =>
      refine run_record hg ⟨s, .registers⟩ (P := (o ∈ ·.memOrigins r)) (Q := fun _ => _)
        (fun _ _ => List.not_mem_nil) ?_ hx ho
      intro p q i hp hnew
      rw [hp.visited.memOrigins_eq_nil Bool.false_ne_true] at hnew
      cases hnew
  | registersAndMemory =>
      obtain ⟨l, _, harrives, _⟩ := (run_loadsGenuine hg s).refs hx ho
      obtain ⟨e, he, hl⟩ := List.any_eq_true.mp (arrives_memLane_iff.mp harrives).1
      refine List.any_eq_true.mpr ⟨e, he, ?_⟩
      cases e <;> simp_all [Effect.storesTo, Effect.isStore]

/-! ## Dead and live -/

/-- What the instruction at `o` leaves in `r` can be read: control can come to an instruction
that reads `r`, and nothing on the way sets `r` again. -/
def Live (g : FlowGraph) (s : Settings) (o : Site) (r : Register) : Prop :=
  ∃ q path, g.reads s q r = true ∧ g.Path o (o :: path) q ∧ ∀ i ∈ path, g.sets s i r = false

/-- **What an instruction wrote is used if it can be read**, unless it is loaded somewhere. -/
theorem isUsed_iff_live_of_not_loaded (hg : g.Linked)
    (hsettled : ∀ b, b < g.size → (g.run options).facts.Settled g options.toSettings b)
    (hloaded : ∀ q x r, (g.run options).facts.record? q = some x → o ∉ x.memOrigins r) :
    (UseChains.ofFacts (g.run options).facts).isUsed o = true ↔
      ∃ r, g.sets options.toSettings o r = true ∧ g.Live options.toSettings o r := by
  rw [UseChains.isUsed_iff]
  constructor
  · rintro ⟨q, x, r, hx, ho | ho⟩
    · obtain ⟨hset, path, hpath, hnone⟩ :=
        arrives_regLane_iff.mp ((run_refsGenuine hg options).refs hx ho).1
      exact ⟨r, hset, q, path, reads_of_mem_refs hg hx ho, hpath, hnone⟩
    · exact absurd ho (hloaded q x r hx)
  · rintro ⟨r, hset, q, path, hreads, hpath, hnone⟩
    obtain ⟨i, hi⟩ := exists_instruction_of_effectsAt hreads
    obtain ⟨p, hp, hrecord, hall⟩ :=
      (hsettled q.block (block_lt_of_instruction hi)).record q i rfl hi
    -- the definition arrives at its reader, whose last visit noted it
    have harrives := arrives_regLane_iff.mpr ⟨hset, path, hpath, hnone⟩
    have hexposed := hall (tracks_regLane g _ _ r) o harrives
    exact ⟨q, _, r, hrecord, .inl ((hp.mem_refs r o).mpr (.inr ⟨hreads, hexposed⟩))⟩

theorem isUsed_iff_live (hg : g.Linked)
    (hsettled : ∀ b, b < g.size → (g.run options).facts.Settled g options.toSettings b)
    (hstore : (g.effectsAt options.toSettings o).any Effect.isStore = false) :
    (UseChains.ofFacts (g.run options).facts).isUsed o = true ↔
      ∃ r, g.sets options.toSettings o r = true ∧ g.Live options.toSettings o r := by
  refine isUsed_iff_live_of_not_loaded hg hsettled fun q x r hx ho => ?_
  rw [any_isStore_of_mem_memOrigins hg hx ho] at hstore
  cases hstore

/-- **Dead is what nobody can read**: if the bound on the passes suffices, then the record of
an instruction other than a store is dead exactly if the instruction sets a register, and none
that it sets can be read before it is set again. -/
theorem analyze_isDead_iff (hg : g.Built) (options : Options) :
    ∃ report, g.analyze options = .ok report ∧ (g.BoundSuffices options report →
      (∀ o, (report.facts.record? o).isSome = (g.instruction? o).isSome) ∧
      ∀ o x i, report.facts.record? o = some x → g.instruction? o = some i → i.isStore = false →
        (report.chains.isDead x = true ↔
          (∃ r, g.sets options.toSettings o r = true) ∧
          ∀ r, g.sets options.toSettings o r = true → ¬ g.Live options.toSettings o r)) := by
  have hlinked := built_linked hg
  obtain ⟨report, hreport, hfits, hsettled⟩ := analyze_settles hlinked options
  obtain rfl := Except.ok.inj ((analyze_eq hlinked options).symm.trans hreport)
  refine ⟨_, hreport, fun hbound => ⟨fun o => ?_, fun o x i hx hi hi' => ?_⟩⟩
  · cases hi : g.instruction? o with
    | none =>
        rw [hfits.record?_eq_none hi]
        rfl
    | some i =>
        obtain ⟨_, _, hrecord, _⟩ :=
          ((hsettled hbound).2 o.block (block_lt_of_instruction hi)).record o i rfl hi
        rw [hrecord]
        rfl
  · have hstore := any_isStore_effectsAt (s := options.toSettings) hi hi'
    have hsite : x.site = o := by
      obtain ⟨_, _, hhead⟩ := hfits.record o x hx
      exact congrArg (·.1) hhead
    have hstores : x.stores = false := by
      by_contra hne
      rw [any_isStore_of_stores hlinked hx (by simpa using hne)] at hstore
      cases hstore
    have hdefs : x.defs.isEmpty = false ↔ ∃ r, g.sets options.toSettings o r = true := by
      simp only [RegTable.isEmpty_eq_false_iff, isSome_defs_iff hlinked hx]
    have hused := (isUsed_iff_live hlinked (hsettled hbound).2 hstore).not
    unfold UseChains.isDead
    rw [hstores, hsite]
    simp only [Bool.not_false, Bool.true_and, Bool.and_eq_true, Bool.not_eq_true', hdefs,
      ← Bool.not_eq_true, hused, not_exists, not_and]

/-- In `tally` the addition is not dead, since it reads its own count around the loop. The load
is: no path leads from it to a reader of `x1`. -/
theorem analyze_isDead_iff_tally :
    ∃ report, tally.analyze { level := 2 } = .ok report ∧
      (∃ x, report.facts.record? ⟨1, 1⟩ = some x ∧ report.chains.isDead x = false) ∧
      (∃ x, report.facts.record? ⟨1, 0⟩ = some x ∧ report.chains.isDead x = true) ∧
      ¬ tally.Live { level := 2 } ⟨1, 0⟩ ⟨1⟩ := by
  obtain ⟨report, hreport, h⟩ := analyze_isDead_iff tally_built { level := 2 }
  obtain ⟨hrecords, hdead⟩ := h (Or.inl (by decide +kernel))
  have hround : tally.Path ⟨1, 1⟩ ([⟨1, 1⟩] ++ [⟨2, 0⟩] ++ [⟨1, 0⟩]) ⟨1, 1⟩ :=
    .next (.jump (b := 2) (.next (.jump (b := 1) (.next .stop (by decide)) (by decide))
      (by decide)) (by decide)) (by decide)
  have hlive : tally.Live { level := 2 } ⟨1, 1⟩ ⟨0⟩ :=
    ⟨⟨1, 1⟩, [⟨2, 0⟩, ⟨1, 0⟩], by decide, hround, by decide⟩
  obtain ⟨x, hx⟩ := Option.isSome_iff_exists.mp ((hrecords ⟨1, 1⟩).trans rfl)
  obtain ⟨y, hy⟩ := Option.isSome_iff_exists.mp ((hrecords ⟨1, 0⟩).trans rfl)
  have hload : report.chains.isDead y = true := by
    have hrun : (match tally.analyze { level := 2 } with
      | .ok report => (report.facts.record? ⟨1, 0⟩).any report.chains.isDead
      | .error _ => false) = true := by decide +kernel
    rw [hreport] at hrun
    dsimp only at hrun
    rwa [hy, Option.any_some] at hrun
  refine ⟨report, hreport, ⟨x, hx, ?_⟩, ⟨y, hy, hload⟩, ?_⟩
  · refine Bool.eq_false_iff.mpr fun hadd => ?_
    exact ((hdead ⟨1, 1⟩ x _ hx rfl rfl).mp hadd).2 ⟨0⟩ (by decide) hlive
  · exact ((hdead ⟨1, 0⟩ y _ hy rfl rfl).mp hload).2 ⟨1⟩ (by decide)

end FlowGraph

end ReachingDefs
