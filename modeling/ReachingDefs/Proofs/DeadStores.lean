import ReachingDefs.Proofs.Coverage
import ReachingDefs.Proofs.Dead

/-!
# When a store is called dead

Nobody may remove a store because its registers are not read: what is stored may be read
elsewhere. The chains tell stores by the addresses in their records, and those are there only
if memory is tracked. With memory tracked no store is ever called dead. Without it a store
looks like any other instruction. Most stores set no register, so they are not called dead
either; but one that moves its base register does, and is called dead if nobody reads the base
again.
-/

namespace ReachingDefs

/-! ## What a store does -/

/-- The memory operand of a store, if its operands fit. -/
def Operation.storeTarget? (o : Operation) : Option MemOperand :=
  match o.opcode, o.operands with
  | .str, [.reg _ _, .mem m] | .strb, [.reg _ _, .mem m] | .strh, [.reg _ _, .mem m] => some m
  | .stp, [.reg _ _, .reg _ _, .mem m] => some m
  | _, _ => none

/-- The instruction is a store that is carried out and moves its base register `r`. -/
def Instruction.MovesBase (s : Settings) (i : Instruction) (r : Register) : Prop :=
  ∃ o m, i.operation = some o ∧ s.isEnabled o.opcode = true ∧ o.storeTarget? = some m ∧
    o.writeback ≠ .none ∧ m.base = r ∧ r.isZero = false

theorem Instruction.MovesBase.unique {s : Settings} {i : Instruction} {q r : Register}
    (hq : i.MovesBase s q) (hr : i.MovesBase s r) : q = r := by
  obtain ⟨o, m, ho, _, hm, _, rfl, _⟩ := hq
  obtain ⟨o', m', ho', _, hm', _, rfl, _⟩ := hr
  obtain rfl : o = o' := Option.some.inj (ho.symm.trans ho')
  obtain rfl : m = m' := Option.some.inj (hm.symm.trans hm')
  rfl

namespace Effect

theorem any_sets_moveBase {m : MemOperand} {w : Writeback} {r : Register} :
    (moveBase m w).any (sets r) = true ↔ w ≠ .none ∧ m.base = r ∧ r.isZero = false := by
  cases w <;> simp [moveBase, MemOperand.update?, sets] <;> grind

@[simp] theorem sets_use (r q : Register) : (use q).sets r = false := rfl

@[simp] theorem sets_store (r : Register) (place : Value) (src : Register) :
    (store place src).sets r = false := rfl

theorem any_sets_useAddress (m : MemOperand) (r : Register) :
    (useAddress m).any (sets r) = false := by
  simp [useAddress]

end Effect

namespace Operation

open Effect

variable {o : Operation} {m : MemOperand}

/-- A store whose operands fit stores something, and sets the base that it moves and nothing
else. -/
theorem effects_of_storeTarget (h : o.storeTarget? = some m) (returnTo : UInt64) :
    ∃ es, o.effects returnTo = some es ∧ es.any isStore = true ∧
      ∀ r, es.any (sets r) = (moveBase m o.writeback).any (sets r) := by
  unfold storeTarget? at h
  split at h <;> cases h
  all_goals
    rename_i hop hoperands
    unfold effects
    rw [hop]
    dsimp only
    rw [hoperands]
    refine ⟨_, rfl, ?_, fun r => ?_⟩
    · simp [isStore]
    · simp only [List.any_append, List.any_cons, List.any_nil, sets_use, sets_store,
        any_sets_useAddress, Bool.false_or]

theorem effects_eq_none_of_storeTarget (hstore : o.opcode.isStore = true)
    (h : o.storeTarget? = none) (returnTo : UInt64) : o.effects returnTo = none := by
  obtain ⟨opcode, operands, cond, writeback⟩ := o
  cases opcode <;> simp only [Opcode.isStore, Bool.false_eq_true] at hstore
  all_goals
    unfold effects storeReg storePair
    unfold storeTarget? at h
    grind

end Operation

/-! ## What the store at a site does -/

variable {s : Settings} {i : Instruction} {op : Operation}

open Effect in
/-- A store that is carried out stores something, and sets the base that it moves. -/
theorem Settings.effects_of_storeTarget {m : MemOperand} (hop : i.operation = some op)
    (hon : s.isEnabled op.opcode = true) (hm : op.storeTarget? = some m) (address : UInt64) :
    (s.effects i address).any isStore = true ∧
      ∀ r, (s.effects i address).any (sets r) = (moveBase m op.writeback).any (sets r) := by
  obtain ⟨es, hes, hstore, hsets⟩ := op.effects_of_storeTarget hm (address + 4)
  rw [Settings.effects_of_operation hop hon hes]
  exact ⟨hstore, hsets⟩

theorem Instruction.movesBase_iff {r : Register} (hop : i.operation = some op) :
    i.MovesBase s r ↔ s.isEnabled op.opcode = true ∧ ∃ m, op.storeTarget? = some m ∧
      op.writeback ≠ .none ∧ m.base = r ∧ r.isZero = false := by
  simp [MovesBase, hop]

namespace FlowGraph

variable {g : FlowGraph} {o : Site} {r : Register}

theorem any_isStore_of_movesBase (hi : g.instruction? o = some i) (h : i.MovesBase s r) :
    (g.effectsAt s o).any Effect.isStore = true := by
  obtain ⟨op, m, hop, hon, hm, _⟩ := h
  rw [effectsAt_of_instruction hi]
  exact (Settings.effects_of_storeTarget hop hon hm _).1

/-- **A store sets its base, if it moves it, and nothing else.** -/
theorem sets_store_iff (hi : g.instruction? o = some i) (hstore : i.isStore = true) :
    g.sets s o r = true ↔ i.MovesBase s r := by
  obtain ⟨op, hop, hopcode⟩ := (Option.any_eq_true ..).mp hstore
  unfold sets
  rw [effectsAt_of_instruction hi, Instruction.movesBase_iff hop]
  by_cases hon : s.isEnabled op.opcode = true
  · cases hm : op.storeTarget? with
    | none =>
        -- not even the base is moved if some operand does not fit
        have hmisfit := op.effects_eq_none_of_storeTarget hopcode hm (i.address + 4)
        simp [Settings.effects, hop, hmisfit]
    | some m =>
        rw [(Settings.effects_of_storeTarget hop hon hm _).2, Effect.any_sets_moveBase]
        simp [hon]
  · simp [Settings.effects, Settings.actsOn, hop, hon]

/-! ## Dead stores -/

variable {options : Options} {x : Record}

/-- Without memory tracked, records have no memory side. -/
theorem mem_eq_none_of_registers (hg : g.Linked) (ht : options.tracking = .registers)
    (hx : (g.run options).facts.record? o = some x) : x.mem = none := by
  obtain ⟨hfits, htracking⟩ := run_fits hg options
  obtain ⟨_, _, hhead⟩ := hfits.record o x hx
  rw [htracking, ht] at hhead
  have hmemory : x.mem.isSome = false := congrArg (·.2.2) hhead
  simpa using hmemory

/-- The record of a store that moves its base fails to tell that it is one exactly if memory is
not tracked. -/
theorem stores_eq_false_iff_of_movesBase (hg : g.Linked) (hi : g.instruction? o = some i)
    (h : i.MovesBase options.toSettings r) (hx : (g.run options).facts.record? o = some x) :
    x.stores = false ↔ options.tracking = .registers := by
  constructor
  · intro hstores
    obtain ⟨s, tracking⟩ := options
    cases tracking with
    | registers => rfl
    | registersAndMemory =>
        rw [(run_loadsGenuine hg s).stores hx (any_isStore_of_movesBase hi h)] at hstores
        cases hstores
  · intro ht
    unfold Record.stores
    rw [mem_eq_none_of_registers hg ht hx]
    rfl

/-- **The chains call a store dead** only without memory tracked, and then if it moves its base
and has no use. -/
theorem isDead_store_iff (hg : g.Linked) (hi : g.instruction? o = some i)
    (hstore : i.isStore = true) (hx : (g.run options).facts.record? o = some x) :
    (UseChains.ofFacts (g.run options).facts).isDead x = true ↔
      options.tracking = .registers ∧ (∃ r, i.MovesBase options.toSettings r) ∧
        (UseChains.ofFacts (g.run options).facts).isUsed o = false := by
  have hsite : x.site = o := (run_fits hg options).1.placed o x hx
  have hdefs : x.defs.isEmpty = false ↔ ∃ r, i.MovesBase options.toSettings r := by
    simp only [RegTable.isEmpty_eq_false_iff, isSome_defs_iff hg hx, sets_store_iff hi hstore]
  unfold UseChains.isDead
  rw [hsite]
  simp only [Bool.and_eq_true, Bool.not_eq_true', hdefs, and_assoc]
  -- only a store that sets a register has to be told from other instructions
  constructor
  · rintro ⟨hstores, ⟨r, hr⟩, hunused⟩
    exact ⟨(stores_eq_false_iff_of_movesBase hg hi hr hx).mp hstores, ⟨r, hr⟩, hunused⟩
  · rintro ⟨ht, ⟨r, hr⟩, hunused⟩
    exact ⟨(stores_eq_false_iff_of_movesBase hg hi hr hx).mpr ht, ⟨r, hr⟩, hunused⟩

/-- Without memory tracked a store is used exactly if the base that it moves can be read. -/
theorem isUsed_store_iff (hg : g.Linked) (ht : options.tracking = .registers)
    (hsettled : ∀ b, b < g.size → (g.run options).facts.Settled g options.toSettings b)
    (hi : g.instruction? o = some i) (hstore : i.isStore = true) :
    (UseChains.ofFacts (g.run options).facts).isUsed o = true ↔
      ∃ r, i.MovesBase options.toSettings r ∧ g.Live options.toSettings o r := by
  rw [isUsed_iff_live_of_not_loaded hg hsettled fun q x r hx => ?_]
  · simp only [sets_store_iff hi hstore]
  · unfold Record.memOrigins Record.memRef?
    rw [mem_eq_none_of_registers hg ht hx]
    exact List.not_mem_nil

/-- **When a store is called dead**: never while memory is tracked, and otherwise if it moves its
base and has no use. If the bound on the passes suffices, then that means that nobody can read
the base before it is set again. -/
theorem analyze_isDead_store_iff (hg : g.Built) (options : Options) :
    ∃ report, g.analyze options = .ok report ∧
      ∀ o i, g.instruction? o = some i → i.isStore = true →
        ∃ x, report.facts.record? o = some x ∧
          (report.chains.isDead x = true ↔ options.tracking = .registers ∧
            (∃ r, i.MovesBase options.toSettings r) ∧ report.chains.isUsed o = false) ∧
          (g.BoundSuffices options report →
            (report.chains.isDead x = true ↔ options.tracking = .registers ∧
              ∃ r, i.MovesBase options.toSettings r ∧ ¬ g.Live options.toSettings o r)) := by
  have hlinked := built_linked hg
  obtain ⟨report, hreport, _, hsettled⟩ := analyze_settles hlinked options
  obtain rfl := Except.ok.inj ((analyze_eq hlinked options).symm.trans hreport)
  refine ⟨_, hreport, fun o i hi hstore => ?_⟩
  obtain ⟨x, hx⟩ : ∃ x, (g.run options).facts.record? o = some x := by
    rw [← Option.isSome_iff_exists, isSome_record?_run hlinked, hi]
    rfl
  have hdead := isDead_store_iff hlinked hi hstore hx
  refine ⟨x, hx, hdead, fun hbound => hdead.trans (and_congr_right fun ht => ?_)⟩
  have hused := (isUsed_store_iff hlinked ht (hsettled hbound).2 hi hstore).not
  rw [Bool.not_eq_true] at hused
  rw [hused]
  constructor
  · rintro ⟨⟨r, hr⟩, hunread⟩
    exact ⟨r, hr, fun hlive => hunread ⟨r, hr, hlive⟩⟩
  · rintro ⟨r, hr, hnot⟩
    refine ⟨⟨r, hr⟩, ?_⟩
    -- there is no second register that the store could move
    rintro ⟨q, hq, hlive⟩
    exact hnot (hr.unique hq ▸ hlive)

/-- Moves `x2` on by eight bytes and stores `r` there. -/
def push (r : Register) (address : UInt64) : Instruction :=
  .decoded address
    { opcode := .str, operands := [.x r, .based ⟨2⟩ 8], writeback := .preIndex }

/-- Two pushes, of which the second reads the `x2` that the first has moved. -/
def pushes : FlowGraph := empty.addBlock [push ⟨1⟩ 0x100, push ⟨3⟩ 0x104]

theorem pushes_built : pushes.Built := Built.empty.addBlock _

/-- Without memory tracked, only the second of two pushes is called dead: nothing reads what it
leaves in `x2`. With memory tracked it is not. -/
theorem analyze_isDead_store_iff_pushes :
    (∃ report x y, pushes.analyze { level := 1, tracking := .registers } = .ok report ∧
      report.facts.record? ⟨0, 0⟩ = some x ∧ report.chains.isDead x = false ∧
      report.facts.record? ⟨0, 1⟩ = some y ∧ report.chains.isDead y = true ∧
      ¬ pushes.Live { level := 1 } ⟨0, 1⟩ ⟨2⟩) ∧
    ∃ report y, pushes.analyze { level := 1 } = .ok report ∧
      report.facts.record? ⟨0, 1⟩ = some y ∧ report.chains.isDead y = false := by
  have hmoves : ∀ r address, (push r address).MovesBase { level := 1 } ⟨2⟩ := fun r address =>
    ⟨_, ⟨⟨2⟩, none, 8⟩, rfl, rfl, rfl, nofun, rfl, rfl⟩
  constructor
  · obtain ⟨report, hreport, h⟩ :=
      analyze_isDead_store_iff pushes_built { level := 1, tracking := .registers }
    have hbound : pushes.BoundSuffices { level := 1, tracking := .registers } report :=
      Or.inl (by decide +kernel)
    obtain ⟨x, hx, _, hfirst⟩ := h ⟨0, 0⟩ (push ⟨1⟩ 0x100) rfl rfl
    obtain ⟨y, hy, hsecond, hsecond'⟩ := h ⟨0, 1⟩ (push ⟨3⟩ 0x104) rfl rfl
    have hlive : pushes.Live { level := 1 } ⟨0, 0⟩ ⟨2⟩ :=
      ⟨⟨0, 1⟩, [], by decide, .next .stop (by decide), by decide⟩
    have hunused : report.chains.isUsed ⟨0, 1⟩ = false := by
      have hrun : (match pushes.analyze { level := 1, tracking := .registers } with
        | .ok report => report.chains.isUsed ⟨0, 1⟩
        | .error _ => true) = false := by decide +kernel
      rwa [hreport] at hrun
    have hdead : report.chains.isDead y = true := hsecond.mpr ⟨rfl, ⟨⟨2⟩, hmoves ..⟩, hunused⟩
    refine ⟨report, x, y, hreport, hx, ?_, hy, hdead, ?_⟩
    · refine Bool.eq_false_iff.mpr fun hx => ?_
      obtain ⟨_, r, hr, hnot⟩ := (hfirst hbound).mp hx
      exact hnot ((hmoves ..).unique hr ▸ hlive)
    · obtain ⟨_, r, hr, hnot⟩ := (hsecond' hbound).mp hdead
      exact (hmoves ..).unique hr ▸ hnot
  · obtain ⟨report, hreport, h⟩ := analyze_isDead_store_iff pushes_built { level := 1 }
    obtain ⟨y, hy, hdead, _⟩ := h ⟨0, 1⟩ (push ⟨3⟩ 0x104) rfl rfl
    refine ⟨report, y, hreport, hy, Bool.eq_false_iff.mpr fun hy => ?_⟩
    cases (hdead.mp hy).1

/-- One push, after which nothing reads `x2`. -/
def pushed : FlowGraph := empty.addBlock [push ⟨1⟩ 0x100]

/-- **Stores can be called dead**: without memory tracked, the only instruction of `pushed` is. -/
theorem store_called_dead :
    pushed.Built ∧ (push ⟨1⟩ 0x100).isStore = true ∧
      pushed.instruction? ⟨0, 0⟩ = some (push ⟨1⟩ 0x100) ∧
      ∃ report x, pushed.analyze { level := 16, tracking := .registers } = .ok report ∧
        report.facts.record? ⟨0, 0⟩ = some x ∧ report.chains.isDead x = true := by
  have hrun : (match pushed.analyze { level := 16, tracking := .registers } with
    | .ok report => (report.facts.record? ⟨0, 0⟩).any report.chains.isDead
    | .error _ => false) = true := by decide +kernel
  refine ⟨Built.empty.addBlock _, by decide, by decide, ?_⟩
  split at hrun
  · obtain ⟨x, hx, hdead⟩ := (Option.any_eq_true ..).mp hrun
    exact ⟨_, x, by assumption, hx, hdead⟩
  · cases hrun

end FlowGraph

end ReachingDefs
