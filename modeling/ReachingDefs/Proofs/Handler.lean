import ReachingDefs.Analysis.Passes
import ReachingDefs.Proofs.Point

/-!
# Handlers have all of their effects or none

A handler is code that acts on the facts step by step and may give up on the way. Two things
are shown of every handler, for whatever operands, condition and writeback. If it gives up,
the facts and the log are exactly as it found them (`Opcode.unchanged_of_handler`). Otherwise
it has carried out the effects of its operation, in their order (`Opcode.on_handler`).

For most handlers the two are one: they look at their operands, and do the rest without
giving up. Calls also look at the record of their instruction, and the call through a register
does so when it has read that register already. It gives up there if there is no record, and
then there was none to note the read in.
-/

namespace ReachingDefs

/-! ## Work, opened once -/

namespace Work

variable {α β : Type} {w : Facts × List Event}

@[simp] theorem on_pure (a : α) : (pure a : Work α).on w = (some a, w) := rfl

theorem on_bind_of_some {x : Work α} {k : α → Work β} {a : α} {w' : Facts × List Event}
    (h : x.on w = (some a, w')) : (x >>= k).on w = (k a).on w' := by
  have hx : x w = (some a, w') := h
  show (x >>= k) w = k a w'
  simp only [bind, OptionT.bind, OptionT.mk, StateT.bind, hx]

theorem on_addressOf_bind (o : Site) (k : UInt64 → Work β) (f : Facts) (log : List Event) :
    (addressOf o >>= k).on (f, log) = (expect (f.address? o) >>= k).on (f, log) := rfl

end Work

/-! ## Effects carried out on the facts -/

namespace Facts

/-- Carries out one effect at `o`, and says what is reported. -/
def perform (f : Facts) (o : Site) : Effect → Facts × List Event
  | .use r => f.useReg o r
  | .load place dst => f.useMem o place dst
  | .define r v => f.defReg o r v
  | .store place src => f.defMem o place src

/-- Carries out effects in order. -/
def performAll (o : Site) : List Effect → Facts → Facts × List Event
  | [], f => (f, [])
  | e :: es, f =>
    let (f, log) := f.perform o e
    let (f, rest) := performAll o es f
    (f, log ++ rest)

theorem record?_onExposed (f : Facts) (b : BlockId) (change : Exposed → Exposed) (o : Site) :
    (f.onExposed b change).record? o = f.record? o := by
  unfold record? block onExposed
  rw [Array.getD_eq_getD_getElem?, Array.getD_eq_getD_getElem?, Array.getElem?_modify]
  split
  · cases f.blocks[o.block]? <;> rfl
  · rfl

theorem record?_onCurrent (f : Facts) (change : Exposed → Exposed) (o : Site) :
    (f.onCurrent change).record? o = f.record? o := by
  unfold onCurrent
  split
  · exact record?_onExposed ..
  · rfl

theorem record?_onRecord (f : Facts) (o q : Site) (change : Record → Record) :
    (f.onRecord o change).record? q = if q = o then (f.record? q).map change else f.record? q := by
  obtain ⟨b, j⟩ := o
  obtain ⟨c, k⟩ := q
  unfold record? block onRecord
  rw [Array.getD_eq_getD_getElem?, Array.getD_eq_getD_getElem?, Array.getElem?_modify]
  by_cases hb : b = c
  · subst hb
    cases f.blocks[b]? with
    | none => simp
    | some x =>
        by_cases hj : j = k
        · subst hj
          cases hslot : x.slots[j]? with
          | none => simp [hslot]
          | some slot => cases slot <;> simp [hslot]
        · simp [hj, Ne.symm hj]
  · simp [hb, Ne.symm hb]

/-- There is nothing to change where there is no record. -/
theorem onRecord_of_record?_eq_none {f : Facts} {o : Site} (h : f.record? o = none)
    (change : Record → Record) : f.onRecord o change = f := by
  obtain ⟨b, j⟩ := o
  have hblocks : (f.blocks.modify b fun x =>
      { x with slots := x.slots.modify j (·.map change) }) = f.blocks := by
    refine Array.ext_getElem? fun d => ?_
    rw [Array.getElem?_modify]
    split
    · rename_i hd
      subst hd
      cases hx : f.blocks[b]? with
      | none => rfl
      | some x =>
          have hempty : x.slots[j]?.join = none := by
            unfold record? block at h
            rw [Array.getD_eq_getD_getElem?, hx] at h
            exact h
          have hslots : x.slots.modify j (·.map change) = x.slots := by
            refine List.ext_getElem? fun k => ?_
            rw [List.getElem?_modify]
            split
            · rename_i hk
              subst hk
              cases hslot : x.slots[j]? with
              | none => rfl
              | some slot =>
                  rw [hslot] at hempty
                  obtain rfl : slot = none := hempty
                  rfl
            · exact Option.map_id_apply
          rw [Option.map_some, hslots]
    · rfl
  unfold onRecord
  rw [hblocks]

/-- `P` is kept by the single steps that effects are made of. A record may change, but not
which instruction it is about. -/
structure StepClosed (P : Facts → Prop) : Prop where
  onRecord : ∀ {f : Facts} (o : Site) {change : Record → Record},
    (∀ x, (change x).head = x.head) → P f → P (f.onRecord o change)
  setReg : ∀ {f : Facts} (r : Register) (o : Site), P f → P (f.setReg r o)
  setMem : ∀ {f : Facts} (place : Value) (o : Site), P f → P (f.setMem place o).1
  dropBase : ∀ {f : Facts} (r : Register), P f → P (f.dropBase r).1

/-- **What the single steps keep, every effect keeps.** -/
theorem StepClosed.perform {P : Facts → Prop} (hP : StepClosed P) {f : Facts} (hf : P f) (o : Site)
    (e : Effect) : P (f.perform o e).1 := by
  cases e with
  | use r =>
      dsimp only [Facts.perform, useReg, linkReg]
      split
      · exact hf
      · dsimp only
        split
        · exact hP.onRecord o (fun x => x.head_linkReg _ r) hf
        · exact hf
  | load place dst =>
      dsimp only [Facts.perform, useMem, linkMem]
      split
      · split
        · exact hP.onRecord o (fun x => x.head_linkMem _ place dst) hf
        · exact hf
      · exact hf
  | define r v =>
      have hset : P ((f.onRecord o (·.addDef r v)).setReg r o) :=
        hP.setReg r o (hP.onRecord o (fun _ => rfl) hf)
      dsimp only [Facts.perform, defReg]
      split
      · exact hf
      · split
        · exact hP.dropBase r hset
        · exact hset
  | store place src =>
      dsimp only [Facts.perform, defMem]
      split
      · exact hP.onRecord o (fun x => x.head_addMemDef src place) (hP.setMem place o hf)
      · exact hf

theorem StepClosed.performAll {P : Facts → Prop} (hP : StepClosed P) {f : Facts} (hf : P f)
    (o : Site) (es : List Effect) : P (f.performAll o es).1 := by
  induction es generalizing f with
  | nil => exact hf
  | cons e es ih => exact ih (hP.perform hf o e)

/-- No step moves an instruction to another address. -/
theorem stepClosed_address? (q : Site) (a? : Option UInt64) :
    StepClosed fun f => f.address? q = a? where
  onRecord {f} o change hchange hf := by
    have haddress : ∀ x, (change x).address = x.address := fun x => congrArg (·.2.1) (hchange x)
    rw [← hf]
    unfold address?
    rw [record?_onRecord]
    split
    · rw [Option.map_map]
      exact congrArg (fun h => Option.map h _) (funext haddress)
    · rfl
  setReg r o hf := by rw [← hf, setReg, address?, record?_onCurrent, address?]
  setMem place o hf := by rw [← hf, setMem, address?, record?_onCurrent, address?]
  dropBase r hf := by
    rw [← hf, dropBase]
    split
    · rw [address?, record?_onExposed, address?]
    · rfl

end Facts

namespace Work

def perform (o : Site) (e : Effect) : Work Unit := step (·.perform o e)

/-- Carries out effects, or gives up if there are none to carry out. -/
def attempt (o : Site) (es? : Option (List Effect)) : Work Unit := do
  forM (← expect es?) (perform o)

variable {o : Site} {w : Facts × List Event}

theorem on_perform (e : Effect) (f : Facts) (log : List Event) :
    (perform o e).on (f, log) = (some (), (f.perform o e).1, log ++ (f.perform o e).2) := rfl

theorem attempt_some (es : List Effect) : attempt o (some es) = forM es (perform o) := rfl

theorem on_forM_perform (es : List Effect) (f : Facts) (log : List Event) :
    (forM es (perform o)).on (f, log) =
      (some (), (f.performAll o es).1, log ++ (f.performAll o es).2) := by
  induction es generalizing f log with
  | nil => simp [Facts.performAll]
  | cons e es ih =>
      rw [List.forM_cons, on_bind_of_some (on_perform ..), ih, List.append_assoc]
      rfl

theorem on_attempt (es? : Option (List Effect)) (f : Facts) (log : List Event) :
    (attempt o es?).on (f, log) =
      match es? with
      | some es => (some (), (f.performAll o es).1, log ++ (f.performAll o es).2)
      | none => (none, f, log) := by
  cases es? with
  | none => rfl
  | some es => exact on_forM_perform es f log

/-- **Nothing is left of an attempt that is given up.** -/
theorem unchanged_of_attempt {es? : Option (List Effect)} (h : ((attempt o es?).on w).1 = none) :
    ((attempt o es?).on w).2 = w := by
  obtain ⟨f, log⟩ := w
  rw [on_attempt] at h ⊢
  cases es? with
  | none => rfl
  | some es => cases h

theorem forM_useAddress (m : MemOperand) :
    forM (Effect.useAddress m) (perform o) = useAddress o m := by
  unfold Effect.useAddress useAddress
  rw [List.forM_map]
  rfl

theorem forM_moveBase (m : MemOperand) (wb : Writeback) :
    forM (Effect.moveBase m wb) (perform o) = moveBase o m wb := by
  unfold Effect.moveBase moveBase
  cases m.update? wb <;> rfl

end Work

/-! ## One handler after another

Each looks at the shape of the operands, or at single operands, and is the attempt at the
effects of its operation. -/

/-- Operands have a shape with a name, and then they are known one by one, or they have none. -/
theorem OperandShape.of_cases {P : List Operand → Prop} (none : P [])
    (reg : ∀ r w, P [.reg r w]) (imm : ∀ n, P [.imm n])
    (regReg : ∀ r w r' w', P [.reg r w, .reg r' w']) (regImm : ∀ r w n, P [.reg r w, .imm n])
    (regShifted : ∀ r w r' w' shift, P [.reg r w, .shifted r' w' shift])
    (regSys : ∀ r w s, P [.reg r w, .sys s]) (regMem : ∀ r w m, P [.reg r w, .mem m])
    (regRegReg : ∀ r w r' w' r'' w'', P [.reg r w, .reg r' w', .reg r'' w''])
    (regRegImm : ∀ r w r' w' n, P [.reg r w, .reg r' w', .imm n])
    (regRegShifted : ∀ r w r' w' r'' w'' shift, P [.reg r w, .reg r' w', .shifted r'' w'' shift])
    (regRegMem : ∀ r w r' w' m, P [.reg r w, .reg r' w', .mem m])
    (regImmImm : ∀ r w n n', P [.reg r w, .imm n, .imm n'])
    (other : ∀ operands, of operands = .other → P operands) (operands : List Operand) :
    P operands := by
  by_cases hother : of operands = .other
  · exact other operands hother
  · unfold of at hother
    split at hother
    · exact none
    · exact reg _ _
    · exact imm _
    · exact regReg _ _ _ _
    · exact regImm _ _ _
    · exact regShifted _ _ _ _ _
    · exact regSys _ _ _
    · exact regMem _ _ _
    · exact regRegReg _ _ _ _ _ _
    · exact regRegImm _ _ _ _ _
    · exact regRegShifted _ _ _ _ _ _ _
    · exact regRegMem _ _ _ _ _
    · exact regImmImm _ _ _ _
    · exact absurd rfl hother

namespace Handler

open Work

variable {site : Site} {o : Operation}

theorem arithmetic_eq (op : BinOp) :
    arithmetic op site o = attempt site (Effect.arithmetic op o.operands) := by
  obtain ⟨opcode, operands, cond, writeback⟩ := o
  unfold arithmetic Operation.shape
  dsimp only
  cases operands using OperandShape.of_cases with
  | other operands h =>
      have hnone : Effect.arithmetic op operands = none := by
        unfold Effect.arithmetic
        split
        case h_4 => rfl
        all_goals cases h
      rw [h, hnone]
      rfl
  | _ => rfl

theorem compare_eq : compare site o = attempt site (Effect.compare o.operands) := by
  obtain ⟨opcode, operands, cond, writeback⟩ := o
  unfold compare comparedWith? Operation.shape
  dsimp only
  cases operands using OperandShape.of_cases with
  | other operands h =>
      have hnone : Effect.compare operands = none := by
        unfold Effect.compare
        split
        case h_4 => rfl
        all_goals cases h
      rw [h, hnone]
      cases Operation.regAt? _ 0 <;> rfl
  | _ => rfl

theorem loadMem_eq {dst : Register} {width : UInt8} {m : MemOperand} (width? : Option UInt8)
    (signed : Bool) (ho : o.operands = [.reg dst width, .mem m]) :
    loadMem width? signed site o =
      attempt site (some (Effect.loadOne o.writeback dst m (width?.getD width) signed)) := by
  obtain ⟨opcode, operands, cond, writeback⟩ := o
  subst ho
  rw [attempt_some, Effect.loadOne]
  simp only [List.forM_append, forM_useAddress, forM_moveBase, bind_assoc]
  rfl

theorem loadReg_eq (width? : Option UInt8) (signed : Bool) :
    loadReg width? signed site o =
      attempt site (Effect.loadReg o.writeback width? signed o.operands) := by
  obtain ⟨opcode, operands, cond, writeback⟩ := o
  unfold loadReg Operation.shape
  dsimp only
  cases operands using OperandShape.of_cases with
  | regMem => exact loadMem_eq width? signed rfl
  | other operands h =>
      have hnone : Effect.loadReg writeback width? signed operands = none := by
        unfold Effect.loadReg
        split
        case h_3 => rfl
        all_goals cases h
      rw [h, hnone]
      rfl
  | _ => rfl

theorem loadExclusive_eq :
    loadExclusive site o = attempt site (Effect.loadExclusive o.writeback o.operands) := by
  obtain ⟨opcode, operands, cond, writeback⟩ := o
  unfold loadExclusive Operation.shape
  dsimp only
  cases operands using OperandShape.of_cases with
  | regMem => exact loadMem_eq none false rfl
  | other operands h =>
      have hnone : Effect.loadExclusive writeback operands = none := by
        unfold Effect.loadExclusive
        split
        · cases h
        · rfl
      rw [h, hnone]
      rfl
  | _ => rfl

theorem loadPair_eq : loadPair site o = attempt site (Effect.loadPair o.writeback o.operands) := by
  obtain ⟨opcode, operands, cond, writeback⟩ := o
  unfold loadPair Operation.shape
  dsimp only
  cases operands using OperandShape.of_cases with
  | regRegMem =>
      rw [Effect.loadPair, attempt_some]
      simp only [List.forM_append, forM_useAddress, forM_moveBase, bind_assoc]
      rfl
  | other operands h =>
      have hnone : Effect.loadPair writeback operands = none := by
        unfold Effect.loadPair
        split
        · cases h
        · rfl
      rw [h, hnone]
      rfl
  | _ => rfl

theorem storeReg_eq : storeReg site o = attempt site (Effect.storeReg o.writeback o.operands) := by
  obtain ⟨opcode, operands, cond, writeback⟩ := o
  unfold storeReg Operation.shape
  dsimp only
  cases operands using OperandShape.of_cases with
  | regMem =>
      rw [Effect.storeReg, attempt_some]
      simp only [List.forM_append, List.forM_cons, forM_useAddress, forM_moveBase, bind_assoc]
      rfl
  | other operands h =>
      have hnone : Effect.storeReg writeback operands = none := by
        unfold Effect.storeReg
        split
        · cases h
        · rfl
      rw [h, hnone]
      rfl
  | _ => rfl

theorem storePair_eq :
    storePair site o = attempt site (Effect.storePair o.writeback o.operands) := by
  obtain ⟨opcode, operands, cond, writeback⟩ := o
  unfold storePair Operation.shape
  dsimp only
  cases operands using OperandShape.of_cases with
  | regRegMem =>
      rw [Effect.storePair, attempt_some]
      simp only [List.forM_append, List.forM_cons, forM_useAddress, forM_moveBase, bind_assoc]
      rfl
  | other operands h =>
      have hnone : Effect.storePair writeback operands = none := by
        unfold Effect.storePair
        split
        · cases h
        · rfl
      rw [h, hnone]
      rfl
  | _ => rfl

theorem move_eq : move site o = attempt site (Effect.move o.operands) := by
  obtain ⟨opcode, operands, cond, writeback⟩ := o
  unfold move Operation.shape
  dsimp only
  cases operands using OperandShape.of_cases with
  | other operands h =>
      have hnone : Effect.move operands = none := by
        unfold Effect.move
        split
        case h_3 => rfl
        all_goals cases h
      rw [h, hnone]
      rfl
  | _ => rfl

theorem choose_eq : choose site o = attempt site (Effect.choose o.cond o.operands) := by
  obtain ⟨opcode, operands, cond, writeback⟩ := o
  unfold choose Operation.shape
  dsimp only
  cases operands using OperandShape.of_cases with
  | other operands h =>
      have hnone : Effect.choose cond operands = none := by
        unfold Effect.choose
        split
        · cases h
        · rfl
      rw [h, hnone]
      rfl
  | _ => cases cond <;> rfl

theorem leave_eq : leave site o = attempt site (Effect.leave o.operands) := by
  obtain ⟨opcode, operands, cond, writeback⟩ := o
  unfold leave target? Operation.shape
  dsimp only
  cases operands using OperandShape.of_cases with
  | other operands h =>
      have hnone : Effect.leave operands = none := by
        unfold Effect.leave
        split
        case h_3 => rfl
        all_goals cases h
      rw [h, hnone]
      rfl
  | _ => rfl

theorem branchOn_regImm_eq :
    branchOn .regImm site o = attempt site (match o.operands with
      | [.reg a _, .imm _] => some [.use a]
      | _ => none) := by
  obtain ⟨opcode, operands, cond, writeback⟩ := o
  unfold branchOn Operation.shape
  dsimp only
  cases operands using OperandShape.of_cases with
  | other operands h =>
      rw [h, if_neg nofun]
      split
      · cases h
      · rfl
  | _ => rfl

theorem branchOn_regImmImm_eq :
    branchOn .regImmImm site o = attempt site (match o.operands with
      | [.reg a _, .imm _, .imm _] => some [.use a]
      | _ => none) := by
  obtain ⟨opcode, operands, cond, writeback⟩ := o
  unfold branchOn Operation.shape
  dsimp only
  cases operands using OperandShape.of_cases with
  | other operands h =>
      rw [h, if_neg nofun]
      split
      · cases h
      · rfl
  | _ => rfl

theorem signExtend_eq :
    signExtend site o = attempt site (match o.operands with
      | [.reg dst _, .reg a _] => some [.use a, .define dst (.sext (.read a 4) 32)]
      | _ => none) := by
  obtain ⟨opcode, operands, cond, writeback⟩ := o
  unfold signExtend Operation.shape
  dsimp only
  cases operands using OperandShape.of_cases with
  | other operands h =>
      rw [h, if_neg nofun]
      split
      · cases h
      · rfl
  | _ => rfl

/-- A call is the attempt at its effects, with the address that its record holds. -/
theorem on_call (f : Facts) (log : List Event) :
    (call site).on (f, log) =
      (attempt site ((f.address? site).map fun a => Effect.call (a + 4))).on (f, log) := by
  unfold call
  rw [on_addressOf_bind]
  cases f.address? site with
  | none => rfl
  | some a =>
      rw [Option.map_some, attempt_some, Effect.call, List.forM_append, List.forM_map]
      rfl

/-- **So is a call through a register**, although it reads the register before it asks for the
address: if there is no record to ask, there is none to note the read in either. -/
theorem on_use_call (target : Register) (f : Facts) (log : List Event) :
    (do use site target; call site : Work Unit).on (f, log) =
      (attempt site ((f.address? site).map fun a => .use target :: Effect.call (a + 4))).on
        (f, log) := by
  have hread : (use site target).on (f, log) = _ := on_perform (.use target) f log
  have haddress : (f.perform site (.use target)).1.address? site = f.address? site :=
    (Facts.stepClosed_address? site _).perform rfl site _
  rw [on_bind_of_some hread, on_call, haddress]
  cases ha : f.address? site with
  | some a =>
      rw [Option.map_some, Option.map_some, attempt_some, attempt_some, List.forM_cons,
        on_bind_of_some (on_perform ..)]
  | none =>
      have hnone : f.record? site = none := Option.map_eq_none_iff.mp ha
      have hsame : f.perform site (.use target) = (f, []) := by
        dsimp only [Facts.perform, Facts.useReg, Facts.linkReg]
        split
        · rfl
        · split
          · rw [f.onRecord_of_record?_eq_none hnone]
          · rfl
      rw [hsame, List.append_nil]
      rfl

end Handler

namespace Opcode

open Work Handler

variable {op : Opcode} {handler : Handler}

/-- **A handler is the attempt at the effects of its operation**, unless it is that of a call. -/
theorem handler_eq_attempt (h : op.handler? = some handler) (hbl : op ≠ .bl) (hblr : op ≠ .blr)
    (site : Site) (o : Operation) (returnTo : UInt64) :
    handler site o = attempt site ({ o with opcode := op }.effects returnTo) := by
  obtain ⟨opcode, operands, cond, writeback⟩ := o
  cases op
  case bl => exact absurd rfl hbl
  case blr => exact absurd rfl hblr
  case other => cases h
  all_goals obtain rfl := Option.some.inj h
  case add | sub | and | orr | lsl => exact arithmetic_eq _
  case ldr | ldrb | ldrh | ldrsb | ldrsh | ldrsw | ldur => exact loadReg_eq _ _
  case cmp => exact compare_eq
  case csel => exact choose_eq
  case ldaxr => exact loadExclusive_eq
  case ldp => exact loadPair_eq
  case mov => exact move_eq
  case ret => exact leave_eq
  case stp => exact storePair_eq
  case str | strb | strh => exact storeReg_eq
  case nop => rfl
  case b => cases cond <;> rfl
  -- these look at their first operands only, whatever stands behind them
  case br =>
    rcases operands with _ | ⟨x, rest⟩
    · rfl
    · cases x <;> rfl
  case adr | adrp | mrs =>
    rcases operands with _ | ⟨x, _ | ⟨y, rest⟩⟩
    · rfl
    · cases x <;> rfl
    · cases x <;> cases y <;> rfl
  case cbz | cbnz => exact branchOn_regImm_eq
  case tbz | tbnz => exact branchOn_regImmImm_eq
  case sxtw => exact signExtend_eq

/-- **Every handler attempts some effects**, and where there is a record they are those of its
operation. -/
theorem exists_attempt (h : op.handler? = some handler) (site : Site) (o : Operation) (f : Facts)
    (log : List Event) : ∃ es?, (handler site o).on (f, log) = (attempt site es?).on (f, log) ∧
      ∀ a, f.address? site = some a → es? = { o with opcode := op }.effects (a + 4) := by
  obtain ⟨opcode, operands, cond, writeback⟩ := o
  by_cases hcall : op = .bl ∨ op = .blr
  · rcases hcall with rfl | rfl
    all_goals
      obtain rfl := Option.some.inj h
      rcases operands with _ | ⟨x, rest⟩
      · exact ⟨none, rfl, fun _ _ => rfl⟩
    · cases x with
      | imm n => exact ⟨_, on_call f log, fun a ha => by rw [ha]; rfl⟩
      | _ => exact ⟨none, rfl, fun _ _ => rfl⟩
    · cases x with
      | reg target width =>
          have hdo : branchLinkReg site ⟨opcode, .reg target width :: rest, cond, writeback⟩ =
              (do use site target; call site) := rfl
          refine ⟨_, hdo ▸ on_use_call target f log, fun a ha => ?_⟩
          rw [ha]
          rfl
      | _ => exact ⟨none, rfl, fun _ _ => rfl⟩
  · obtain ⟨hbl, hblr⟩ := not_or.mp hcall
    refine ⟨_, congrArg (·.on (f, log)) (handler_eq_attempt h hbl hblr site _ 0), fun a _ => ?_⟩
    cases op
    case bl => exact absurd rfl hbl
    case blr => exact absurd rfl hblr
    all_goals rfl

/-- **Where there is a record, a handler carries out the effects of its operation**, or gives up
if the operands do not fit. -/
theorem on_handler (h : op.handler? = some handler) {f : Facts} {site : Site} {a : UInt64}
    (ha : f.address? site = some a) (o : Operation) (log : List Event) :
    (handler site o).on (f, log) =
      match { o with opcode := op }.effects (a + 4) with
      | some es => (some (), (f.performAll site es).1, log ++ (f.performAll site es).2)
      | none => (none, f, log) := by
  obtain ⟨es?, hon, hes⟩ := exists_attempt h site o f log
  rw [hon, ← hes a ha, on_attempt]

/-- **A handler that gives up has changed nothing**: the facts and the log are as it found
them, whether there is a record or not. -/
theorem unchanged_of_handler (h : op.handler? = some handler) {site : Site} {o : Operation}
    {w : Facts × List Event} (hnone : ((handler site o).on w).1 = none) :
    ((handler site o).on w).2 = w := by
  obtain ⟨es?, hon, _⟩ := exists_attempt h site o w.1 w.2
  rw [show (handler site o).on w = _ from hon] at hnone ⊢
  exact unchanged_of_attempt hnone

end Opcode

/-! ## Carrying out an instruction -/

theorem Opcode.isSome_handler? (op : Opcode) : op.handler?.isSome = op.isKnown := by
  cases op <;> rfl

theorem Settings.isSome_handler? (s : Settings) (o : Operation) :
    (s.handler? o).isSome = s.actsOn o := by
  unfold handler? actsOn
  cases s.isEnabled o.opcode with
  | false => rfl
  | true => exact o.opcode.isSome_handler?

theorem Settings.handler?_eq_some {s : Settings} {o : Operation} {handler : Handler}
    (h : s.handler? o = some handler) : o.opcode.handler? = some handler := by
  unfold handler? at h
  split at h
  · exact h
  · cases h

namespace Facts

variable {s : Settings} {f : Facts} {site : Site} {i : Instruction}

theorem fault_carryOut : (f.carryOut s site i).fault = none := by
  unfold carryOut
  split
  · rfl
  · split
    · rfl
    · split <;> rfl

/-- **Carrying out an instruction that has a record is carrying out its effects.** What is
reported about the instruction as a whole is reported instead of effects. -/
theorem carryOut_eq {p : Point} (hsite : p.record.site = site)
    (ha : f.address? site = some p.record.address) :
    f.carryOut s site i =
      { facts := (f.performAll site (s.effects i p.record.address)).1
        log := s.events i p ++ (f.performAll site (s.effects i p.record.address)).2 } := by
  unfold carryOut Settings.effects Settings.events
  cases i.operation with
  | none => rfl
  | some o =>
      dsimp only
      have hacts := s.isSome_handler? o
      cases hhandler : s.handler? o with
      | none =>
          rw [hhandler] at hacts
          simp [← hacts, hsite, performAll]
      | some handler =>
          rw [hhandler] at hacts
          have hon := Opcode.on_handler (Settings.handler?_eq_some hhandler) ha o []
          dsimp only
          rw [hon]
          cases o.effects (p.record.address + 4) with
          | none => simp [← hacts, hsite, performAll]
          | some es => simp [← hacts]

/-- What the single steps keep, carrying out an instruction keeps, record or not. -/
theorem StepClosed.carryOut {P : Facts → Prop} (hP : StepClosed P) (hf : P f) (s : Settings)
    (site : Site) (i : Instruction) : P (f.carryOut s site i).facts := by
  unfold Facts.carryOut
  split
  · exact hf
  · rename_i o _
    split
    · exact hf
    · rename_i handler hhandler
      obtain ⟨es?, hon, _⟩ :=
        Opcode.exists_attempt (Settings.handler?_eq_some hhandler) site o f []
      rw [hon, Work.on_attempt]
      cases es? with
      | none => exact hf
      | some es => exact hP.performAll hf site es

end Facts

end ReachingDefs
