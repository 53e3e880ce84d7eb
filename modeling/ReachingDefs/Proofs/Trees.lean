import ReachingDefs.Proofs.Point

/-!
# The registers in the trees

A record describes what its instruction computes by trees over registers, and says for the
registers where their values come from. So a tree can be resolved further only if the record
has the origins of every register in it. Trees and reads are written down separately, for every
form of every operation, so this is a fact to be checked: each register in a tree is among
those that the operation reads (`Operation.effects_sourced`).

The one exception is the read of a system register, which sets a register to a tree that it
does not note as read.
-/

namespace ReachingDefs

variable {q : Register}

/-! ## Registers in trees -/

namespace Value

/-- Does `q` occur in the tree? -/
def mentions (q : Register) : Value → Bool
  | reg r _ => r = q
  | const _ | addr _ | undef => false
  | deref place _ => place.mentions q
  | sext v _ | zext v _ => v.mentions q
  | binary _ left right => left.mentions q || right.mentions q
  | select _ yes no => yes.mentions q || no.mentions q

/-- Reading a register brings it into a tree exactly if it counts as read: not so for the zero
register. -/
theorem mentions_read (r : Register) (width : UInt8) :
    (read r width).mentions q = (Effect.use r).reads q := by
  unfold read
  split
  · rename_i hr
    simp [mentions, Effect.reads, hr]
  · rename_i hr
    simp [mentions, Effect.reads, hr]

theorem mentions_shiftBy (op : BinOp) (v : Value) (amount : UInt8) :
    (shiftBy op v amount).mentions q = v.mentions q := by
  unfold shiftBy
  split <;> simp [mentions]

theorem mentions_extend (v : Value) (kind : ShiftKind) :
    (v.extend kind).mentions q = v.mentions q := by
  unfold extend
  split
  · split
    · split <;> rfl
    · rfl
  · rfl

/-- Shifts and extensions bring in no register. -/
theorem mentions_shifted (v : Value) (shift : Shift) :
    (v.shifted shift).mentions q = v.mentions q := by
  unfold shifted
  split <;> simp [mentions_shiftBy, mentions_extend]

end Value

namespace MemOperand

/-- The registers in an address are those that it is computed from. -/
theorem mentions_place (m : MemOperand) (hq : q.isZero = false) :
    m.place.mentions q = (Effect.useAddress m).any (Effect.reads q) := by
  have hbase : (Value.reg m.base 8).mentions q = (Effect.use m.base).reads q := by
    by_cases h : m.base = q
    · simp [Value.mentions, Effect.reads, h, hq]
    · simp [Value.mentions, Effect.reads, h]
  have hoffset : m.offset.mentions q = (m.index.map fun x => (Effect.use x.1).reads q).getD false := by
    unfold offset
    split
    · rename_i h
      simp [h, Value.mentions]
    · rename_i h
      simp [h, Value.mentions_read]
    · rename_i h
      simp [h, Value.mentions_shifted, Value.mentions_read]
  unfold place
  rw [Value.mentions, hbase, hoffset]
  unfold Effect.useAddress registers
  cases m.index <;> simp

theorem mentions_nextPlace (m : MemOperand) (width : UInt8) :
    (m.nextPlace width).mentions q = m.place.mentions q := by
  simp [nextPlace, Value.mentions]

/-- A base is moved within the registers of its address. -/
theorem mentions_update? {m : MemOperand} {w : Writeback} {v : Value} (h : m.update? w = some v)
    (hv : v.mentions q = true) : m.place.mentions q = true := by
  cases w with
  | none => cases h
  | preIndex =>
      obtain rfl := Option.some.inj h
      exact hv
  | postIndex amount =>
      obtain rfl := Option.some.inj h
      have hbase : m.base = q := by simpa [Value.mentions] using hv
      simp [place, Value.mentions, hbase]

end MemOperand

/-! ## The trees of an operation -/

namespace Effect

/-- The tree that the effect has computed: a value to set a register to, or an address to store
to. -/
def tree : Effect → Option Value
  | define _ v => some v
  | store place _ => some place
  | _ => none

/-- The registers in the trees of these effects are read by them. -/
def Sourced (es : List Effect) : Prop :=
  ∀ e ∈ es, ∀ v, e.tree = some v → ∀ q : Register, q.isZero = false → v.mentions q = true →
    es.any (reads q) = true

@[simp] theorem reads_define (r : Register) (v : Value) : (define r v).reads q = false := rfl

/-- Registers are read and one is set, to a tree over what was read. -/
theorem sourced_of_uses (rs : List Register) {dst : Register} {v : Value}
    (h : ∀ q, v.mentions q = true → (rs.map use).any (reads q) = true) :
    Sourced (rs.map use ++ [define dst v]) := by
  intro e he u hu q _ hq
  rcases List.mem_append.mp he with he | he
  · obtain ⟨r, _, rfl⟩ := List.mem_map.mp he
    cases hu
  · obtain rfl := List.mem_singleton.mp he
    obtain rfl := Option.some.inj hu
    rw [List.any_append, h q hq, Bool.true_or]

theorem sourced_arithmetic {op : BinOp} {xs : List Operand} {es : List Effect}
    (h : arithmetic op xs = some es) : Sourced es := by
  unfold arithmetic at h
  split at h <;> cases h
  · rename_i a _ _
    exact sourced_of_uses [a] (by simp [Value.mentions, Value.mentions_read])
  · rename_i a _ b _
    exact sourced_of_uses [a, b] (by simp [Value.mentions, Value.mentions_read])
  · rename_i a _ b _ _
    exact sourced_of_uses [a, b]
      (by simp [Value.mentions, Value.mentions_read, Value.mentions_shifted])

theorem sourced_compare {xs : List Operand} {es : List Effect} (h : compare xs = some es) :
    Sourced es := by
  unfold compare at h
  split at h <;> cases h
  · rename_i a _ _
    exact sourced_of_uses [a] (by simp [Value.mentions, Value.mentions_read])
  · rename_i a _ b _
    exact sourced_of_uses [a, b] (by simp [Value.mentions, Value.mentions_read])
  · rename_i a _ b _ _
    exact sourced_of_uses [a, b]
      (by simp [Value.mentions, Value.mentions_read, Value.mentions_shifted])

theorem sourced_move {xs : List Operand} {es : List Effect} (h : move xs = some es) :
    Sourced es := by
  unfold move at h
  split at h <;> cases h
  · rename_i a _
    exact sourced_of_uses [a] (by simp [Value.mentions_read])
  · exact sourced_of_uses [] (by simp [Value.mentions])

/-- A choice reads the flags too, which are not in its tree. -/
theorem sourced_choose {cond : Option Condition} {xs : List Operand} {es : List Effect}
    (h : choose cond xs = some es) : Sourced es := by
  unfold choose at h
  split at h <;> cases h
  rename_i a _ b _
  refine sourced_of_uses [a, b, .nzcv] fun q hq => ?_
  rw [Value.mentions, Value.mentions_read, Value.mentions_read, Bool.or_eq_true] at hq
  rcases hq with hq | hq <;> simp [hq]

theorem mentions_loaded (place : Value) (width : UInt8) (signed : Bool) :
    (loaded place width signed).mentions q = place.mentions q := by
  unfold loaded
  split <;> rfl

/-- An access to memory reads the registers of its address, so it is enough that its trees
have no others. -/
theorem sourced_of_place {m : MemOperand} {es : List Effect} (hsub : useAddress m ⊆ es)
    (h : ∀ e ∈ es, ∀ v, e.tree = some v → ∀ q, v.mentions q = true → m.place.mentions q = true) :
    Sourced es := by
  intro e he v hv q hq hmentions
  have hread := h e he v hv q hmentions
  rw [m.mentions_place hq] at hread
  obtain ⟨u, hu, hreads⟩ := List.any_eq_true.mp hread
  exact List.any_eq_true.mpr ⟨u, hsub hu, hreads⟩

theorem mentions_moveBase {m : MemOperand} {w : Writeback} {e : Effect} (he : e ∈ moveBase m w)
    {v : Value} (hv : e.tree = some v) (hq : v.mentions q = true) : m.place.mentions q = true := by
  obtain ⟨u, hu, rfl⟩ : ∃ u, m.update? w = some u ∧ define m.base u = e := by
    simpa [moveBase] using he
  obtain rfl : u = v := Option.some.inj hv
  exact MemOperand.mentions_update? hu hq

theorem tree_useAddress {m : MemOperand} {e : Effect} (he : e ∈ useAddress m) : e.tree = none := by
  obtain ⟨r, _, rfl⟩ := List.mem_map.mp he
  rfl

theorem sourced_loadOne (w : Writeback) (dst : Register) (m : MemOperand) (width : UInt8)
    (signed : Bool) : Sourced (loadOne w dst m width signed) := by
  refine sourced_of_place (m := m) (fun e he => by simp [loadOne, he]) fun e he v hv q hq => ?_
  simp only [loadOne, List.mem_append, List.mem_cons, List.not_mem_nil, or_false] at he
  rcases he with (he | rfl | rfl) | he
  · rw [tree_useAddress he] at hv
    cases hv
  · cases hv
  · obtain rfl := Option.some.inj hv
    rwa [mentions_loaded] at hq
  · exact mentions_moveBase he hv hq

theorem sourced_loadReg {w : Writeback} {width? : Option UInt8} {signed : Bool}
    {xs : List Operand} {es : List Effect} (h : loadReg w width? signed xs = some es) :
    Sourced es := by
  unfold loadReg at h
  split at h <;> cases h
  · exact sourced_loadOne w _ _ _ _
  · -- a fixed address has no registers in it
    intro e he v hv q _ hmentions
    obtain rfl := List.mem_singleton.mp he
    obtain rfl := Option.some.inj hv
    simp [mentions_loaded, Value.mentions] at hmentions

theorem sourced_loadExclusive {w : Writeback} {xs : List Operand} {es : List Effect}
    (h : loadExclusive w xs = some es) : Sourced es := by
  unfold loadExclusive at h
  split at h <;> cases h
  exact sourced_loadOne w _ _ _ _

theorem sourced_loadPair {w : Writeback} {xs : List Operand} {es : List Effect}
    (h : loadPair w xs = some es) : Sourced es := by
  unfold loadPair at h
  split at h <;> cases h
  rename_i a width b _ m
  refine sourced_of_place (m := m) (fun e he => by simp [he]) fun e he v hv q hq => ?_
  simp only [List.mem_append, List.mem_cons, List.not_mem_nil, or_false] at he
  rcases he with (he | rfl | rfl | rfl | rfl) | he
  · rw [tree_useAddress he] at hv
    cases hv
  · cases hv
  · cases hv
  · obtain rfl := Option.some.inj hv
    rwa [mentions_loaded] at hq
  · obtain rfl := Option.some.inj hv
    rwa [mentions_loaded, MemOperand.mentions_nextPlace] at hq
  · exact mentions_moveBase he hv hq

theorem sourced_storeReg {w : Writeback} {xs : List Operand} {es : List Effect}
    (h : storeReg w xs = some es) : Sourced es := by
  unfold storeReg at h
  split at h <;> cases h
  rename_i src _ m
  refine sourced_of_place (m := m) (fun e he => by simp [he]) fun e he v hv q hq => ?_
  simp only [List.cons_append, List.mem_append, List.mem_cons, List.not_mem_nil, or_false] at he
  rcases he with rfl | (he | rfl) | he
  · cases hv
  · rw [tree_useAddress he] at hv
    cases hv
  · obtain rfl := Option.some.inj hv
    exact hq
  · exact mentions_moveBase he hv hq

theorem sourced_storePair {w : Writeback} {xs : List Operand} {es : List Effect}
    (h : storePair w xs = some es) : Sourced es := by
  unfold storePair at h
  split at h <;> cases h
  rename_i a width b _ m
  refine sourced_of_place (m := m) (fun e he => by simp [he]) fun e he v hv q hq => ?_
  simp only [List.cons_append, List.mem_append, List.mem_cons, List.not_mem_nil, or_false] at he
  rcases he with rfl | rfl | (he | rfl | rfl) | he
  · cases hv
  · cases hv
  · rw [tree_useAddress he] at hv
    cases hv
  · obtain rfl := Option.some.inj hv
    exact hq
  · obtain rfl := Option.some.inj hv
    rwa [MemOperand.mentions_nextPlace] at hq
  · exact mentions_moveBase he hv hq

/-- What a call leaves behind does not depend on the registers that it reads. -/
theorem mentions_call {returnTo : UInt64} {e : Effect} (he : e ∈ call returnTo) {v : Value}
    (hv : e.tree = some v) : v.mentions q = false := by
  unfold call at he
  rcases List.mem_append.mp he with he | he
  · obtain ⟨r, _, rfl⟩ := List.mem_map.mp he
    cases hv
  · simp only [List.mem_cons, List.not_mem_nil, or_false] at he
    rcases he with rfl | rfl <;> cases hv <;> rfl

end Effect

open Effect in
/-- **The registers in the trees of an operation are read by it**, but for the system register
that is copied. -/
theorem Operation.effects_sourced {o : Operation} {returnTo : UInt64} {es : List Effect}
    (h : o.effects returnTo = some es) (hmrs : o.opcode ≠ .mrs) : Sourced es := by
  unfold Operation.effects at h
  cases hop : o.opcode <;> simp only [hop] at h
  case mrs => exact absurd hop hmrs
  case ldp => exact sourced_loadPair h
  case ldaxr => exact sourced_loadExclusive h
  case ldr | ldur | ldrb | ldrh | ldrsb | ldrsh | ldrsw => exact sourced_loadReg h
  case str | strb | strh => exact sourced_storeReg h
  case stp => exact sourced_storePair h
  case add | sub | and | orr | lsl => exact sourced_arithmetic h
  case cmp => exact sourced_compare h
  case csel => exact sourced_choose h
  case mov => exact sourced_move h
  case ret =>
    unfold leave at h
    split at h <;> cases h <;> simp [Sourced, tree]
  case b =>
    cases h
    split <;> simp [Sourced, tree]
  case bl =>
    split at h <;> cases h
    intro e he v hv q _ hq
    rw [mentions_call he hv] at hq
    cases hq
  case blr =>
    split at h <;> cases h
    intro e he v hv q _ hq
    rcases List.mem_cons.mp he with rfl | he
    · cases hv
    · rw [mentions_call he hv] at hq
      cases hq
  case nop =>
    cases h
    simp [Sourced]
  case other => cases h
  all_goals
    split at h <;> cases h
    simp [Sourced, tree, Value.mentions, Value.mentions_read]

/-! ## What a visit enters into the record -/

theorem Effect.eq_define_of_defined? {e : Effect} {r : Register} {v : Value}
    (h : e.defined? r = some v) : e = define r v := by
  cases e <;> simp_all [defined?]

theorem Effect.eq_store_of_stored? {e : Effect} {r : Register} {v : Value}
    (h : e.stored? r = some v) : e = store v r := by
  cases e <;> simp_all [stored?]

namespace Point

variable {s : Settings} {tracking : Tracking} {r : Register} {v : Value}

theorem mem_apply_of_untracked (p : Point) (e : Effect) (ht : tracking.memory = false) :
    (p.apply tracking e).record.mem = p.record.mem := by
  cases e with
  | use r =>
      dsimp only [apply]
      split
      · rfl
      · rw [Record.linkReg_eq]
  | load place dst =>
      dsimp only [apply]
      rw [ht]
      rfl
  | define r v =>
      dsimp only [apply]
      split <;> rfl
  | store place src =>
      dsimp only [apply]
      rw [ht]
      rfl

theorem define_of_get?_defs_apply {p : Point} {e : Effect}
    (h : (p.apply tracking e).record.defs.get? r = some v) :
    p.record.defs.get? r = some v ∨ e = .define r v := by
  rw [get?_defs_apply] at h
  rcases Option.or_eq_some_iff.mp h with h | ⟨_, h⟩
  · exact Or.inr (Effect.eq_define_of_defined? h)
  · exact Or.inl h

theorem store_of_memDef?_apply {p : Point} {e : Effect}
    (h : (p.apply tracking e).record.memDef? r = some v) :
    p.record.memDef? r = some v ∨ e = .store v r := by
  by_cases ht : tracking.memory = true
  · -- a record without a memory side gets none
    have hm : p.record.mem.isSome = true := by
      obtain ⟨m, hm, _⟩ := Option.bind_eq_some_iff.mp h
      exact (congrArg (·.2.2) (head_apply p e)).symm.trans (Option.isSome_iff_exists.mpr ⟨m, hm⟩)
    rw [memDef?_apply p e r ht hm] at h
    rcases Option.or_eq_some_iff.mp h with h | ⟨_, h⟩
    · exact Or.inr (Effect.eq_store_of_stored? h)
    · exact Or.inl h
  · unfold Record.memDef? at h
    rw [mem_apply_of_untracked p e (by simpa using ht)] at h
    exact Or.inl h

/-- What is found in the record at the end was there, or one of the effects put it there. -/
theorem found_applyAll (found : Record → Prop) {put : Effect}
    (hone : ∀ (q : Point) (e : Effect), found (q.apply tracking e).record →
      found q.record ∨ e = put)
    {p : Point} {es : List Effect} (h : found (p.applyAll tracking es).record) :
    found p.record ∨ put ∈ es := by
  unfold applyAll at h
  induction es generalizing p with
  | nil => exact Or.inl h
  | cons e es ih =>
      rcases ih h with h | h
      · rcases hone p e h with h | rfl
        · exact Or.inl h
        · exact Or.inr List.mem_cons_self
      · exact Or.inr (List.mem_cons_of_mem _ h)

end Point

/-- The record has all origins that the registers in the tree `v` have at `x`. -/
def Record.Resolves (i : Record) (x : Exposed) (v : Value) : Prop :=
  ∀ q : Register, q.isZero = false → v.mentions q = true →
    ∀ o ∈ x.regs.origins q, o ∈ i.refs.origins q

namespace Point

/-- **The record of an instruction resolves every tree that the instruction enters into it**,
with the origins that the registers had in front of the instruction; and it gets no other ones.
So an instruction that reads a register and sets it is never its own origin, unless it was one
before. -/
theorem visit_resolves_trees (s : Settings) (tracking : Tracking) (p : Point) {i : Instruction}
    {o : Operation} {es : List Effect} (hop : i.operation = some o)
    (hon : s.isEnabled o.opcode = true) (hmrs : o.opcode ≠ .mrs)
    (hes : o.effects (p.record.address + 4) = some es) :
    (∀ r v, .define r v ∈ es → (p.visit s tracking i).record.Resolves p.exposed v) ∧
    (∀ r v, .store v r ∈ es → (p.visit s tracking i).record.Resolves p.exposed v) ∧
    (∀ r v, (p.visit s tracking i).record.defs.get? r = some v →
      p.record.defs.get? r = some v ∨ .define r v ∈ es) ∧
    (∀ r v, (p.visit s tracking i).record.memDef? r = some v →
      p.record.memDef? r = some v ∨ .store v r ∈ es) ∧
    ∀ q d, d ∈ (p.visit s tracking i).record.refs.origins q → d ∉ p.record.refs.origins q →
      d ∈ p.exposed.regs.origins q := by
  have heffects : s.effects i p.record.address = es :=
    Settings.effects_of_operation hop hon hes
  have hresolves : ∀ e ∈ es, ∀ v, e.tree = some v →
      (p.visit s tracking i).record.Resolves p.exposed v := by
    intro e he v hv q hq hmentions d hd
    have hread := Operation.effects_sourced hes hmrs e he v hv q hq hmentions
    exact (mem_refs_visit p i q d).mpr (Or.inr ⟨heffects ▸ hread, hd⟩)
  refine ⟨fun r v he => hresolves _ he v rfl, fun r v he => hresolves _ he v rfl, ?_, ?_, ?_⟩
  · intro r v h
    rw [← heffects]
    exact found_applyAll (·.defs.get? r = some v) (fun _ _ => define_of_get?_defs_apply) h
  · intro r v h
    rw [← heffects]
    exact found_applyAll (·.memDef? r = some v) (fun _ _ => store_of_memDef?_apply) h
  · intro q d h hnot
    exact (((mem_refs_visit p i q d).mp h).resolve_left hnot).2

/-- A point where `x2` and `x3` have been set by the two instructions in front. -/
def thirdInstruction : Point where
  exposed := { regs := (RegTable.empty.setOrigin ⟨2⟩ ⟨0, 0⟩).setOrigin ⟨3⟩ ⟨0, 1⟩ }
  record := .fresh ⟨0, 2⟩ 0x108 .registersAndMemory

/-- The load `ldr x2, [x2, x3, lsl #3]`, which sets the base that it reads. -/
def indexedLoad : Operation where
  opcode := .ldr
  operands := [.x ⟨2⟩, .indexed ⟨2⟩ ⟨3⟩ (some ⟨.lsl, 3⟩)]

/-- What the load puts into `x2`. -/
def indexedCell : Value :=
  .deref (.binary .add (.reg ⟨2⟩ 8) (.binary .lsl (.reg ⟨3⟩ 8) (.const 3))) 8

/-- The record of the load. -/
def indexedRecord : Record :=
  (thirdInstruction.visit {} .registersAndMemory (.decoded 0x108 indexedLoad)).record

/-- The record of the load resolves its base and its index, and the base does not come from the
load itself. -/
theorem visit_resolves_trees_indexedLoad :
    indexedRecord.defs.get? ⟨2⟩ = some indexedCell ∧
      ⟨0, 0⟩ ∈ indexedRecord.refs.origins ⟨2⟩ ∧ ⟨0, 1⟩ ∈ indexedRecord.refs.origins ⟨3⟩ ∧
      ⟨0, 2⟩ ∉ indexedRecord.refs.origins ⟨2⟩ := by
  obtain ⟨hdefine, _, _, _, hnew⟩ := visit_resolves_trees {} .registersAndMemory thirdInstruction
    (i := .decoded 0x108 indexedLoad) rfl (by decide) (by decide) rfl
  have hresolves : indexedRecord.Resolves thirdInstruction.exposed indexedCell :=
    hdefine ⟨2⟩ _ (by decide)
  refine ⟨by decide, ?_, ?_, fun h => ?_⟩
  · exact hresolves ⟨2⟩ (by decide) (by decide) _ (by decide)
  · exact hresolves ⟨3⟩ (by decide) (by decide) _ (by decide)
  · exact absurd (hnew _ _ h (by decide)) (by decide)

end Point

end ReachingDefs
