import ReachingDefs.Analysis.Visit

/-!
# What effects do, and in which order

Questions to ask an effect: does it set a register, does it read one, does it store
to a location or anywhere at all, does it load from a location. Everything said about
instructions later on is said in terms of these.

The order of the effects of one instruction matters too. An instruction may read
the register that it sets, or load through the base that it moves, and then it
must see the old value; a store goes to where its base pointed before it was moved.
That holds because every instruction reads first, stores then and sets registers
last, which is checked here opcode by opcode, once.
-/

namespace ReachingDefs

/-! ## What single effects do -/

namespace Effect

/-- Does the effect give `r` a new value? Nothing ever does that to the zero register. -/
def sets (r : Register) : Effect → Bool
  | define q _ => q = r && !q.isZero
  | _ => false

/-- Does the effect read `r`? The zero register is not read but known. -/
def reads (r : Register) : Effect → Bool
  | use q => q = r && !q.isZero
  | _ => false

/-- Does the effect store to the location `l`? -/
def storesTo (l : Location) : Effect → Bool
  | store place _ => place.location? = some l
  | _ => false

/-- Does the effect load `dst` from the location `l`? -/
def loadsFrom (l : Location) (dst : Register) : Effect → Bool
  | load place q => q = dst && place.location? = some l
  | _ => false

/-- Does the effect store anything, to a location or to an address without one? -/
def isStore : Effect → Bool
  | store _ _ => true
  | _ => false

/-- The value that the effect sets `r` to. -/
def defined? (r : Register) : Effect → Option Value
  | define q v => if q = r ∧ q.isZero = false then some v else none
  | _ => none

/-- The address that the effect stores `r` to. -/
def stored? (r : Register) : Effect → Option Value
  | store place q => if q = r then some place else none
  | _ => none

theorem isSome_defined? (r : Register) (e : Effect) : (e.defined? r).isSome = e.sets r := by
  cases e with
  | define q v =>
      by_cases hq : q = r
      · subst hq
        cases hz : q.isZero <;> simp [defined?, sets, hz]
      · simp [defined?, sets, hq]
  | _ => rfl

theorem isStore_iff {e : Effect} : e.isStore = true ↔ ∃ r, (e.stored? r).isSome = true := by
  cases e <;> simp [isStore, stored?]

/-- What `pick` finds in the last of the effects in which it finds something. -/
def last? (pick : Effect → Option Value) (es : List Effect) : Option Value :=
  es.reverse.findSome? pick

theorem last?_concat (pick : Effect → Option Value) (es : List Effect) (e : Effect) :
    last? pick (es ++ [e]) = (pick e).or (last? pick es) := by
  unfold last?
  rw [List.reverse_append, List.reverse_singleton, List.singleton_append, List.findSome?_cons]
  cases pick e <;> rfl

theorem isSome_last? {pick : Effect → Option Value} {es : List Effect} :
    (last? pick es).isSome = true ↔ ∃ e ∈ es, (pick e).isSome = true := by
  unfold last?
  simp [List.findSome?_isSome_iff]

end Effect

/-! ## Each effect in its turn -/

namespace Effect

/-- Does the effect look at the state of the machine, and not change it? -/
def isRead : Effect → Bool
  | use _ | load _ _ => true
  | define _ _ | store _ _ => false

/-- Do all reads come before all writes? -/
def readsFirst (es : List Effect) : Bool :=
  (es.dropWhile isRead).all fun e => !e.isRead

/-- Such a list falls into a part that only reads and a part that only writes. -/
theorem readsFirst_split {es : List Effect} (h : readsFirst es = true) :
    ∃ front back, es = front ++ back ∧ (∀ e ∈ front, e.isRead = true) ∧
      ∀ e ∈ back, e.isRead = false := by
  refine ⟨es.takeWhile isRead, es.dropWhile isRead, List.takeWhile_append_dropWhile.symm, ?_, ?_⟩
  · intro e he
    exact List.all_eq_true.mp List.all_takeWhile e he
  · intro e he
    simpa using List.all_eq_true.mp h e he

/-- The turn of an effect within its instruction: reads, then stores, then definitions. -/
def turn : Effect → Nat
  | use _ | load _ _ => 0
  | store _ _ => 1
  | define _ _ => 2

/-- The effects take place in the order of their turns. -/
def InTurn (es : List Effect) : Prop := es.Pairwise fun d e => d.turn ≤ e.turn

theorem isRead_iff {e : Effect} : e.isRead = true ↔ e.turn = 0 := by
  cases e <;> simp [isRead, turn]

theorem InTurn.readsFirst {es : List Effect} (h : InTurn es) : readsFirst es = true := by
  unfold Effect.readsFirst
  induction es with
  | nil => rfl
  | cons d es ih =>
      obtain ⟨hd, hes⟩ := List.pairwise_cons.mp h
      by_cases hr : d.isRead = true
      · rw [List.dropWhile_cons_of_pos hr]
        exact ih hes
      · -- nothing behind `d` has an earlier turn
        rw [List.dropWhile_cons_of_neg hr, List.all_eq_true]
        rw [isRead_iff] at hr
        intro e he
        have hlate : ¬ e.isRead = true := by
          rw [isRead_iff]
          rcases List.mem_cons.mp he with rfl | he
          · exact hr
          · have := hd e he
            omega
        simpa using hlate

theorem inTurn_loadOne (w : Writeback) (dst : Register) (m : MemOperand) (width : UInt8)
    (signed : Bool) : InTurn (loadOne w dst m width signed) := by
  obtain ⟨base, index, disp⟩ := m
  cases index <;> cases w <;> simp [InTurn, loadOne, useAddress, moveBase, MemOperand.registers,
    MemOperand.update?, turn]

theorem inTurn_loadPair {w : Writeback} {xs : List Operand} {es : List Effect}
    (h : loadPair w xs = some es) : InTurn es := by
  unfold loadPair at h
  split at h
  · rename_i a width b _ m
    obtain ⟨base, index, disp⟩ := m
    cases h
    cases index <;> cases w <;> simp [InTurn, useAddress, moveBase, MemOperand.registers,
      MemOperand.update?, turn]
  · exact absurd h (by simp)

theorem inTurn_storeReg {w : Writeback} {xs : List Operand} {es : List Effect}
    (h : storeReg w xs = some es) : InTurn es := by
  unfold storeReg at h
  split at h
  · rename_i src _ m
    obtain ⟨base, index, disp⟩ := m
    cases h
    cases index <;> cases w <;> simp [InTurn, useAddress, moveBase, MemOperand.registers,
      MemOperand.update?, turn]
  · exact absurd h (by simp)

theorem inTurn_storePair {w : Writeback} {xs : List Operand} {es : List Effect}
    (h : storePair w xs = some es) : InTurn es := by
  unfold storePair at h
  split at h
  · rename_i a width b _ m
    obtain ⟨base, index, disp⟩ := m
    cases h
    cases index <;> cases w <;> simp [InTurn, useAddress, moveBase, MemOperand.registers,
      MemOperand.update?, turn]
  · exact absurd h (by simp)

theorem inTurn_loadReg {w : Writeback} {width? : Option UInt8} {signed : Bool}
    {xs : List Operand} {es : List Effect} (h : loadReg w width? signed xs = some es) :
    InTurn es := by
  unfold loadReg at h
  split at h
  · cases h
    exact inTurn_loadOne ..
  · cases h
    simp [InTurn]
  · exact absurd h (by simp)

theorem inTurn_loadExclusive {w : Writeback} {xs : List Operand} {es : List Effect}
    (h : loadExclusive w xs = some es) : InTurn es := by
  unfold loadExclusive at h
  split at h
  · cases h
    exact inTurn_loadOne ..
  · exact absurd h (by simp)

end Effect

open Effect in
/-- **Every operation reads first, then stores, and then sets registers.** An operation that
reads and sets one register reads the value from before, and one that stores through the base
that it moves stores to where the base pointed before. -/
theorem Operation.effects_inTurn {o : Operation} {returnTo : UInt64} {es : List Effect}
    (h : o.effects returnTo = some es) : InTurn es := by
  unfold Operation.effects at h
  cases hop : o.opcode <;> simp only [hop] at h
  -- the lists of the operations on memory depend on the form of the address
  case ldp => exact inTurn_loadPair h
  case ldaxr => exact inTurn_loadExclusive h
  case ldr | ldur | ldrb | ldrh | ldrsb | ldrsh | ldrsw => exact inTurn_loadReg h
  case str | strb | strh => exact inTurn_storeReg h
  case stp => exact inTurn_storePair h
  -- all other lists are fixed by the form of the operands
  case add | sub | and | orr | lsl =>
    unfold arithmetic at h
    split at h <;> cases h <;> simp [InTurn, turn]
  case cmp =>
    unfold Effect.compare at h
    split at h <;> cases h <;> simp [InTurn, turn]
  case csel =>
    unfold choose at h
    split at h <;> cases h
    simp [InTurn, turn]
  case mov =>
    unfold move at h
    split at h <;> cases h <;> simp [InTurn, turn]
  case ret =>
    unfold leave at h
    split at h <;> cases h <;> simp [InTurn, turn]
  case b =>
    cases h
    split <;> simp [InTurn]
  case nop =>
    cases h
    simp [InTurn]
  case other => cases h
  all_goals
    split at h <;> cases h
    simp [InTurn, turn, call, Register.arguments]

/-- An operation that is enabled and whose operands fit is carried out. -/
theorem Settings.effects_of_operation {s : Settings} {i : Instruction} {o : Operation}
    {address : UInt64} {es : List Effect} (hop : i.operation = some o)
    (hon : s.isEnabled o.opcode = true) (hes : o.effects (address + 4) = some es) :
    s.effects i address = es := by
  have hknown : o.opcode.isKnown = true := by
    cases hcode : o.opcode
    case other => simp [Operation.effects, hcode] at hes
    all_goals rfl
  unfold Settings.effects actsOn
  rw [hop]
  simp [hon, hknown, hes]

/-- The effects of an instruction are those of its operation, or there are none. -/
theorem Settings.effects_cases (s : Settings) (i : Instruction) (address : UInt64)
    {P : List Effect → Prop} (hnone : P [])
    (hsome : ∀ o es, i.operation = some o → o.effects (address + 4) = some es → P es) :
    P (s.effects i address) := by
  unfold Settings.effects
  split
  · exact hnone
  · rename_i o hop
    split
    · cases hes : o.effects (address + 4) with
      | none => exact hnone
      | some es => exact hsome o es hop hes
    · exact hnone

theorem Settings.effects_inTurn (s : Settings) (i : Instruction) (address : UInt64) :
    Effect.InTurn (s.effects i address) :=
  s.effects_cases i address List.Pairwise.nil fun _ _ _ hes => Operation.effects_inTurn hes

theorem Settings.effects_readsFirst (s : Settings) (i : Instruction) (address : UInt64) :
    Effect.readsFirst (s.effects i address) = true :=
  (s.effects_inTurn i address).readsFirst

end ReachingDefs
