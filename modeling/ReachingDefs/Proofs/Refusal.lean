import ReachingDefs.Proofs.Settled

/-!
# Analyses that are stopped

Facts about one graph can be handed to an analysis of another one, if the two graphs have the
same number of blocks: nothing else is compared. An id that names no block is then found
before the work begins, and the facts stay as they were. But the facts have a slot for each
instruction of the graph that they were made for, and a block that has more instructions in
the other graph does not fit in. That shows only when the visit of the block runs out of
slots, after the block has been entered and some of its instructions have been carried out.

The first block of that kind stops the analysis, at the first visit that the order asks for.
`Outcome.StopsAt` says so for any list of blocks, and is put together along the control flow
of the analysis.
-/

namespace ReachingDefs

variable {g g' : FlowGraph} {s : Settings} {tracking : Tracking} {b : BlockId}

/-- Does block `b` have more instructions in `g'` than in `g`? -/
def FlowGraph.outgrows (g' g : FlowGraph) (b : BlockId) : Bool := g.length b < g'.length b

/-! ## Running out of slots -/

theorem complete_visitFrom (index : Nat) (is : List Instruction) (x : BlockFacts) :
    (visitFrom s tracking b index is x).complete = decide (is.length ≤ x.slots.length) := by
  fun_induction visitFrom s tracking b index is x with
  | case1 => simp
  | case2 => simp
  | case3 index i rest x slot slots p q v ih => simpa using ih

/-- A visit puts records into slots, but makes none. -/
theorem length_slots_visitFrom (index : Nat) (is : List Instruction) (x : BlockFacts) :
    (visitFrom s tracking b index is x).facts.slots.length = x.slots.length := by
  fun_induction visitFrom s tracking b index is x with
  | case1 => rfl
  | case2 => rfl
  | case3 index i rest x slot slots p q v ih => exact congrArg (· + 1) ih

namespace Facts

/-- The facts have a slot for each instruction of `g`, whatever stands in it. -/
structure Shaped (g : FlowGraph) (f : Facts) : Prop where
  size : f.size = g.size
  slots : ∀ b, (f.block b).slots.length = g.length b

/-- The facts have that shape, and each record stands in the slot of its own site. -/
structure Slotted (g : FlowGraph) (f : Facts) : Prop extends Shaped g f where
  placed : f.Placed

/-- The facts that analyses can lead to from no facts about `g`. Each analysis may be one of
another graph, with settings and an order of its own, and may have been stopped. -/
inductive Derived (g : FlowGraph) (tracking : Tracking) : Facts → Prop where
  | fresh : Derived g tracking (.fresh g tracking)
  | analyze {f : Facts} {g' : FlowGraph} (s : Settings) (order : List (List BlockId)) :
      g'.Built → Derived g tracking f → Derived g tracking (f.analyze s g' order).facts

variable {f : Facts}

theorem Shaped.complete_walk (hf : f.Shaped g) :
    (f.walk s g' b).complete = !g'.outgrows g b := by
  unfold walk FlowGraph.outgrows
  rw [complete_visitFrom, hf.slots, ← decide_not]
  exact decide_eq_decide.mpr Nat.not_lt.symm

/-- No visit changes the number of slots, of whatever graph the block is. -/
theorem Slotted.visitBlock (hf : f.Slotted g) (hg' : g'.Linked) (hsize : g'.size = f.size)
    (b : BlockId) : (f.visitBlock s g' b).facts.Slotted g := by
  refine ⟨?_, placed_visitClosed.visitBlock hf.placed s g' b⟩
  rcases Nat.lt_or_ge b g'.size with hb | hb
  · rw [visitBlock_eq hg' hsize.symm hf.placed hb]
    refine ⟨Array.size_setIfInBounds.trans hf.size, fun d => ?_⟩
    rw [block_put_current f b d _ (hsize ▸ hb)]
    split
    · rename_i hd
      rw [walk, length_slots_visitFrom, hd, hf.slots]
    · exact hf.slots d
  · rw [facts_visitBlock_of_le hb]
    exact hf.toShaped

/-- **Facts keep the shape of the graph that they were made for**, whatever is analysed. -/
theorem Derived.slotted (hf : f.Derived g tracking) : f.Slotted g := by
  induction hf with
  | fresh =>
      have hfits := fresh_fits g tracking
      exact ⟨⟨hfits.size, hfits.slots⟩, hfits.placed⟩
  | @analyze f g' s order hg' _ ih =>
      by_cases hsize : g'.size = g.size
      · refine analyze_preserves (fun f b hf => ?_) order ih
        exact hf.visitBlock (FlowGraph.built_linked hg') (hsize.trans hf.size.symm) b
      · -- a graph of another size is refused
        have hne : ¬ g'.size = f.size := fun h => hsize (h.trans ih.size)
        unfold Facts.analyze accept
        rw [if_neg hne]
        exact ih

end Facts

/-! ## The first block that does not fit in -/

/-- Facts that were made for `g` went through the blocks `bs` of `g'`: the first of them that
has outgrown `g` has stopped the work, and is the current block. -/
structure Outcome.StopsAt (g g' : FlowGraph) (bs : List BlockId) (o : Outcome) : Prop where
  slotted : o.facts.Slotted g
  fault : o.fault = (bs.find? (g'.outgrows g)).map (.nodeOutOfRange · g.size)
  current : ∀ b, bs.find? (g'.outgrows g) = some b → o.facts.current = some b

namespace Outcome

variable {o : Outcome} {bs cs : List BlockId} {next : Facts → Outcome}

theorem StopsAt.done {f : Facts} (hf : f.Slotted g) (log : List Event) :
    StopsAt g g' [] { facts := f, log } :=
  ⟨hf, rfl, fun _ h => by cases h⟩

theorem StopsAt.congr (ho : o.StopsAt g g' bs)
    (h : bs.find? (g'.outgrows g) = cs.find? (g'.outgrows g)) : o.StopsAt g g' cs :=
  ⟨ho.slotted, h ▸ ho.fault, h ▸ ho.current⟩

/-- What comes next matters only if nothing has stopped the work before. -/
theorem StopsAt.andThen (ho : o.StopsAt g g' bs)
    (hnext : bs.find? (g'.outgrows g) = none → (next o.facts).StopsAt g g' cs) :
    (o.andThen next).StopsAt g g' (bs ++ cs) := by
  cases hfind : bs.find? (g'.outgrows g) with
  | none =>
      have hfault := ho.fault
      rw [hfind] at hfault
      obtain ⟨hslotted, hlater, hcurrent⟩ := hnext hfind
      rw [andThen_eq hfault]
      refine ⟨hslotted, ?_, ?_⟩
      · rw [List.find?_append, hfind, Option.none_or]
        exact hlater
      · intro b hb
        rw [List.find?_append, hfind, Option.none_or] at hb
        exact hcurrent b hb
  | some c =>
      have hstop : o.andThen next = o := by
        unfold Outcome.andThen
        rw [ho.fault, hfind]
        rfl
      rw [hstop]
      refine ⟨ho.slotted, ?_, ?_⟩
      · rw [List.find?_append, hfind, ho.fault, hfind]
        rfl
      · intro b hb
        rw [List.find?_append, hfind, Option.some_or] at hb
        exact ho.current b (hfind.trans hb)

theorem StopsAt.andThen_done (ho : o.StopsAt g g' bs)
    (hnext : bs.find? (g'.outgrows g) = none → (next o.facts).StopsAt g g' []) :
    (o.andThen next).StopsAt g g' bs :=
  List.append_nil bs ▸ ho.andThen hnext

end Outcome

namespace Facts

variable {f : Facts} (hg' : g'.Linked) (hsize : g'.size = g.size)
include hg' hsize

theorem visitBlock_stopsAt (hf : f.Slotted g) (hb : b < g'.size) :
    (f.visitBlock s g' b).StopsAt g g' [b] := by
  have hsize' : g'.size = f.size := hsize.trans hf.size.symm
  refine ⟨hf.visitBlock hg' hsize' b, ?_, ?_⟩
  · rw [visitBlock_eq hg' hsize'.symm hf.placed hb, hf.complete_walk, hf.size]
    cases hout : g'.outgrows g b <;> simp [hout]
  · intro c hc
    obtain rfl : c = b := by simpa using List.mem_of_find?_eq_some hc
    rw [visitBlock_eq hg' hsize'.symm hf.placed hb]
    rfl

theorem sweep_stopsAt {bs : List BlockId} (hbs : ∀ b ∈ bs, b < g'.size) (hf : f.Slotted g) :
    (f.sweep s g' bs).StopsAt g g' bs := by
  induction bs generalizing f with
  | nil => exact .done hf []
  | cons b bs ih =>
      have hvisit := visitBlock_stopsAt (s := s) hg' hsize hf (hbs b List.mem_cons_self)
      refine hvisit.andThen fun _ => ih (fun c hc => ?_) hvisit.slotted
      exact hbs c (List.mem_cons_of_mem _ hc)

/-- The first pass comes to every block of the group, so it is the one that is stopped. -/
theorem iterate_stopsAt {group : List BlockId} (hgroup : ∀ b ∈ group, b < g'.size)
    (hf : f.Slotted g) (left : Nat) : (f.iterate s g' group (left + 1)).StopsAt g g' group := by
  induction left generalizing f with
  | zero =>
      have hpass := sweep_stopsAt (s := s) hg' hsize hgroup hf
      refine hpass.andThen_done fun _ => ?_
      split
      · exact .done hpass.slotted _
      · exact .done hpass.slotted _
  | succ left ih =>
      have hpass := sweep_stopsAt (s := s) hg' hsize hgroup hf
      refine hpass.andThen_done fun hnone => ?_
      split
      · exact .done hpass.slotted _
      · exact (ih hpass.slotted).congr hnone

theorem analyzeGroups_stopsAt {order : List (List BlockId)}
    (horder : ∀ group ∈ order, ∀ b ∈ group, b < g'.size) (hf : f.Slotted g) :
    (f.analyzeGroups s g' order).StopsAt g g' order.flatten := by
  induction order generalizing f with
  | nil => exact .done hf []
  | cons group order ih =>
      have hgroup := horder group List.mem_cons_self
      have hfirst : (f.analyzeGroup s g' group).StopsAt g g' group := by
        unfold analyzeGroup
        split
        · exact iterate_stopsAt hg' hsize hgroup hf s.level
        · exact sweep_stopsAt hg' hsize hgroup hf
      exact hfirst.andThen fun _ =>
        ih (fun d hd => horder d (List.mem_cons_of_mem _ hd)) hfirst.slotted

end Facts

namespace Facts

variable {f : Facts} {order : List (List BlockId)}

/-- An id that names no block is found before anything is done. -/
theorem analyze_of_outOfRange (hsize : g'.size = f.size)
    (hb : order.flatten.find? (g'.size ≤ ·) = some b) :
    f.analyze s g' order = { facts := f, fault := some (.nodeOutOfRange b g'.size) } := by
  unfold analyze accept Fault.unlessOutOfRange
  rw [if_pos hsize, hb]

/-- **An analysis is stopped by an id that names no block, and by a block that the facts have
no room for**, and by nothing else. In the first case nothing has been done. In the second
the facts are left in the middle of a visit, with that block the current one, and it is
reported as one that is not there. -/
theorem analyze_stops_iff (hf : f.Derived g tracking) (hg' : g'.Built) (hsize : g'.size = g.size)
    (s : Settings) (order : List (List BlockId)) :
    ((f.analyze s g' order).fault ≠ none ↔
      (∃ b ∈ order.flatten, g'.size ≤ b) ∨ ∃ b ∈ order.flatten, g'.outgrows g b = true) ∧
    (∀ b, order.flatten.find? (g'.size ≤ ·) = some b →
      f.analyze s g' order = { facts := f, fault := some (.nodeOutOfRange b g'.size) }) ∧
    ((∀ b ∈ order.flatten, b < g'.size) →
      ∀ b, order.flatten.find? (g'.outgrows g) = some b →
        (f.analyze s g' order).fault = some (.nodeOutOfRange b g'.size) ∧
        (f.analyze s g' order).facts.current = some b) := by
  have hslotted := hf.slotted
  have hsize' : g'.size = f.size := hsize.trans hslotted.size.symm
  have hstops : (∀ b ∈ order.flatten, b < g'.size) →
      (f.analyze s g' order).StopsAt g g' order.flatten := by
    intro hall
    rw [analyze_eq_analyzeGroups hsize'.symm hall]
    refine analyzeGroups_stopsAt (FlowGraph.built_linked hg') hsize ?_ hslotted
    exact fun group hgroup b hb => hall b (List.mem_flatten.mpr ⟨group, hgroup, hb⟩)
  refine ⟨?_, fun b hb => analyze_of_outOfRange hsize' hb, fun hall b hb => ?_⟩
  · cases hfind : order.flatten.find? (g'.size ≤ ·) with
    | some c =>
        have hc : ∃ b ∈ order.flatten, g'.size ≤ b :=
          ⟨c, List.mem_of_find?_eq_some hfind, by simpa using List.find?_some hfind⟩
        rw [analyze_of_outOfRange hsize' hfind]
        exact iff_of_true (Option.some_ne_none _) (Or.inl hc)
    | none =>
        have hall : ∀ b ∈ order.flatten, b < g'.size :=
          fun b hb => by simpa using List.find?_eq_none.mp hfind b hb
        have hin : ¬ ∃ b ∈ order.flatten, g'.size ≤ b :=
          fun ⟨b, hb, hle⟩ => absurd (hall b hb) (Nat.not_lt.mpr hle)
        rw [(hstops hall).fault, or_iff_right hin, Ne, Option.map_eq_none_iff, List.find?_eq_none]
        simp only [not_forall, not_not, exists_prop]
  · obtain ⟨_, hfault, hcurrent⟩ := hstops hall
    refine ⟨?_, hcurrent b hb⟩
    rw [hfault, hsize]
    exact congrArg (Option.map _) hb

end Facts

/-- One block that sets `x0`. -/
def FlowGraph.brief : FlowGraph :=
  empty.addBlock [.decoded 0x100 { opcode := .mov, operands := [.x ⟨0⟩, .imm 1] }]

/-- The block of `brief` with one more instruction. -/
def FlowGraph.extended : FlowGraph :=
  empty.addBlock [.decoded 0x100 { opcode := .mov, operands := [.x ⟨0⟩, .imm 1] },
    .decoded 0x104 { opcode := .nop }]

namespace Facts

open FlowGraph

/-- Facts about `brief` take an analysis of `extended` as far as they have slots, and then
keep the block current. An id that names no block is found first, also behind such a block. -/
theorem analyze_stops_iff_extended :
    ((fresh brief .registers).analyze {} extended [[0]]).fault = some (.nodeOutOfRange 0 1) ∧
    ((fresh brief .registers).analyze {} extended [[0]]).facts.current = some 0 ∧
    (fresh brief .registers).analyze {} extended [[0], [1]] =
      { facts := fresh brief .registers, fault := some (.nodeOutOfRange 1 1) } := by
  have hf : (fresh brief .registers).Derived brief .registers := .fresh
  have hbuilt : extended.Built := Built.empty.addBlock _
  have h := analyze_stops_iff hf hbuilt rfl {}
  obtain ⟨hfault, hcurrent⟩ := (h [[0]]).2.2 (by decide) 0 (by decide)
  exact ⟨hfault, hcurrent, (h [[0], [1]]).2.1 1 (by decide)⟩

/-- **An analysis that is stopped need not leave the facts as they were**, nor need its order
be at fault: the order names blocks of the graph only, and there are as many of them as in the
graph that the facts were made for. -/
theorem stopped_with_traces :
    brief.Built ∧ extended.Built ∧ extended.size = brief.size ∧
      (∀ b ∈ [[0]].flatten, b < extended.size) ∧
      ((fresh brief .registersAndMemory).analyze {} extended [[0]]).fault ≠ none ∧
      ((fresh brief .registersAndMemory).analyze {} extended [[0]]).facts ≠
        fresh brief .registersAndMemory :=
  ⟨Built.empty.addBlock _, Built.empty.addBlock _, rfl, by decide, by decide +kernel,
    by decide +kernel⟩

end Facts

end ReachingDefs
