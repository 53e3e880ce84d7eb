import ReachingDefs.Proofs.Effect
import ReachingDefs.Proofs.Graph

/-!
# Control-flow paths

The second side of every statement about origins. The analysis computes sets block
by block; what the sets are *about* is said here without the analysis, in terms of
paths: control runs through the instructions of a block in order, and from the end
of a block along any edge.

A site stands for the point in front of its instruction, and the site behind the
last instruction of a block for the end of that block. So a path may begin and end
anywhere, and runs through an empty block without executing anything.
-/

namespace ReachingDefs

namespace FlowGraph

/-- The instruction at a site. -/
def instruction? (g : FlowGraph) (o : Site) : Option Instruction :=
  (g.instructions o.block)[o.index]?

/-- What the instruction at a site does under the settings `s`. -/
def effectsAt (g : FlowGraph) (s : Settings) (o : Site) : List Effect :=
  match g.instruction? o with
  | some i => s.effects i i.address
  | none => []

/-- Does the instruction at `o` set `r`? -/
def sets (g : FlowGraph) (s : Settings) (o : Site) (r : Register) : Bool :=
  (g.effectsAt s o).any (Effect.sets r)

/-- Does the instruction at `o` read `r`? -/
def reads (g : FlowGraph) (s : Settings) (o : Site) (r : Register) : Bool :=
  (g.effectsAt s o).any (Effect.reads r)

/-- Does the instruction at `o` store to the location `l`? -/
def storesTo (g : FlowGraph) (s : Settings) (o : Site) (l : Location) : Bool :=
  (g.effectsAt s o).any (Effect.storesTo l)

/-- Does the instruction at `o` load `dst` from the location `l`? -/
def loadsFrom (g : FlowGraph) (s : Settings) (o : Site) (l : Location) (dst : Register) : Bool :=
  (g.effectsAt s o).any (Effect.loadsFrom l dst)

/-! ## Paths -/

/-- `g.Path p is q`: control can go from `p` to `q`, executing the instructions `is`. -/
inductive Path (g : FlowGraph) (p : Site) : List Site → Site → Prop where
  | stop : Path g p [] p
  /-- The next instruction of the block is executed. -/
  | next {is : List Site} {b : BlockId} {i : Nat} :
      Path g p is ⟨b, i⟩ → i < g.length b → Path g p (is ++ [⟨b, i⟩]) ⟨b, i + 1⟩
  /-- An edge is taken at the end of the block. -/
  | jump {is : List Site} {b c : BlockId} :
      Path g p is ⟨b, g.length b⟩ → c ∈ g.successors b → Path g p is ⟨c, 0⟩

/-- The last of the executed instructions that sets `r`. -/
def lastSetter (g : FlowGraph) (s : Settings) (r : Register) (is : List Site) : Option Site :=
  is.reverse.find? fun o => g.sets s o r

variable {g : FlowGraph} {s : Settings} {p q : Site}

/-- The part of a path from one of its instructions on. -/
theorem Path.drop {front back : List Site} {d : Site}
    (h : g.Path p (front ++ d :: back) q) : g.Path d (d :: back) q := by
  generalize he : front ++ d :: back = is at h
  induction h generalizing back with
  | stop => simp at he
  | @next is b i h hlt ih =>
      rcases List.eq_nil_or_concat back with rfl | ⟨back', x, rfl⟩
      · -- `d` is the instruction that has just been executed
        obtain ⟨_, hd⟩ := List.append_inj' he rfl
        obtain rfl : d = ⟨b, i⟩ := by simpa using hd
        exact Path.next Path.stop hlt
      · rw [List.concat_eq_append] at he ⊢
        have hcut : (front ++ d :: back') ++ [x] = is ++ [⟨b, i⟩] := by
          rw [← he]
          simp
        obtain ⟨hl, hx⟩ := List.append_inj' hcut rfl
        obtain rfl : x = ⟨b, i⟩ := by simpa using hx
        exact Path.next (ih hl) hlt
  | jump h hc ih => exact Path.jump (ih he) hc

/-- From the last instruction that sets a register on, nothing else sets it. -/
theorem Path.lastSetter {is : List Site} {r : Register} {d : Site} (h : g.Path p is q)
    (hd : g.lastSetter s r is = some d) :
    g.sets s d r = true ∧
      ∃ back, g.Path d (d :: back) q ∧ ∀ o ∈ back, g.sets s o r = false := by
  obtain ⟨hset, front, back, he, hnot⟩ := List.find?_eq_some_iff_append.mp hd
  -- the search runs backwards, so `front` is what lies behind `d` on the path
  have his : is = back.reverse ++ d :: front.reverse := by
    rw [← List.reverse_reverse is, he]
    simp
  rw [his] at h
  refine ⟨hset, front.reverse, h.drop, ?_⟩
  intro o ho
  simpa using hnot o (List.mem_reverse.mp ho)

theorem length_of_le {b : BlockId} (h : g.size ≤ b) : g.length b = 0 := by
  unfold length instructions
  rw [get?_eq_none h]
  rfl

theorem exists_instruction_iff {o : Site} :
    (∃ i, g.instruction? o = some i) ↔ o.index < g.length o.block := by
  rw [← Option.isSome_iff_exists]
  unfold instruction? length
  simp

/-- Only blocks that are there hold instructions. -/
theorem block_lt_of_instruction {o : Site} {i : Instruction} (h : g.instruction? o = some i) :
    o.block < g.size := by
  rcases Nat.lt_or_ge o.block g.size with hlt | hge
  · exact hlt
  · have hlen := exists_instruction_iff.mp ⟨i, h⟩
    rw [length_of_le hge] at hlen
    omega

/-- Only an instruction has effects. -/
theorem exists_instruction_of_effectsAt {o : Site} {test : Effect → Bool}
    (h : (g.effectsAt s o).any test = true) : ∃ i, g.instruction? o = some i := by
  unfold effectsAt at h
  split at h
  · exact ⟨_, by assumption⟩
  · simp at h

theorem effectsAt_of_instruction {o : Site} {i : Instruction} (h : g.instruction? o = some i) :
    g.effectsAt s o = s.effects i i.address := by
  unfold effectsAt
  rw [h]

theorem effectsAt_inTurn (g : FlowGraph) (s : Settings) (o : Site) :
    Effect.InTurn (g.effectsAt s o) := by
  unfold effectsAt
  split
  · exact s.effects_inTurn ..
  · exact List.Pairwise.nil

/-! ## Values along a path -/

/-- Executing the instructions `is` can take the registers from the values `v` to `v'`: each
instruction changes no register but those that it sets. -/
inductive Executes (g : FlowGraph) (s : Settings) {β : Type} :
    List Site → (Register → β) → (Register → β) → Prop where
  | nil (v : Register → β) : Executes g s [] v v
  | cons {o : Site} {is : List Site} {v w v' : Register → β} :
      (∀ r, g.sets s o r = false → w r = v r) → Executes g s is w v' → Executes g s (o :: is) v v'

/-- A register that no instruction sets keeps its value. -/
theorem Executes.keeps {β : Type} {is : List Site} {v v' : Register → β} {r : Register}
    (h : g.Executes s is v v') (hr : ∀ i ∈ is, g.sets s i r = false) : v' r = v r := by
  induction h with
  | nil => rfl
  | cons hstep _ ih =>
      rw [ih fun i hi => hr i (List.mem_cons_of_mem _ hi)]
      exact hstep r (hr _ List.mem_cons_self)

end FlowGraph

end ReachingDefs
