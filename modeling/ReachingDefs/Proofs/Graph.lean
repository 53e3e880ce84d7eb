import ReachingDefs.Flow.Graph

/-!
# Graphs made by adding blocks and edges

A graph is never written down whole: it grows from the empty graph, one block or
one edge at a time. `Built` is the set of graphs that can arise that way.

An edge is recorded twice, at the block it leaves and at the block it enters.
Joins read one record and searches the other, so everything that follows rests
on the two telling the same story: `built_linked` says that they do, and that
neither ever names a block that is not there.
-/

namespace ReachingDefs.FlowGraph

/-- The graphs that adding blocks and edges can make. -/
inductive Built : FlowGraph → Prop where
  | empty : Built .empty
  | addBlock {g : FlowGraph} (is : List Instruction) : Built g → Built (g.addBlock is)
  | addEdge {g g' : FlowGraph} {u v : BlockId} : Built g → g.addEdge u v = .ok g' → Built g'

/-- The instructions of block `b`; none if there is no block `b`. -/
def instructions (g : FlowGraph) (b : BlockId) : List Instruction :=
  ((g.get? b).map (·.instructions)).getD []

/-- The number of instructions of block `b`. -/
def length (g : FlowGraph) (b : BlockId) : Nat := (g.instructions b).length

/-- Both ends of every edge know it, and every end is a block. -/
structure Linked (g : FlowGraph) : Prop where
  /-- The two records of an edge agree. -/
  symm : ∀ u v, v ∈ g.successors u ↔ u ∈ g.predecessors v
  /-- Edges lead to blocks. -/
  lt : ∀ u v, v ∈ g.successors u → v < g.size

/-! ## What one call changes -/

theorem get?_eq_none {g : FlowGraph} {b : BlockId} (h : g.size ≤ b) : g.get? b = none :=
  Array.getElem?_eq_none h

theorem get?_isSome {g : FlowGraph} {b : BlockId} (h : b < g.size) :
    ∃ block, g.get? b = some block :=
  ⟨g.blocks[b], Array.getElem?_eq_getElem h⟩

theorem successors_of_le {g : FlowGraph} {b : BlockId} (h : g.size ≤ b) : g.successors b = [] := by
  unfold successors
  rw [get?_eq_none h]
  rfl

theorem lt_of_mem_successors {g : FlowGraph} {u v : BlockId} (h : v ∈ g.successors u) :
    u < g.size := by
  rcases Nat.lt_or_ge u g.size with hlt | hge
  · exact hlt
  · rw [successors_of_le hge] at h
    exact absurd h List.not_mem_nil

theorem get?_addBlock (g : FlowGraph) (is : List Instruction) (b : BlockId) :
    (g.addBlock is).get? b =
      if b = g.size then some { id := g.size, instructions := is } else g.get? b :=
  Array.getElem?_push

/-- The new block has no edges, just as no block had. -/
theorem successors_addBlock (g : FlowGraph) (is : List Instruction) (b : BlockId) :
    (g.addBlock is).successors b = g.successors b := by
  unfold successors
  rw [get?_addBlock]
  split
  · rename_i h
    rw [get?_eq_none (Nat.le_of_eq h.symm)]
    rfl
  · rfl

theorem predecessors_addBlock (g : FlowGraph) (is : List Instruction) (b : BlockId) :
    (g.addBlock is).predecessors b = g.predecessors b := by
  unfold predecessors
  rw [get?_addBlock]
  split
  · rename_i h
    rw [get?_eq_none (Nat.le_of_eq h.symm)]
    rfl
  · rfl

theorem size_addBlock (g : FlowGraph) (is : List Instruction) :
    (g.addBlock is).size = g.size + 1 :=
  Array.size_push _

theorem size_link (g : FlowGraph) (u v : BlockId) : (g.link u v).size = g.size := by
  simp [link, addSuccessor, addPredecessor, size]

theorem get?_link (g : FlowGraph) (u v w : BlockId) :
    (g.link u v).get? w = (g.get? w).map fun b =>
      { b with
        successors := if u = w then OrderedSet.insert b.successors v else b.successors
        predecessors := if v = w then OrderedSet.insert b.predecessors u else b.predecessors } := by
  unfold link addSuccessor addPredecessor get?
  simp only [Array.getElem?_modify]
  by_cases hu : u = w <;> by_cases hv : v = w <;>
    simp [hu, hv, Function.comp_def]

theorem successors_link {g : FlowGraph} {u v w : BlockId} (hu : u < g.size) :
    (g.link u v).successors w =
      if w = u then OrderedSet.insert (g.successors u) v else g.successors w := by
  unfold successors
  rw [get?_link]
  by_cases hw : w = u
  · subst hw
    -- without a block at `w` the edge would be lost
    obtain ⟨block, hb⟩ := get?_isSome hu
    simp [hb]
  · cases g.get? w <;> simp [hw, Ne.symm hw]

theorem predecessors_link {g : FlowGraph} {u v w : BlockId} (hv : v < g.size) :
    (g.link u v).predecessors w =
      if w = v then OrderedSet.insert (g.predecessors v) u else g.predecessors w := by
  unfold predecessors
  rw [get?_link]
  by_cases hw : w = v
  · subst hw
    obtain ⟨block, hb⟩ := get?_isSome hv
    simp [hb]
  · cases g.get? w <;> simp [hw, Ne.symm hw]

theorem mem_successors_link {g : FlowGraph} {u v w x : BlockId} (hu : u < g.size) :
    x ∈ (g.link u v).successors w ↔ x ∈ g.successors w ∨ w = u ∧ x = v := by
  rw [successors_link hu]
  split <;> simp_all

theorem mem_predecessors_link {g : FlowGraph} {u v w x : BlockId} (hv : v < g.size) :
    x ∈ (g.link u v).predecessors w ↔ x ∈ g.predecessors w ∨ w = v ∧ x = u := by
  rw [predecessors_link hv]
  split <;> simp_all

theorem instructions_link (g : FlowGraph) (u v b : BlockId) :
    (g.link u v).instructions b = g.instructions b := by
  unfold instructions
  rw [get?_link, Option.map_map]
  rfl

theorem addEdge_eq_ok {g g' : FlowGraph} {u v : BlockId} :
    g.addEdge u v = .ok g' ↔ (u < g.size ∧ v < g.size) ∧ g.link u v = g' := by
  unfold addEdge
  rw [Fault.unlessOutOfRange_eq_ok]
  simp

theorem Built.link {g : FlowGraph} (h : g.Built) {u v : BlockId} (hu : u < g.size)
    (hv : v < g.size) : (g.link u v).Built :=
  h.addEdge (addEdge_eq_ok.mpr ⟨⟨hu, hv⟩, rfl⟩)

/-! ## What every construction keeps -/

/-- **The two records of every edge agree in every graph that can be built.** -/
theorem built_linked {g : FlowGraph} (h : g.Built) : g.Linked := by
  induction h with
  | empty =>
      constructor
      · intro u v
        simp [successors, predecessors, get?, FlowGraph.empty]
      · intro u v hv
        simp [successors, get?, FlowGraph.empty] at hv
  | addBlock is _ ih =>
      constructor
      · intro u v
        rw [successors_addBlock, predecessors_addBlock]
        exact ih.symm u v
      · intro u v hv
        rw [successors_addBlock] at hv
        rw [size_addBlock]
        exact Nat.lt_succ_of_lt (ih.lt u v hv)
  | addEdge _ he ih =>
      obtain ⟨⟨hu, hv⟩, rfl⟩ := addEdge_eq_ok.mp he
      constructor
      · intro a b
        rw [mem_successors_link hu, mem_predecessors_link hv, ih.symm a b, and_comm]
      · intro a b hb
        rw [size_link]
        rcases (mem_successors_link hu).mp hb with hb | ⟨_, rfl⟩
        · exact ih.lt a b hb
        · exact hv

/-- Adding edges changes nothing but the edges. -/
theorem addEdges_eq_ok {edges : List (BlockId × BlockId)} {g g' : FlowGraph}
    (h : edges.foldlM (fun g e => g.addEdge e.1 e.2) g = .ok g') :
    (g.Built → g'.Built) ∧ g'.size = g.size ∧ (∀ b, g'.instructions b = g.instructions b) ∧
      ∀ u v, v ∈ g'.successors u ↔ v ∈ g.successors u ∨ (u, v) ∈ edges := by
  induction edges generalizing g with
  | nil =>
      obtain rfl : g = g' := Except.ok.inj h
      simp
  | cons e edges ih =>
      obtain ⟨u, v⟩ := e
      rw [List.foldlM_cons] at h
      cases he : g.addEdge u v with
      | error fault =>
          rw [he] at h
          cases h
      | ok g₁ =>
          rw [he] at h
          obtain ⟨⟨hu, hv⟩, rfl⟩ := addEdge_eq_ok.mp he
          obtain ⟨hbuilt, hsize, hinstructions, hedges⟩ := ih h
          refine ⟨fun hg => hbuilt (hg.link hu hv), hsize.trans (size_link g u v),
            fun b => (hinstructions b).trans (instructions_link g u v b), fun a b => ?_⟩
          rw [hedges, mem_successors_link hu, List.mem_cons, Prod.mk.injEq, or_assoc]

/-- What is built from lists of blocks and edges is built. -/
theorem built_build {blocks : List (List Instruction)} {edges : List (BlockId × BlockId)}
    {g : FlowGraph} (h : build blocks edges = .ok g) : g.Built := by
  have hblocks : ∀ (bs : List (List Instruction)) {g : FlowGraph}, g.Built →
      (bs.foldl addBlock g).Built := by
    intro bs
    induction bs with
    | nil => exact fun hg => hg
    | cons is bs ih => exact fun hg => ih (hg.addBlock is)
  exact (addEdges_eq_ok h).1 (hblocks blocks .empty)

theorem Linked.predecessor_lt {g : FlowGraph} (h : g.Linked) {u v : BlockId}
    (hu : u ∈ g.predecessors v) : u < g.size :=
  lt_of_mem_successors ((h.symm u v).mpr hu)

end ReachingDefs.FlowGraph
