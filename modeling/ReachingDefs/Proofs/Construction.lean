import Mathlib.Data.List.Induction
import ReachingDefs.Proofs.Graph

/-!
# Graphs under construction

A caller builds a graph by requests, of which some may be refused, and goes on with what it
has. Whatever it asks for, in whatever order, the graph is well formed in the end: ids are
positions, and the two lists of neighbours of every block hold just the edges that were
granted, each where it was granted first.

The two records of an edge are made one after the other, each with its own check for an edge
that is there already, and for an edge from a block to itself both are made at that block.
They cannot get out of step, because both are made or none.
-/

namespace ReachingDefs.FlowGraph

/-- A request to a graph under construction. -/
inductive Request where
  | addBlock (instructions : List Instruction)
  | addEdge (u v : BlockId)

/-- The answer to a request. -/
inductive Reply where
  /-- The id of the new block. -/
  | added (b : BlockId)
  | linked
  | refused (fault : Fault)
deriving DecidableEq

/-- Serves a request, and says what became of it. A request that is refused leaves the graph as
it then is. -/
def serve (g : FlowGraph) : Request → FlowGraph × Reply
  | .addBlock is => (g.addBlock is, .added g.size)
  | .addEdge u v =>
    match (insertEdge u v).run.run g with
    | (.ok (), g') => (g', .linked)
    | (.error fault, g') => (g', .refused fault)

/-- The graph that requests make of the empty one. -/
def construct (rs : List Request) : FlowGraph :=
  rs.foldl (fun g r => (g.serve r).1) empty

/-- One of the requests was for an edge from `u` to `v`, and it was granted. -/
def Granted (rs : List Request) (u v : BlockId) : Prop :=
  ∃ front back, rs = front ++ .addEdge u v :: back ∧
    ((construct front).serve (.addEdge u v)).2 = .linked

/-- There was a time when the edge `e` had been granted and the edge `e'` had not. -/
def GrantedFirst (rs : List Request) (e e' : BlockId × BlockId) : Prop :=
  ∃ front back, rs = front ++ back ∧ Granted front e.1 e.2 ∧ ¬ Granted front e'.1 e'.2

/-- The blocks that were asked for, in order. -/
def blocksOf (rs : List Request) : List (List Instruction) :=
  rs.filterMap fun
    | .addBlock is => some is
    | .addEdge .. => none

/-! ## One request -/

/-- A check looks at the graph as it then is, and changes nothing. -/
theorem run_check_bind (g : FlowGraph) (b : BlockId)
    (next : ExceptT Fault (StateM FlowGraph) Unit) :
    (do (← get).check b; next : ExceptT Fault (StateM FlowGraph) Unit).run.run g =
      match g.check b with
      | .ok () => next.run.run g
      | .error fault => (.error fault, g) := by
  have hcheck : (do (← get).check b; next : ExceptT Fault (StateM FlowGraph) Unit).run.run g =
      (ExceptT.bindCont (fun _ => next) (g.check b)).run g := rfl
  rw [hcheck]
  cases g.check b <;> rfl

/-- **An edge is inserted as a whole or not at all**: a fault is found before anything has been
written. -/
theorem run_insertEdge (g : FlowGraph) (u v : BlockId) :
    (insertEdge u v).run.run g =
      match g.addEdge u v with
      | .ok g' => (.ok (), g')
      | .error fault => (.error fault, g) := by
  unfold insertEdge
  rw [run_check_bind, run_check_bind]
  unfold addEdge check Fault.unlessOutOfRange
  by_cases hu : g.size ≤ u
  · simp [hu]
  · by_cases hv : g.size ≤ v
    · simp [hu, hv]
    · simp only [hu, hv, List.find?_cons, List.find?_nil, decide_false]
      rfl

/-- **An edge is refused exactly if one of its ends is no block**, and of two bad ends the
first is reported. -/
theorem serve_addEdge (g : FlowGraph) (u v : BlockId) :
    g.serve (.addEdge u v) =
      if g.size ≤ u then (g, .refused (.nodeOutOfRange u g.size))
      else if g.size ≤ v then (g, .refused (.nodeOutOfRange v g.size))
      else (g.link u v, .linked) := by
  dsimp only [serve]
  rw [run_insertEdge]
  unfold addEdge Fault.unlessOutOfRange
  by_cases hu : g.size ≤ u
  · simp [hu]
  · by_cases hv : g.size ≤ v <;> simp [hu, hv]

/-- A request for an edge is granted, and then both ends are blocks and the edge is recorded; or
it is not, and the graph stays. -/
theorem serve_addEdge_cases (g : FlowGraph) (u v : BlockId) :
    (u < g.size ∧ v < g.size ∧ g.serve (.addEdge u v) = (g.link u v, .linked)) ∨
      (g.serve (.addEdge u v)).1 = g ∧ (g.serve (.addEdge u v)).2 ≠ .linked := by
  rw [serve_addEdge]
  split
  · exact Or.inr ⟨rfl, nofun⟩
  · split
    · exact Or.inr ⟨rfl, nofun⟩
    · rename_i hu hv
      exact Or.inl ⟨Nat.not_le.mp hu, Nat.not_le.mp hv, rfl⟩

/-- What an insertion leaves in order. -/
theorem pairwise_insert {xs : List BlockId} {x : BlockId} {R R' : BlockId → BlockId → Prop}
    (h : xs.Pairwise R) (hkeep : ∀ a b, R a b → R' a b) (hnew : x ∉ xs → ∀ a ∈ xs, R' a x) :
    (OrderedSet.insert xs x).Pairwise R' := by
  unfold OrderedSet.insert
  split
  · exact h.imp (hkeep _ _)
  · rename_i hx
    refine List.pairwise_append.mpr ⟨h.imp (hkeep _ _), List.pairwise_singleton .., ?_⟩
    intro a ha b hb
    rw [List.mem_singleton.mp hb]
    exact hnew hx a ha

/-! ## Histories of requests -/

section Histories

variable {rs : List Request} {r : Request} {u v w : BlockId} {e e' : BlockId × BlockId}

theorem construct_concat (rs : List Request) (r : Request) :
    construct (rs ++ [r]) = ((construct rs).serve r).1 :=
  List.foldl_append

theorem granted_concat :
    Granted (rs ++ [r]) u v ↔
      Granted rs u v ∨ r = .addEdge u v ∧ ((construct rs).serve r).2 = .linked := by
  constructor
  · rintro ⟨front, back, heq, hlinked⟩
    rcases List.eq_nil_or_concat back with rfl | ⟨back, z, rfl⟩
    · -- the last request is the one
      obtain ⟨rfl, hr⟩ := List.append_inj' heq rfl
      obtain rfl := List.head_eq_of_cons_eq hr
      exact Or.inr ⟨rfl, hlinked⟩
    · have hcut : rs ++ [r] = (front ++ .addEdge u v :: back) ++ [z] := by simpa using heq
      exact Or.inl ⟨front, back, (List.append_inj' hcut rfl).1, hlinked⟩
  · rintro (⟨front, back, rfl, hlinked⟩ | ⟨rfl, hlinked⟩)
    · exact ⟨front, back ++ [r], by simp, hlinked⟩
    · exact ⟨rs, [], rfl, hlinked⟩

/-- **What holds of the empty graph and is kept by every request holds after any history.** A
request adds a block, adds an edge, or is refused. -/
theorem construct_induct {P : List Request → FlowGraph → Prop} (hempty : P [] empty)
    (haddBlock : ∀ rs is, P rs (construct rs) →
      (∀ u v, Granted (rs ++ [.addBlock is]) u v ↔ Granted rs u v) →
      P (rs ++ [.addBlock is]) ((construct rs).addBlock is))
    (hlink : ∀ rs a b, a < (construct rs).size → b < (construct rs).size → P rs (construct rs) →
      (∀ u v, Granted (rs ++ [.addEdge a b]) u v ↔ Granted rs u v ∨ u = a ∧ v = b) →
      P (rs ++ [.addEdge a b]) ((construct rs).link a b))
    (hrefused : ∀ rs a b, P rs (construct rs) →
      (∀ u v, Granted (rs ++ [.addEdge a b]) u v ↔ Granted rs u v) →
      P (rs ++ [.addEdge a b]) (construct rs)) (rs : List Request) : P rs (construct rs) := by
  induction rs using List.reverseRecOn with
  | nil => exact hempty
  | append_singleton rs r ih =>
      rw [construct_concat]
      cases r with
      | addBlock is => exact haddBlock rs is ih fun u v => granted_concat.trans (by simp)
      | addEdge a b =>
          rcases serve_addEdge_cases (construct rs) a b with ⟨ha, hb, h⟩ | ⟨h, hnot⟩
          · rw [h]
            refine hlink rs a b ha hb ih fun u v => granted_concat.trans ?_
            simp [h, eq_comm]
          · rw [h]
            refine hrefused rs a b ih fun u v => granted_concat.trans ?_
            simp [hnot]

theorem GrantedFirst.concat (h : GrantedFirst rs e e') (r : Request) :
    GrantedFirst (rs ++ [r]) e e' := by
  obtain ⟨front, back, rfl, he, he'⟩ := h
  exact ⟨front, back ++ [r], List.append_assoc .., he, he'⟩

theorem GrantedFirst.ne (h : GrantedFirst rs e e') : e ≠ e' := by
  rintro rfl
  obtain ⟨_, _, _, he, he'⟩ := h
  exact he' he

theorem construct_built (rs : List Request) : (construct rs).Built :=
  construct_induct (P := fun _ g => g.Built) .empty (fun _ is h _ => h.addBlock is)
    (fun _ _ _ ha hb h _ => h.link ha hb) (fun _ _ _ h _ => h) rs

theorem not_granted_nil : ¬ Granted [] u v := by
  rintro ⟨front, back, h, _⟩
  simp at h

/-- **The successors of a block are the ends of the edges that were granted.** -/
theorem mem_successors_construct : v ∈ (construct rs).successors u ↔ Granted rs u v := by
  induction rs using construct_induct with
  | hempty => exact ⟨fun h => absurd h List.not_mem_nil, fun h => absurd h not_granted_nil⟩
  | haddBlock rs is ih hgranted => rw [successors_addBlock, hgranted, ih]
  | hlink rs a b ha hb ih hgranted => rw [mem_successors_link ha, hgranted, ih]
  | hrefused rs a b ih hgranted => rw [hgranted, ih]

theorem mem_predecessors_construct : u ∈ (construct rs).predecessors v ↔ Granted rs u v := by
  rw [← (built_linked (construct_built rs)).symm, mem_successors_construct]

theorem successors_inOrder (rs : List Request) (u : BlockId) :
    ((construct rs).successors u).Pairwise fun v w => GrantedFirst rs (u, v) (u, w) := by
  induction rs using construct_induct with
  | hempty => exact List.Pairwise.nil
  | haddBlock rs is ih _ =>
      rw [successors_addBlock]
      exact ih.imp fun h => h.concat _
  | hlink rs a b ha hb ih _ =>
      rw [successors_link ha]
      split
      · rename_i hu
        subst hu
        refine pairwise_insert ih (fun _ _ h => h.concat _) fun hnew v hv => ?_
        -- up to now there was an edge to `v`, and none to `b`
        exact ⟨rs, _, rfl, mem_successors_construct.mp hv, mt mem_successors_construct.mpr hnew⟩
      · exact ih.imp fun h => h.concat _
  | hrefused rs a b ih _ => exact ih.imp fun h => h.concat _

theorem predecessors_inOrder (rs : List Request) (v : BlockId) :
    ((construct rs).predecessors v).Pairwise fun u w => GrantedFirst rs (u, v) (w, v) := by
  induction rs using construct_induct with
  | hempty => exact List.Pairwise.nil
  | haddBlock rs is ih _ =>
      rw [predecessors_addBlock]
      exact ih.imp fun h => h.concat _
  | hlink rs a b ha hb ih _ =>
      rw [predecessors_link hb]
      split
      · rename_i hv
        subst hv
        refine pairwise_insert ih (fun _ _ h => h.concat _) fun hnew u hu => ?_
        exact ⟨rs, _, rfl, mem_predecessors_construct.mp hu,
          mt mem_predecessors_construct.mpr hnew⟩
      · exact ih.imp fun h => h.concat _
  | hrefused rs a b ih _ => exact ih.imp fun h => h.concat _

theorem size_construct (rs : List Request) : (construct rs).size = (blocksOf rs).length := by
  induction rs using construct_induct with
  | hempty => rfl
  | haddBlock rs is ih _ => simp [size_addBlock, ih, blocksOf]
  | hlink rs a b _ _ ih _ => simp [size_link, ih, blocksOf]
  | hrefused rs a b ih _ => simp [ih, blocksOf]

/-- **Block `k` is the one that was asked for as number `k`**, and `k` is its id. -/
theorem get?_construct (rs : List Request) (k : BlockId) :
    ((construct rs).get? k).map (fun block => (block.id, block.instructions)) =
      (blocksOf rs)[k]?.map (k, ·) := by
  induction rs using construct_induct with
  | hempty => rfl
  | haddBlock rs is ih _ =>
      have hblocks : blocksOf (rs ++ [.addBlock is]) = blocksOf rs ++ [is] := by simp [blocksOf]
      rw [get?_addBlock, hblocks]
      split
      · rename_i hk
        rw [hk, size_construct, List.getElem?_concat_length]
        rfl
      · rename_i hk
        have hne : k ≠ (blocksOf rs).length := size_construct rs ▸ hk
        rw [ih, List.getElem?_append]
        split
        · rfl
        · -- beyond the new block there is none
          rename_i hnot
          have hle : (blocksOf rs).length ≤ k := Nat.not_lt.mp hnot
          rw [List.getElem?_eq_none hle, List.getElem?_eq_none]
          exact Nat.sub_pos_of_lt (Nat.lt_of_le_of_ne hle hne.symm)
  | hlink rs a b _ _ ih _ =>
      have hblocks : blocksOf (rs ++ [.addEdge a b]) = blocksOf rs := by simp [blocksOf]
      rw [get?_link, Option.map_map, hblocks, ← ih]
      rfl
  | hrefused rs a b ih _ => simp [ih, blocksOf]

end Histories

/-! ## The whole construction -/

/-- What the graph looks like that the requests `rs` have made, and what becomes of the next
one. -/
structure WellFormed (rs : List Request) (g : FlowGraph) : Prop where
  /-- There is a block for every request for one, in order. -/
  size : g.size = (blocksOf rs).length
  block : ∀ k, (g.get? k).map (·.instructions) = (blocksOf rs)[k]?
  id : ∀ k block, g.get? k = some block → block.id = k
  successor_lt : ∀ u v, v ∈ g.successors u → v < g.size
  predecessor_lt : ∀ u v, u ∈ g.predecessors v → u < g.size
  nodup_successors : ∀ u, (g.successors u).Nodup
  nodup_predecessors : ∀ v, (g.predecessors v).Nodup
  /-- Both ends of an edge know it if it was granted, and only then. -/
  mem_successors : ∀ u v, v ∈ g.successors u ↔ Granted rs u v
  mem_predecessors : ∀ u v, u ∈ g.predecessors v ↔ Granted rs u v
  /-- Neighbours are listed in the order in which their edges were first granted. -/
  successors_inOrder : ∀ u,
    (g.successors u).Pairwise fun v w => GrantedFirst rs (u, v) (u, w)
  predecessors_inOrder : ∀ v,
    (g.predecessors v).Pairwise fun u w => GrantedFirst rs (u, v) (w, v)
  isSelfLoop : ∀ u, g.isSelfLoop u = true ↔ Granted rs u u
  addBlock : ∀ is, (g.serve (.addBlock is)).2 = .added g.size
  /-- An edge is refused if one of its ends is no block, the first end being looked at first, and
  then the graph stays as it is. -/
  addEdge : ∀ u v, g.serve (.addEdge u v) =
    if g.size ≤ u then (g, .refused (.nodeOutOfRange u g.size))
    else if g.size ≤ v then (g, .refused (.nodeOutOfRange v g.size))
    else (g.link u v, .linked)

/-- **Every history of requests makes a well-formed graph.** -/
theorem construct_wellFormed (rs : List Request) : WellFormed rs (construct rs) where
  size := size_construct rs
  block k := by
    have h := congrArg (Option.map Prod.snd) (get?_construct rs k)
    simpa [Function.comp_def] using h
  id k block hblock := by
    have h := get?_construct rs k
    rw [hblock] at h
    obtain ⟨is, _, heq⟩ := Option.map_eq_some_iff.mp h.symm
    exact (congrArg Prod.fst heq).symm
  successor_lt := (built_linked (construct_built rs)).lt
  predecessor_lt u v := (built_linked (construct_built rs)).predecessor_lt
  nodup_successors u := (successors_inOrder rs u).imp fun h => mt (congrArg (u, ·)) h.ne
  nodup_predecessors v := (predecessors_inOrder rs v).imp fun h => mt (congrArg (·, v)) h.ne
  mem_successors u v := mem_successors_construct
  mem_predecessors u v := mem_predecessors_construct
  successors_inOrder := successors_inOrder rs
  predecessors_inOrder := predecessors_inOrder rs
  isSelfLoop u := by
    rw [isSelfLoop, List.contains_iff_mem, mem_successors_construct]
  addBlock _ := rfl
  addEdge := serve_addEdge _

/-- The edge from 0 to 1 is refused at first, since there is no block 1 yet; when it is granted,
the loop at 0 is there already. -/
example :
    let g := construct [.addBlock [], .addEdge 0 1, .addEdge 0 0, .addBlock [], .addEdge 0 1,
      .addEdge 0 0]
    g.successors 0 = [0, 1] ∧ g.predecessors 0 = [0] ∧ g.predecessors 1 = [0] := by
  decide

end ReachingDefs.FlowGraph
