import Mathlib.Data.List.Nodup
import Mathlib.Data.List.Sort
import ReachingDefs.Flow.Components
import ReachingDefs.Proofs.Graph
import ReachingDefs.Proofs.Search

/-!
# Components come in topological order

The analysis visits the components of a graph one after another, and what it finds
about a block is only final if everything that leads to the block was visited
before it or together with it. `Topological` is that property of a list of groups,
and `componentOrder_topological` says that the components have it.

A component stands where its first block stands in the reverse finishing order,
which is the block that the search left last. By `Covers.last` a component with an
edge into another one holds a block that was left later still.
-/

namespace ReachingDefs

namespace OrderedSet

variable {α : Type} [DecidableEq α]

theorem ofList_concat (l : List α) (x : α) : ofList (l ++ [x]) = insert (ofList l) x := by
  unfold ofList union
  rw [List.foldl_append]
  rfl

/-- A union appends what is new, each member once. -/
theorem union_eq (xs ys : List α) : union xs ys = xs ++ ofList (ys.filter fun y => y ∉ xs) := by
  induction ys using List.reverseRecOn with
  | nil => exact (List.append_nil xs).symm
  | append_singleton ys y ih =>
      have hunion : union xs (ys ++ [y]) = insert (union xs ys) y := List.foldl_append
      rw [hunion, List.filter_append]
      by_cases hy : y ∈ xs
      · rw [List.filter_cons_of_neg (by simpa using hy), List.filter_nil, List.append_nil, ← ih]
        exact if_pos (mem_union.mpr (Or.inl hy))
      · rw [List.filter_cons_of_pos (by simpa using hy), List.filter_nil, ofList_concat, ih]
        unfold insert
        simp only [List.mem_append, hy, false_or]
        split <;> simp

/-- The first member stays, and its repetitions go. -/
theorem ofList_cons (x : α) (l : List α) : ofList (x :: l) = x :: ofList (l.filter (· ≠ x)) := by
  have h := union_eq [x] l
  simp only [List.mem_singleton] at h
  exact h

/-- What stands in front of a member is what first occurs in front of it. -/
theorem ofList_eq_append {l front back : List α} {x : α} (h : ofList l = front ++ x :: back) :
    ∃ l₁ l₂, l = l₁ ++ x :: l₂ ∧ ofList l₁ = front := by
  induction l using List.reverseRecOn generalizing back with
  | nil => simp [ofList, union] at h
  | append_singleton l y ih =>
      rw [ofList_concat] at h
      unfold insert at h
      split at h
      · obtain ⟨l₁, l₂, rfl, hf⟩ := ih h
        exact ⟨l₁, l₂ ++ [y], by simp, hf⟩
      · rcases List.eq_nil_or_concat back with rfl | ⟨back', z, rfl⟩
        · -- `x` is the member that has just been added
          obtain ⟨hf, hx⟩ := List.append_inj' h rfl
          obtain rfl : y = x := by simpa using hx
          exact ⟨l, [], rfl, hf⟩
        · have hcut : ofList l ++ [y] = (front ++ x :: back') ++ [z] := by
            rw [h]
            simp
          obtain ⟨hl, _⟩ := List.append_inj' hcut rfl
          obtain ⟨l₁, l₂, rfl, hf⟩ := ih hl
          exact ⟨l₁, l₂ ++ [y], by simp, hf⟩

end OrderedSet

namespace FlowGraph

variable {g : FlowGraph}

/-- `v` can be reached from `u` along the edges of `g`. -/
abbrev Leads (g : FlowGraph) : BlockId → BlockId → Prop := Reaches g.successors

theorem reaches_predecessors (hg : g.Linked) {u v : BlockId} :
    Reaches g.predecessors u v ↔ g.Leads v u := by
  constructor
  · intro h
    induction h with
    | refl => exact Relation.ReflTransGen.refl
    | @tail x y _ e ih => exact Relation.ReflTransGen.head ((hg.symm y x).mpr e) ih
  · intro h
    induction h with
    | refl => exact Relation.ReflTransGen.refl
    | @tail x y _ e ih => exact Relation.ReflTransGen.head ((hg.symm x y).mp e) ih

theorem reaches_searchOrder {u v : BlockId} : Reaches g.searchOrder u v ↔ g.Leads u v := by
  have he : ∀ a b, b ∈ g.searchOrder a ↔ b ∈ g.successors a := by
    intro a b
    exact List.mem_reverse
  unfold Leads Reaches
  simp only [he]

theorem Leads.lt (hg : g.Linked) {u v : BlockId} (hu : u < g.size) (h : g.Leads u v) :
    v < g.size := by
  induction h with
  | refl => exact hu
  | tail _ e _ => exact hg.lt _ _ e

/-! ## Components -/

/-- The component of a block holds the blocks that it reaches and that reach it. -/
theorem mem_component (hg : g.Linked) {b c : BlockId} (hb : b < g.size) :
    c ∈ g.component b ↔ Mutual g.successors b c := by
  have hpred : ∀ u, ∀ v ∈ g.predecessors u, v < g.size := by
    intro u v hv
    exact hg.predecessor_lt hv
  unfold component
  simp only [List.mem_filter, List.mem_range, Bool.and_eq_true, Bool.not_eq_true']
  constructor
  · rintro ⟨hc, hdown, hup⟩
    refine ⟨(Trail.isOpen_explore_start hg.lt hb hc).mp hdown, ?_⟩
    exact (reaches_predecessors hg).mp ((Trail.isOpen_explore_start hpred hb hc).mp hup)
  · intro h
    have hc : c < g.size := Leads.lt hg hb h.1
    refine ⟨hc, (Trail.isOpen_explore_start hg.lt hb hc).mpr h.1, ?_⟩
    exact (Trail.isOpen_explore_start hpred hb hc).mpr ((reaches_predecessors hg).mpr h.2)

theorem component_ascending (g : FlowGraph) (b : BlockId) :
    (g.component b).Pairwise (· < ·) :=
  List.pairwise_lt_range.filter _

theorem component_eq_of_mutual (hg : g.Linked) {b c : BlockId} (hb : b < g.size)
    (h : Mutual g.successors b c) : g.component b = g.component c := by
  have hc : c < g.size := Leads.lt hg hb h.1
  refine (g.component_ascending b).eq_of_mem_iff (g.component_ascending c) fun x => ?_
  rw [mem_component hg hb, mem_component hg hc]
  constructor
  · intro hx
    exact ⟨h.2.trans hx.1, hx.2.trans h.1⟩
  · intro hx
    exact ⟨h.1.trans hx.1, hx.2.trans h.2⟩

/-! ## The finishing order -/

theorem reverseFinish_covers (g : FlowGraph) :
    Trail.Covers g.searchOrder (Trail.start g.size)
        ((List.range g.size).foldl (Trail.explore g.searchOrder g.size) (Trail.start g.size))
        g.reverseFinish ∧ ∀ b, b ∈ g.reverseFinish ↔ b < g.size := by
  obtain ⟨left, h, _, hn⟩ := Trail.foldl_searches (Trail.explore_searches g.searchOrder g.size)
    (List.range g.size) (Trail.start g.size) (Nat.le_of_eq (Trail.card_openBlocks_start g.size))
  have hleft : g.reverseFinish = left := by
    unfold reverseFinish
    rw [h.finished]
    exact List.append_nil left
  rw [hleft]
  refine ⟨h, fun b => ⟨fun hb => ?_, fun hb => ?_⟩⟩
  · exact (Trail.isOpen_start g.size b).mp (h.opened b hb)
  · exact hn b (List.mem_range.mpr hb) ((Trail.isOpen_start g.size b).mpr hb)

/-- A block of the component of `w` is left no earlier than `v`, if `w` reaches `v`. -/
theorem left_last (hg : g.Linked) {w v : BlockId} (hw : w < g.size) (h : g.Leads w v) :
    ∃ y, Mutual g.successors w y ∧ Trail.NotBefore g.reverseFinish y v := by
  obtain ⟨hcov, hmem⟩ := reverseFinish_covers g
  have hlt : ∀ u, ∀ x ∈ g.searchOrder u, x < g.size := by
    intro u x hx
    exact hg.lt u x (List.mem_reverse.mp hx)
  obtain ⟨y, hy, hl⟩ := hcov.last w ((hmem w).mpr hw) v ((hmem v).mpr (Leads.lt hg hw h))
    (Trail.openReaches_start hlt (reaches_searchOrder.mpr h))
  exact ⟨y, ⟨reaches_searchOrder.mp hy.1, reaches_searchOrder.mp hy.2⟩, hl⟩

/-! ## The order of the components -/

/-- In a list without repetition, what is listed before `x` stands in front of it. -/
theorem mem_of_pair_sublist {α : Type} {l₁ l₂ : List α} {x y : α} (hnd : (l₁ ++ x :: l₂).Nodup)
    (h : [y, x].Sublist (l₁ ++ x :: l₂)) : y ∈ l₁ := by
  have hx : x ∉ l₂ := (List.nodup_cons.mp (List.nodup_append.mp hnd).2.1).1
  obtain ⟨s₁, s₂, hs, h₁, h₂⟩ := List.sublist_append_iff.mp h
  cases s₁ with
  | cons z s₁ =>
      obtain ⟨rfl, _⟩ := List.cons.inj hs
      exact h₁.subset List.mem_cons_self
  | nil =>
      -- both would have to come from `x` on, where `x` is only once
      rw [List.nil_append] at hs
      subst hs
      cases h₂ with
      | cons _ h₂ => exact absurd (h₂.subset (by simp)) hx
      | cons_cons _ h₂ => exact absurd (h₂.subset (by simp)) hx

/-- Groups that hold every block once and whose edges never point back: whatever
leads to a block is in its own group or in an earlier one. -/
structure Topological (g : FlowGraph) (order : List (List BlockId)) : Prop where
  /-- No block stands in two places. -/
  nodup : order.flatten.Nodup
  /-- Every block has a place. -/
  cover : ∀ b, b ∈ order.flatten ↔ b < g.size
  /-- No edge points back. -/
  forward : ∀ front group back, order = front ++ group :: back →
    ∀ b ∈ group, ∀ p ∈ g.predecessors b, p ∈ group ∨ p ∈ front.flatten

theorem Topological.lt {order : List (List BlockId)} (h : g.Topological order)
    {group : List BlockId} (hgroup : group ∈ order) {b : BlockId} (hb : b ∈ group) : b < g.size :=
  (h.cover b).mp (List.mem_flatten.mpr ⟨group, hgroup, hb⟩)

/-- No block of a group stands in front of it as well. -/
theorem Topological.not_mem_front {front back : List (List BlockId)} {group : List BlockId}
    (h : g.Topological (front ++ group :: back)) {b : BlockId} (hb : b ∈ group) :
    b ∉ front.flatten := by
  intro hmem
  have hnd := h.nodup
  rw [List.flatten_append, List.flatten_cons] at hnd
  exact (List.nodup_append.mp hnd).2.2 b hmem b (List.mem_append_left _ hb) rfl

/-- What leads into the groups at the front stands there as well. -/
theorem Topological.predecessor_mem_front {front back : List (List BlockId)}
    (h : g.Topological (front ++ back)) {b p : BlockId} (hb : b ∈ front.flatten)
    (hp : p ∈ g.predecessors b) : p ∈ front.flatten := by
  obtain ⟨group, hgroup, hbg⟩ := List.mem_flatten.mp hb
  obtain ⟨before, after, rfl⟩ := List.append_of_mem hgroup
  have hforward := h.forward before group (after ++ back) (by simp) b hbg p hp
  rw [List.flatten_append, List.flatten_cons, List.mem_append, List.mem_append]
  exact hforward.elim (fun hp => Or.inr (Or.inl hp)) Or.inl

theorem mem_componentOrder {group : List BlockId} :
    group ∈ g.componentOrder ↔ ∃ b < g.size, g.component b = group := by
  unfold componentOrder
  rw [OrderedSet.mem_ofList, List.mem_map]
  simp only [(reverseFinish_covers g).2]

theorem mem_component_self (hg : g.Linked) {b : BlockId} (hb : b < g.size) :
    b ∈ g.component b :=
  (mem_component hg hb).mpr (Mutual.refl b)

/-- The group of a block is its component. -/
theorem component_of_mem (hg : g.Linked) {group : List BlockId} (h : group ∈ g.componentOrder)
    {b : BlockId} (hb : b ∈ group) : b < g.size ∧ g.component b = group := by
  obtain ⟨a, ha, rfl⟩ := mem_componentOrder.mp h
  have hm := (mem_component hg ha).mp hb
  exact ⟨Leads.lt hg ha hm.1, (component_eq_of_mutual hg ha hm).symm⟩

theorem nodup_componentOrder (hg : g.Linked) : g.componentOrder.flatten.Nodup := by
  rw [List.nodup_flatten]
  constructor
  · intro group hgroup
    obtain ⟨b, _, rfl⟩ := mem_componentOrder.mp hgroup
    exact List.nodup_range.filter _
  · refine (OrderedSet.nodup_ofList _).pairwise_of_forall_ne ?_
    intro a ha c hc hne x hxa hxc
    exact hne ((component_of_mem hg ha hxa).2.symm.trans (component_of_mem hg hc hxc).2)

/-- **The components are in topological order.** -/
theorem componentOrder_topological (hg : g.Linked) : g.Topological g.componentOrder where
  nodup := nodup_componentOrder hg
  cover := by
    intro b
    rw [List.mem_flatten]
    constructor
    · rintro ⟨group, hgroup, hb⟩
      exact (component_of_mem hg hgroup hb).1
    · intro hb
      exact ⟨g.component b, mem_componentOrder.mpr ⟨b, hb, rfl⟩, mem_component_self hg hb⟩
  forward := by
    intro front group back horder b hb p hp
    have hgroup : group ∈ g.componentOrder := by rw [horder]; simp
    obtain ⟨hlt, hcomp⟩ := component_of_mem hg hgroup hb
    have hplt := hg.predecessor_lt hp
    -- `x` is the block of the group that the search left last
    obtain ⟨l₁, l₂, hl, hfront⟩ := OrderedSet.ofList_eq_append horder
    obtain ⟨f₁, f₂, hf, hf₁, hf₂⟩ := List.map_eq_append_iff.mp hl
    obtain ⟨x, f₃, rfl, hx, _⟩ := List.map_eq_cons_iff.mp hf₂
    have hxlt : x < g.size := ((reverseFinish_covers g).2 x).mp (by rw [hf]; simp)
    have hbx : Mutual g.successors b x := by
      rw [← mem_component hg hlt, hcomp, ← hx]
      exact mem_component_self hg hxlt
    have hpx : g.Leads p x := Relation.ReflTransGen.head ((hg.symm p b).mpr hp) hbx.1
    obtain ⟨y, hy, hl⟩ := left_last hg hplt hpx
    rcases hl with rfl | hs
    · -- `p` belongs to the group itself
      left
      rw [← hx, mem_component hg hxlt]
      exact ⟨hy.2, hy.1⟩
    · -- a block of the component of `p` was left after the whole group
      right
      have hnd := (reverseFinish_covers g).1.nodup
      rw [hf] at hs hnd
      have hyf : y ∈ f₁ := mem_of_pair_sublist hnd hs
      rw [List.mem_flatten]
      refine ⟨g.component p, ?_, mem_component_self hg hplt⟩
      rw [← hfront, OrderedSet.mem_ofList, ← hf₁, component_eq_of_mutual hg hplt hy]
      exact List.mem_map_of_mem hyf

end FlowGraph

end ReachingDefs
