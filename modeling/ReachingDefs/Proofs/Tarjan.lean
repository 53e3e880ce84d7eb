import ReachingDefs.Proofs.Components

/-!
# The components that Tarjan's algorithm finds

Tarjan's algorithm finds the components in the course of one depth-first search. It numbers
the blocks as it enters them and keeps them on a stack, and it carries along the lowest
number on the stack that can be seen from the current block. A block that sees nothing lower
than itself is the root of a component: what lies on the stack from there on is taken off,
and is the component.

`tarjan_eq` says that the groups come out as `componentOrder` lists them. The proof has three
parts.

* `Holds` is what is true between two steps. A block is on the stack exactly as long as it
  reaches a block that is being visited, and the groups so far are the components of the
  blocks that were left and are off the stack.
* `Lowers` says what the lowest number is worth: it belongs to a block that can be reached,
  and no edge that was followed leads to a lower one. From both follows `low_eq_iff`, that it
  tells roots from other blocks.
* `Follows` puts the two together with what the search itself does, and is carried through
  the recursion.
-/

namespace ReachingDefs

/-- How far the search has come that takes components off a stack. -/
structure Tarjan where
  trail : Trail
  /-- How many blocks have been entered. -/
  count : Nat
  /-- The blocks that have been entered and are in no group yet, with their numbers, the
  last one first. -/
  stack : List (BlockId × Nat)
  /-- The groups, the last one first. -/
  groups : List (List BlockId)

namespace Tarjan

def start (n : Nat) : Tarjan := ⟨.start n, 0, [], []⟩

/-- Gives `b` the next number and puts it on the stack. -/
def enter (t : Tarjan) (b : BlockId) : Tarjan :=
  { t with trail := t.trail.enter b, count := t.count + 1, stack := (b, t.count) :: t.stack }

def leave (t : Tarjan) (b : BlockId) : Tarjan :=
  { t with trail := t.trail.leave b }

/-- Takes everything down to `b` off the stack, as one group. -/
def cut (t : Tarjan) (b : BlockId) : Tarjan :=
  { t with
    stack := (t.stack.dropWhile (·.1 ≠ b)).tail
    groups := ((t.stack.takeWhile (·.1 ≠ b)).map (·.1) ++ [b]).mergeSort :: t.groups }

/-- Takes notice of an edge to `b`, which has been entered before: its number counts if it is
still on the stack. -/
def notice (r : Nat × Tarjan) (b : BlockId) : Nat × Tarjan :=
  (min r.1 ((r.2.stack.lookup b).getD r.1), r.2)

/-- Follows an edge to `b`. Along with the search goes the lowest number on the stack that
has been seen from the block that the edge leaves; if that is the number of the block itself,
the block is the root of a component. -/
def follow (next : BlockId → List BlockId) : (depth : Nat) → Nat × Tarjan → BlockId → Nat × Tarjan
  | 0, r, b => notice r b
  | depth + 1, (low, t), b =>
    if t.trail.isOpen b then
      let r := (next b).foldl (follow next depth) (t.count, t.enter b)
      (min low r.1, if r.1 = t.count then (r.2.cut b).leave b else r.2.leave b)
    else notice (low, t) b

end Tarjan

/-- The components in the order in which Tarjan's algorithm finds them, the last one first. -/
def FlowGraph.tarjan (g : FlowGraph) : List (List BlockId) :=
  ((List.range g.size).foldl (Tarjan.follow g.searchOrder g.size) (0, .start g.size)).2.groups

/-! ## Blocks being visited -/

namespace Trail

variable {g : FlowGraph} {t t₁ : Trail} {path : List BlockId} {b : BlockId}

/-- `v` has been entered. -/
def Seen (g : FlowGraph) (t : Trail) (v : BlockId) : Prop :=
  v < g.size ∧ t.isOpen v = false

/-- The blocks of `path` have been entered and not left yet. -/
structure Visiting (g : FlowGraph) (path : List BlockId) (t : Trail) : Prop where
  lt : ∀ v, t.isOpen v = true → v < g.size
  seen : ∀ u ∈ path, t.Seen g u
  finished : ∀ v, v ∈ t.finished ↔ t.Seen g v ∧ v ∉ path
  /-- No edge leads from a block that has been left to one that has not been entered. -/
  closed : ∀ v, t.Seen g v → v ∉ path → ∀ w ∈ g.searchOrder v, t.Seen g w

/-- A block from which a new one can be reached reaches the path. -/
theorem Visiting.reaches_path (h : Visiting g path t) {v w : BlockId}
    (hr : Reaches g.searchOrder v w) (hv : t.Seen g v) (hw : ¬ t.Seen g w) :
    ∃ u ∈ path, Reaches g.searchOrder v u := by
  induction hr using Relation.ReflTransGen.head_induction_on with
  | refl => exact absurd hv hw
  | @head v x e _ ih =>
      by_cases hp : v ∈ path
      · exact ⟨v, hp, Relation.ReflTransGen.refl⟩
      · obtain ⟨u, hu, hx⟩ := ih (h.closed v hv hp x e)
        exact ⟨u, hu, hx.head e⟩

theorem not_seen_of_isOpen (hb : t.isOpen b = true) : ¬ t.Seen g b := by
  intro hs
  rw [hs.2] at hb
  cases hb

theorem seen_enter (hb : b < g.size) (v : BlockId) :
    (t.enter b).Seen g v ↔ t.Seen g v ∨ v = b := by
  unfold Seen
  rw [← Bool.not_eq_true, ← Bool.not_eq_true, isOpen_enter]
  constructor
  · rintro ⟨hv, hnot⟩
    by_cases hvb : v = b
    · exact Or.inr hvb
    · exact Or.inl ⟨hv, fun ho => hnot ⟨ho, hvb⟩⟩
  · rintro (⟨hv, hnot⟩ | rfl)
    · exact ⟨hv, fun h => hnot h.1⟩
    · exact ⟨hb, fun h => h.2 rfl⟩

theorem Visiting.enter (h : Visiting g path t) (hb : t.isOpen b = true) :
    Visiting g (b :: path) (t.enter b) := by
  have hnew : ¬ t.Seen g b := not_seen_of_isOpen hb
  have hseen := seen_enter (t := t) (h.lt b hb)
  refine ⟨?_, ?_, ?_, ?_⟩
  · intro v hv
    exact h.lt v ((isOpen_enter t b v).mp hv).1
  · intro u hu
    rcases List.mem_cons.mp hu with rfl | hu
    · exact (hseen u).mpr (Or.inr rfl)
    · exact (hseen u).mpr (Or.inl (h.seen u hu))
  · intro v
    show v ∈ t.finished ↔ _
    rw [h.finished, hseen, List.mem_cons]
    constructor
    · rintro ⟨hv, hp⟩
      exact ⟨Or.inl hv, fun hm => hm.elim (fun he => hnew (he ▸ hv)) hp⟩
    · rintro ⟨hv, hm⟩
      obtain ⟨hvb, hp⟩ := not_or.mp hm
      exact ⟨hv.resolve_right hvb, hp⟩
  · intro v hv hp w hw
    obtain ⟨hvb, hp⟩ := not_or.mp (mt List.mem_cons.mpr hp)
    exact (hseen w).mpr (Or.inl (h.closed v (((hseen v).mp hv).resolve_right hvb) hp w hw))

theorem Visiting.leave (h : Visiting g (b :: path) t) (hb : b ∉ path)
    (hnext : ∀ w ∈ g.searchOrder b, t.Seen g w) : Visiting g path (t.leave b) := by
  refine ⟨h.lt, fun u hu => h.seen u (List.mem_cons_of_mem _ hu), ?_, ?_⟩
  · intro v
    show v ∈ b :: t.finished ↔ t.Seen g v ∧ _
    rw [List.mem_cons, h.finished, List.mem_cons]
    constructor
    · rintro (rfl | ⟨hv, hm⟩)
      · exact ⟨h.seen v List.mem_cons_self, hb⟩
      · exact ⟨hv, fun hp => hm (Or.inr hp)⟩
    · rintro ⟨hv, hp⟩
      by_cases hvb : v = b
      · exact Or.inl hvb
      · exact Or.inr ⟨hv, fun hm => hm.elim hvb hp⟩
  · intro v hv hp w hw
    by_cases hvb : v = b
    · exact hnext w (hvb ▸ hw)
    · exact h.closed v hv (fun hm => (List.mem_cons.mp hm).elim hvb hp) w hw

/-- A search has entered, besides what was entered before, the blocks that it left. -/
theorem Searches.seen {bs left : List BlockId} (h : Searches g.searchOrder bs t t₁ left)
    (hlt : ∀ v, t.isOpen v = true → v < g.size) (v : BlockId) :
    t₁.Seen g v ↔ t.Seen g v ∨ v ∈ left := by
  unfold Seen
  rw [← Bool.not_eq_true, ← Bool.not_eq_true, h.covers.isOpen]
  constructor
  · rintro ⟨hv, hnot⟩
    by_cases hmem : v ∈ left
    · exact Or.inr hmem
    · exact Or.inl ⟨hv, fun ho => hnot ⟨ho, hmem⟩⟩
  · rintro (⟨hv, hnot⟩ | hmem)
    · exact ⟨hv, fun h => hnot h.1⟩
    · exact ⟨hlt v (h.covers.opened v hmem), fun h => h.2 hmem⟩

/-- An edge out of what a search left leads to a block of the same search, or to one that had
been entered before. -/
theorem Searches.mem_or_seen (hg : g.Linked) {bs left : List BlockId}
    (h : Searches g.searchOrder bs t t₁ left) {v w : BlockId} (hv : v ∈ left)
    (hw : w ∈ g.searchOrder v) : w ∈ left ∨ t.Seen g w := by
  by_cases ho : t.isOpen w = true
  · exact Or.inl (h.covers.closed v hv w hw ho)
  · exact Or.inr ⟨hg.lt v w (List.mem_reverse.mp hw), Bool.eq_false_iff.mpr ho⟩

end Trail

namespace Tarjan

variable {g : FlowGraph} {next : BlockId → List BlockId} {t u : Tarjan} {path : List BlockId}
  {b : BlockId}

/-! ## The same search -/

theorem trail_foldl_follow {depth : Nat}
    (h : ∀ r b, (follow next depth r b).2.trail = Trail.explore next depth r.2.trail b)
    (bs : List BlockId) (r : Nat × Tarjan) :
    (bs.foldl (follow next depth) r).2.trail = bs.foldl (Trail.explore next depth) r.2.trail := by
  induction bs generalizing r with
  | nil => rfl
  | cons b bs ih => rw [List.foldl_cons, List.foldl_cons, ih, h]

theorem trail_follow (depth : Nat) (r : Nat × Tarjan) (b : BlockId) :
    (follow next depth r b).2.trail = Trail.explore next depth r.2.trail b := by
  induction depth generalizing r b with
  | zero => rfl
  | succ depth ih =>
      obtain ⟨low, t⟩ := r
      unfold follow Trail.explore
      dsimp only
      split
      · have hfold := trail_foldl_follow ih (next b) (t.count, t.enter b)
        show Tarjan.trail (if _ then _ else _) = Trail.leave _ b
        rw [show t.trail.enter b = (t.enter b).trail from rfl, ← hfold]
        split <;> rfl
      · rfl

/-! ## What holds between two steps -/

/-- The blocks on the stack. -/
def blocks (t : Tarjan) : List BlockId := t.stack.map (·.1)

/-- What holds while the blocks of `path` are being visited. -/
structure Holds (g : FlowGraph) (path : List BlockId) (t : Tarjan) : Prop where
  visiting : t.trail.Visiting g path
  /-- A block is on the stack as long as it reaches one that is being visited. -/
  onStack : ∀ v, v ∈ t.blocks ↔ t.trail.Seen g v ∧ ∃ u ∈ path, Reaches g.searchOrder v u
  nodup : t.blocks.Nodup
  numbers : ∀ e ∈ t.stack, e.2 < t.count
  /-- The groups are the components of the blocks that have been taken off the stack. -/
  groups : t.groups =
    OrderedSet.ofList ((t.trail.finished.filter fun v => v ∉ t.blocks).map g.component)

theorem Holds.not_mem_blocks (h : Holds g path t) (hb : t.trail.isOpen b = true) :
    b ∉ t.blocks := fun hmem =>
  Trail.not_seen_of_isOpen hb ((h.onStack b).mp hmem).1

/-- **Entering a block.** -/
theorem Holds.enter (h : Holds g path t) (hb : t.trail.isOpen b = true) :
    Holds g (b :: path) (t.enter b) := by
  have hnew : ¬ t.trail.Seen g b := Trail.not_seen_of_isOpen hb
  refine ⟨h.visiting.enter hb, ?_, List.nodup_cons.mpr ⟨h.not_mem_blocks hb, h.nodup⟩, ?_, ?_⟩
  · intro v
    show v ∈ b :: t.blocks ↔ (t.trail.enter b).Seen g v ∧ _
    rw [List.mem_cons, Trail.seen_enter (h.visiting.lt b hb), h.onStack]
    constructor
    · rintro (rfl | ⟨hv, u, hu, hr⟩)
      · exact ⟨Or.inr rfl, v, List.mem_cons_self, Relation.ReflTransGen.refl⟩
      · exact ⟨Or.inl hv, u, List.mem_cons_of_mem _ hu, hr⟩
    · rintro ⟨hv | rfl, u, hu, hr⟩
      · rcases List.mem_cons.mp hu with rfl | hu
        · -- `b` is new, so on the way to it there is a block of the path
          exact Or.inr ⟨hv, h.visiting.reaches_path hr hv hnew⟩
        · exact Or.inr ⟨hv, u, hu, hr⟩
      · exact Or.inl rfl
  · intro e he
    rcases List.mem_cons.mp he with rfl | he
    · exact Nat.lt_succ_self _
    · exact Nat.lt_succ_of_lt (h.numbers e he)
  · show t.groups = OrderedSet.ofList ((t.trail.finished.filter fun v => v ∉ b :: t.blocks).map _)
    rw [h.groups]
    congr 2
    refine List.filter_congr fun v hv => ?_
    have hvb : v ≠ b := fun he => hnew (he ▸ ((h.visiting.finished v).mp hv).1)
    simp [hvb]

/-- **Leaving a block that is not the root of its component.** -/
theorem Holds.leave (h : Holds g (b :: path) u) (hb : b ∉ path)
    (hnext : ∀ w ∈ g.searchOrder b, u.trail.Seen g w)
    (hback : ∃ v ∈ path, Reaches g.searchOrder b v) : Holds g path (u.leave b) := by
  obtain ⟨v, hv, hbv⟩ := hback
  refine ⟨h.visiting.leave hb hnext, ?_, h.nodup, h.numbers, ?_⟩
  · intro w
    rw [show w ∈ (u.leave b).blocks ↔ _ from h.onStack w]
    refine and_congr_right fun _ => ⟨?_, ?_⟩
    · rintro ⟨x, hx, hwx⟩
      rcases List.mem_cons.mp hx with rfl | hx
      · exact ⟨v, hv, hwx.trans hbv⟩
      · exact ⟨x, hx, hwx⟩
    · rintro ⟨x, hx, hwx⟩
      exact ⟨x, List.mem_cons_of_mem _ hx, hwx⟩
  · -- `b` stays on the stack
    have hmem : b ∈ u.blocks := (h.onStack b).mpr
      ⟨h.visiting.seen b List.mem_cons_self, b, List.mem_cons_self, Relation.ReflTransGen.refl⟩
    show u.groups =
      OrderedSet.ofList (((b :: u.trail.finished).filter fun v => v ∉ u.blocks).map g.component)
    rw [h.groups, List.filter_cons_of_neg (by simpa using hmem)]

theorem blocks_of_stack {new : List (BlockId × Nat)} {n : Nat}
    (hstack : u.stack = new ++ (b, n) :: t.stack) :
    u.blocks = (new.map (·.1) ++ [b]) ++ t.blocks := by
  unfold blocks
  rw [hstack, List.map_append, List.map_cons, List.append_assoc]
  rfl

/-- The blocks on the stack above the root of a component, and the root itself, are the
component. -/
theorem Holds.mem_component_iff (hg : g.Linked) (h : Holds g (b :: path) u)
    (hnext : ∀ w ∈ g.searchOrder b, u.trail.Seen g w)
    (hroot : ¬ ∃ v ∈ path, Reaches g.searchOrder b v) (ht : Holds g path t)
    {new : List (BlockId × Nat)} {n : Nat} (hstack : u.stack = new ++ (b, n) :: t.stack)
    (hnew : ∀ e ∈ new, Reaches g.searchOrder b e.1) (v : BlockId) :
    v ∈ g.component b ↔ v ∈ new.map (·.1) ++ [b] := by
  have hblocks := blocks_of_stack hstack
  have hb : b < g.size := (h.visiting.seen b List.mem_cons_self).1
  -- everything that `b` reaches has been entered
  have hseen : ∀ w, Reaches g.searchOrder b w → u.trail.Seen g w := by
    intro w hw
    induction hw with
    | refl => exact h.visiting.seen b List.mem_cons_self
    | @tail x w hx e ih =>
        by_cases hxb : x = b
        · exact hnext w (hxb ▸ e)
        · refine h.visiting.closed x ih (fun hm => ?_) w e
          exact (List.mem_cons.mp hm).elim hxb fun hp => hroot ⟨x, hp, hx⟩
  rw [FlowGraph.mem_component hg hb]
  show g.Leads b v ∧ g.Leads v b ↔ _
  rw [← FlowGraph.reaches_searchOrder, ← FlowGraph.reaches_searchOrder]
  constructor
  · rintro ⟨hbv, hvb⟩
    have hmem : v ∈ u.blocks := (h.onStack v).mpr ⟨hseen v hbv, b, List.mem_cons_self, hvb⟩
    rw [hblocks] at hmem
    rcases List.mem_append.mp hmem with hmem | hmem
    · exact hmem
    · obtain ⟨_, x, hx, hvx⟩ := (ht.onStack v).mp hmem
      exact absurd ⟨x, hx, hbv.trans hvx⟩ hroot
  · intro hv
    have hmem : v ∈ u.blocks := hblocks ▸ List.mem_append_left _ hv
    have hbv : Reaches g.searchOrder b v := by
      rcases List.mem_append.mp hv with hv | hv
      · obtain ⟨e, he, rfl⟩ := List.mem_map.mp hv
        exact hnew e he
      · rw [List.mem_singleton.mp hv]
        exact Relation.ReflTransGen.refl
    obtain ⟨_, x, hx, hvx⟩ := (h.onStack v).mp hmem
    rcases List.mem_cons.mp hx with rfl | hx
    · exact ⟨hbv, hvx⟩
    · exact absurd ⟨x, hx, hbv.trans hvx⟩ hroot

theorem mergeSort_eq {l k : List BlockId} (hk : k.Pairwise (· < ·)) (hl : l.Nodup)
    (h : ∀ v, v ∈ k ↔ v ∈ l) : l.mergeSort = k := by
  have hperm := List.mergeSort_perm l (· ≤ ·)
  have hlt : l.mergeSort.Pairwise (· < ·) := by
    refine ((List.pairwise_mergeSort' (· ≤ ·) l).and (hperm.nodup_iff.mpr hl)).imp ?_
    rintro a b ⟨hle, hne⟩
    exact Nat.lt_of_le_of_ne hle hne
  exact hlt.eq_of_mem_iff hk fun v => by rw [hperm.mem_iff, h]

theorem cut_eq {new rest : List (BlockId × Nat)} {n : Nat}
    (hstack : u.stack = new ++ (b, n) :: rest) (hnd : u.blocks.Nodup) :
    u.cut b = { u with
      stack := rest, groups := (new.map (·.1) ++ [b]).mergeSort :: u.groups } := by
  unfold blocks at hnd
  rw [hstack, List.map_append, List.map_cons] at hnd
  have hnew : b ∉ new.map (·.1) := fun hmem =>
    (List.nodup_append.mp hnd).2.2 b hmem b List.mem_cons_self rfl
  have hall : ∀ e ∈ new, (decide (e.1 ≠ b)) = true := fun e he =>
    decide_eq_true fun heq => hnew (heq ▸ List.mem_map_of_mem he)
  unfold cut
  rw [hstack, List.takeWhile_append_of_pos hall, List.dropWhile_append_of_pos hall]
  simp

/-- The groups after the component of `b` has been taken off the stack. -/
theorem Holds.groups_cut (hg : g.Linked) (h : Holds g (b :: path) u) {top : List BlockId}
    (hblocks : u.blocks = top ++ t.blocks) (hb : b ∉ t.blocks)
    (htop : ∀ v, v ∈ g.component b ↔ v ∈ top) :
    g.component b :: u.groups = OrderedSet.ofList
      (((b :: u.trail.finished).filter fun v => v ∉ t.blocks).map g.component) := by
  have hlt : b < g.size := (h.visiting.seen b List.mem_cons_self).1
  rw [h.groups, List.filter_cons_of_pos (by simpa using hb), List.map_cons,
    OrderedSet.ofList_cons, List.filter_map, List.filter_filter]
  congr 3
  -- of the blocks that have been left, those of the component of `b` go now
  refine List.filter_congr fun v hv => ?_
  have hvlt : v < g.size := ((h.visiting.finished v).mp hv).1.1
  have hsame : g.component v = g.component b ↔ v ∈ top := by
    rw [← htop]
    constructor
    · intro heq
      exact heq ▸ FlowGraph.mem_component_self hg hvlt
    · intro hmem
      have hmutual := (FlowGraph.mem_component hg hlt).mp hmem
      exact (FlowGraph.component_eq_of_mutual hg hlt hmutual).symm
  rw [hblocks, Bool.eq_iff_iff]
  simp only [Function.comp_apply, Bool.and_eq_true, decide_eq_true_eq, List.mem_append, ne_eq,
    hsame]
  tauto

/-- **Leaving the root of a component.** -/
theorem Holds.cut (hg : g.Linked) (ht : Holds g path t) (h : Holds g (b :: path) u)
    {left : List BlockId}
    (hs : Trail.Searches g.searchOrder [b] t.trail (u.trail.leave b) left) (hb : b ∉ path)
    (hnext : ∀ w ∈ g.searchOrder b, u.trail.Seen g w)
    (hroot : ¬ ∃ v ∈ path, Reaches g.searchOrder b v)
    {new : List (BlockId × Nat)} {n : Nat} (hstack : u.stack = new ++ (b, n) :: t.stack)
    (hnew : ∀ e ∈ new, e.1 ∈ left) : Holds g path ((u.cut b).leave b) := by
  have hseen : ∀ v, u.trail.Seen g v ↔ t.trail.Seen g v ∨ v ∈ left := hs.seen ht.visiting.lt
  have htop := h.mem_component_iff hg hnext hroot ht hstack
    fun e he => hs.reaches_start (hnew e he)
  have hblocks := blocks_of_stack hstack
  obtain ⟨hnd, _, hdisjoint⟩ := List.nodup_append.mp (hblocks ▸ h.nodup)
  have hbt : b ∉ t.blocks := fun hmem => hdisjoint b (by simp) b hmem rfl
  rw [cut_eq hstack h.nodup, mergeSort_eq (g.component_ascending b) hnd htop]
  refine ⟨h.visiting.leave hb hnext, ?_, ht.nodup, ?_, h.groups_cut hg hblocks hbt htop⟩
  · intro v
    show v ∈ t.blocks ↔ u.trail.Seen g v ∧ _
    rw [ht.onStack, hseen]
    constructor
    · rintro ⟨hv, hreach⟩
      exact ⟨Or.inl hv, hreach⟩
    · rintro ⟨hv, x, hx, hvx⟩
      refine ⟨hv.resolve_right fun hmem => ?_, x, hx, hvx⟩
      exact hroot ⟨x, hx, (hs.reaches_start hmem).trans hvx⟩
  · intro e he
    exact h.numbers e (hstack ▸ List.mem_append_right _ (List.mem_cons_of_mem _ he))

/-! ## The lowest number -/

/-- With `stack` on the stack, following the edges to `bs` and leaving the blocks `left` on the
way brings the lowest number from `low` to `low'`. -/
structure Lowers (next : BlockId → List BlockId) (bs left : List BlockId)
    (stack : List (BlockId × Nat)) (low low' : Nat) : Prop where
  le : low' ≤ low
  /-- It is the number of a block that can be reached. -/
  genuine : low' = low ∨ ∃ w, (w, low') ∈ stack ∧ ∃ b ∈ bs, Reaches next b w
  /-- No edge leads to a lower one. -/
  bound : ∀ w m, (w, m) ∈ stack → (w ∈ bs ∨ ∃ x ∈ left, w ∈ next x) → low' ≤ m

theorem Lowers.nil (stack : List (BlockId × Nat)) (low : Nat) :
    Lowers next [] [] stack low low := by
  refine ⟨Nat.le_refl _, Or.inl rfl, ?_⟩
  rintro w m _ (hw | ⟨x, hx, _⟩)
  · exact absurd hw List.not_mem_nil
  · exact absurd hx List.not_mem_nil

theorem Lowers.cons {bs left₁ left₂ : List BlockId} {stack new : List (BlockId × Nat)}
    {low low₁ low₂ : Nat} (h₁ : Lowers next [b] left₁ stack low low₁)
    (h₂ : Lowers next bs left₂ (new ++ stack) low₁ low₂) (hnew : ∀ e ∈ new, low ≤ e.2) :
    Lowers next (b :: bs) (left₂ ++ left₁) stack low low₂ := by
  have hle : low₂ ≤ low := Nat.le_trans h₂.le h₁.le
  refine ⟨hle, ?_, ?_⟩
  · rcases h₂.genuine with heq | ⟨w, hw, d, hd, hr⟩
    · rw [heq]
      refine h₁.genuine.imp id ?_
      rintro ⟨w, hw, d, hd, hr⟩
      exact ⟨w, hw, d, List.mem_cons.mpr (Or.inl (List.mem_singleton.mp hd)), hr⟩
    · rcases List.mem_append.mp hw with hw | hw
      · -- a number given on the way is not lower than where we started
        exact Or.inl (Nat.le_antisymm hle (hnew _ hw))
      · exact Or.inr ⟨w, hw, d, List.mem_cons_of_mem _ hd, hr⟩
  · intro w m hw hedge
    have hfirst : (w ∈ [b] ∨ ∃ x ∈ left₁, w ∈ next x) → low₂ ≤ m := fun he =>
      Nat.le_trans h₂.le (h₁.bound w m hw he)
    have hrest : (w ∈ bs ∨ ∃ x ∈ left₂, w ∈ next x) → low₂ ≤ m :=
      h₂.bound w m (List.mem_append_right _ hw)
    rcases hedge with hmem | ⟨x, hx, he⟩
    · rcases List.mem_cons.mp hmem with rfl | hmem
      · exact hfirst (Or.inl (List.mem_singleton_self w))
      · exact hrest (Or.inl hmem)
    · rcases List.mem_append.mp hx with hx | hx
      · exact hrest (Or.inr ⟨x, hx, he⟩)
      · exact hfirst (Or.inr ⟨x, hx, he⟩)

/-- What `b` sees, its neighbour sees through it. -/
theorem Lowers.around {left : List BlockId} {stack : List (BlockId × Nat)} {low n own : Nat}
    (h : Lowers next (next b) left ((b, n) :: stack) n own) (hlow : low ≤ n)
    (hb : b ∉ stack.map (·.1)) : Lowers next [b] (b :: left) stack low (min low own) := by
  refine ⟨Nat.min_le_left .., ?_, ?_⟩
  · rcases Nat.le_total low own with hle | hge
    · exact Or.inl (Nat.min_eq_left hle)
    · rw [Nat.min_eq_right hge]
      rcases h.genuine with heq | ⟨w, hw, c, hc, hr⟩
      · exact Or.inl (Nat.le_antisymm hge (heq ▸ hlow))
      · rcases List.mem_cons.mp hw with heq | hw
        · have hown : own = n := congrArg Prod.snd heq
          exact Or.inl (Nat.le_antisymm hge (hown ▸ hlow))
        · exact Or.inr ⟨w, hw, b, List.mem_singleton_self b, hr.head hc⟩
  · intro w m hw hedge
    refine Nat.le_trans (Nat.min_le_right ..) (h.bound w m (List.mem_cons_of_mem _ hw) ?_)
    rcases hedge with hmem | ⟨x, hx, he⟩
    · rw [List.mem_singleton.mp hmem] at hw
      exact absurd (List.mem_map_of_mem hw) hb
    · rcases List.mem_cons.mp hx with rfl | hx
      · exact Or.inl he
      · exact Or.inr ⟨x, hx, he⟩

theorem lookup_eq_some {l : List (BlockId × Nat)} (hl : (l.map (·.1)).Nodup) {m : Nat}
    (h : (b, m) ∈ l) : l.lookup b = some m := by
  obtain ⟨front, back, rfl⟩ := List.append_of_mem h
  rw [List.map_append, List.map_cons] at hl
  refine List.lookup_eq_some_iff.mpr ⟨front, back, rfl, fun e he => ?_⟩
  have hne := (List.nodup_append.mp hl).2.2 e.1 (List.mem_map_of_mem he) b List.mem_cons_self
  simpa using Ne.symm hne

theorem Lowers.notice {stack : List (BlockId × Nat)} (hnd : (stack.map (·.1)).Nodup) (low : Nat) :
    Lowers next [b] [] stack low (min low ((stack.lookup b).getD low)) := by
  refine ⟨Nat.min_le_left .., ?_, ?_⟩
  · cases hl : stack.lookup b with
    | none => exact Or.inl (Nat.min_self _)
    | some m =>
        rcases Nat.le_total low m with hle | hle
        · exact Or.inl (Nat.min_eq_left hle)
        · obtain ⟨front, back, hs, _⟩ := List.lookup_eq_some_iff.mp hl
          refine Or.inr ⟨b, ?_, b, List.mem_singleton_self b, Relation.ReflTransGen.refl⟩
          rw [Option.getD_some, Nat.min_eq_right hle, hs]
          simp
  · rintro w m hw (hmem | ⟨x, hx, _⟩)
    · rw [List.mem_singleton.mp hmem] at hw
      rw [lookup_eq_some hnd hw]
      exact Nat.min_le_right ..
    · exact absurd hx List.not_mem_nil

/-- On a way out of a set there is an edge out of it. -/
theorem exists_exit {P : BlockId → Prop} {v w : BlockId} (hr : Reaches next v w) (hv : P v)
    (hw : ¬ P w) : ∃ x y, P x ∧ y ∈ next x ∧ ¬ P y ∧ Reaches next y w := by
  induction hr using Relation.ReflTransGen.head_induction_on with
  | refl => exact absurd hv hw
  | @head v x e hx ih =>
      by_cases hp : P x
      · exact ih hp
      · exact ⟨v, x, hv, e, hp, hx⟩

/-- If `b` reaches a block that was being visited before, then an edge out of what the search
from `b` left leads to the stack. -/
theorem Holds.exists_edge (hg : g.Linked) (h : Holds g path t) {t₁ : Trail} {left : List BlockId}
    (hs : Trail.Searches g.searchOrder [b] t.trail t₁ left) (hb : b ∈ left) {v : BlockId}
    (hv : v ∈ path) (hbv : Reaches g.searchOrder b v) :
    ∃ x ∈ left, ∃ y ∈ g.searchOrder x, y ∈ t.blocks := by
  have hout : v ∉ left := fun hmem =>
    Trail.not_seen_of_isOpen (hs.covers.opened v hmem) (h.visiting.seen v hv)
  obtain ⟨x, y, hx, he, hy, hyv⟩ := exists_exit (P := (· ∈ left)) hbv hb hout
  have hyseen : t.trail.Seen g y := (hs.mem_or_seen hg hx he).resolve_left hy
  exact ⟨x, hx, y, he, (h.onStack y).mpr ⟨hyseen, v, hv, hyv⟩⟩

/-- **The lowest number tells whether `b` is the root of its component**: no lower one than its
own has been seen exactly if `b` reaches no block that was being visited before. -/
theorem low_eq_iff (hg : g.Linked) (h : Holds g path t) {t₁ : Trail} {left : List BlockId}
    (hs : Trail.Searches g.searchOrder [b] t.trail t₁ (b :: left)) {low : Nat}
    (hl : Lowers g.searchOrder (g.searchOrder b) left ((b, t.count) :: t.stack) t.count low) :
    low = t.count ↔ ¬ ∃ v ∈ path, Reaches g.searchOrder b v := by
  constructor
  · rintro hlow ⟨v, hv, hbv⟩
    obtain ⟨x, hx, y, he, hy⟩ := h.exists_edge hg hs List.mem_cons_self hv hbv
    obtain ⟨⟨_, m⟩, hm, rfl⟩ := List.mem_map.mp hy
    have hle : low ≤ m := by
      refine hl.bound _ m (List.mem_cons_of_mem _ hm) ?_
      rcases List.mem_cons.mp hx with rfl | hx
      · exact Or.inl he
      · exact Or.inr ⟨x, hx, he⟩
    have hlt : m < t.count := h.numbers _ hm
    omega
  · intro hroot
    rcases hl.genuine with hlow | ⟨w, hw, d, hd, hr⟩
    · exact hlow
    · rcases List.mem_cons.mp hw with heq | hw
      · exact congrArg Prod.snd heq
      · obtain ⟨_, v, hv, hwv⟩ := (h.onStack w).mp (List.mem_map_of_mem hw)
        exact absurd ⟨v, hv, (hr.trans hwv).head hd⟩ hroot

/-! ## Following edges -/

/-- Following the edges to `bs` one after the other takes the search from `r` to `r'`, and it
leaves the blocks `left` on the way. -/
structure Follows (g : FlowGraph) (path : List BlockId) (bs : List BlockId) (r r' : Nat × Tarjan)
    (left : List BlockId) : Prop where
  holds : Holds g path r'.2
  searches : Trail.Searches g.searchOrder bs r.2.trail r'.2.trail left
  count : r.2.count ≤ r'.2.count
  /-- What is new on the stack lies on top. -/
  stack : ∃ new, r'.2.stack = new ++ r.2.stack ∧ ∀ e ∈ new, e.1 ∈ left ∧ r.2.count ≤ e.2
  lowers : Lowers g.searchOrder bs left r.2.stack r.1 r'.1

theorem Follows.nil {r : Nat × Tarjan} (h : Holds g path r.2) : Follows g path [] r r [] := by
  refine ⟨h, Trail.Searches.nil _, Nat.le_refl _, ⟨[], rfl, ?_⟩, Lowers.nil _ _⟩
  intro e he
  exact absurd he List.not_mem_nil

theorem Follows.cons {bs left₁ left₂ : List BlockId} {r r₁ r₂ : Nat × Tarjan}
    (h₁ : Follows g path [b] r r₁ left₁) (h₂ : Follows g path bs r₁ r₂ left₂)
    (hlow : r.1 ≤ r.2.count) : Follows g path (b :: bs) r r₂ (left₂ ++ left₁) := by
  obtain ⟨new₁, hstack₁, hnew₁⟩ := h₁.stack
  obtain ⟨new₂, hstack₂, hnew₂⟩ := h₂.stack
  have hlowers : Lowers g.searchOrder (b :: bs) (left₂ ++ left₁) r.2.stack r.1 r₂.1 :=
    h₁.lowers.cons (hstack₁ ▸ h₂.lowers) fun e he => Nat.le_trans hlow (hnew₁ e he).2
  refine ⟨h₂.holds, h₁.searches.cons h₂.searches, Nat.le_trans h₁.count h₂.count,
    ⟨new₂ ++ new₁, ?_, ?_⟩, hlowers⟩
  · rw [hstack₂, hstack₁, List.append_assoc]
  · intro e he
    rcases List.mem_append.mp he with he | he
    · exact ⟨List.mem_append_left _ (hnew₂ e he).1, Nat.le_trans h₁.count (hnew₂ e he).2⟩
    · exact ⟨List.mem_append_right _ (hnew₁ e he).1, (hnew₁ e he).2⟩

theorem notice_follows {r : Nat × Tarjan} (h : Holds g path r.2)
    (hb : ¬ r.2.trail.isOpen b = true) : Follows g path [b] r (notice r b) [] := by
  refine ⟨h, Trail.Searches.skip hb, Nat.le_refl _, ⟨[], rfl, ?_⟩, Lowers.notice h.nodup r.1⟩
  intro e he
  exact absurd he List.not_mem_nil

/-- **Following an edge to a new block.** -/
theorem Follows.around (hg : g.Linked) {low : Nat} (h : Holds g path t) (hlow : low ≤ t.count)
    (hb : t.trail.isOpen b = true) {left : List BlockId} {r : Nat × Tarjan}
    (hf : Follows g (b :: path) (g.searchOrder b) (t.count, t.enter b) r left) :
    Follows g path [b] (low, t)
      (min low r.1, if r.1 = t.count then (r.2.cut b).leave b else r.2.leave b) (b :: left) := by
  have hs : Trail.Searches g.searchOrder [b] t.trail (r.2.trail.leave b) (b :: left) :=
    hf.searches.around hb
  have hpath : b ∉ path := fun hmem =>
    Trail.not_seen_of_isOpen hb (h.visiting.seen b hmem)
  have hnext : ∀ w ∈ g.searchOrder b, r.2.trail.Seen g w := by
    intro w hw
    exact (hs.seen h.visiting.lt w).mpr (hs.mem_or_seen hg List.mem_cons_self hw).symm
  obtain ⟨new, hstack, hnew⟩ := hf.stack
  have hcount : t.count ≤ r.2.count := Nat.le_of_succ_le hf.count
  have hlowers := hf.lowers.around hlow (h.not_mem_blocks hb)
  have hroot := low_eq_iff hg h hs hf.lowers
  by_cases hown : r.1 = t.count
  · rw [if_pos hown]
    have hholds : Holds g path ((r.2.cut b).leave b) :=
      h.cut hg hf.holds hs hpath hnext (hroot.mp hown) hstack
        fun e he => List.mem_cons_of_mem _ (hnew e he).1
    refine ⟨hholds, hs, hcount, ⟨[], ?_, ?_⟩, hlowers⟩
    · show (r.2.cut b).stack = t.stack
      rw [cut_eq hstack hf.holds.nodup]
    · intro e he
      exact absurd he List.not_mem_nil
  · rw [if_neg hown]
    have hholds : Holds g path (r.2.leave b) :=
      hf.holds.leave hpath hnext (not_not.mp (mt hroot.mpr hown))
    refine ⟨hholds, hs, hcount, ⟨new ++ [(b, t.count)], ?_, ?_⟩, hlowers⟩
    · show r.2.stack = _
      rw [hstack, List.append_assoc]
      rfl
    · intro e he
      rcases List.mem_append.mp he with he | he
      · exact ⟨List.mem_cons_of_mem _ (hnew e he).1, Nat.le_of_succ_le (hnew e he).2⟩
      · rw [List.mem_singleton.mp he]
        exact ⟨List.mem_cons_self, Nat.le_refl _⟩

theorem foldl_follows {step : Nat × Tarjan → BlockId → Nat × Tarjan} {depth : Nat}
    (hstep : ∀ r b, r.2.trail.openBlocks.card ≤ depth → Holds g path r.2 → r.1 ≤ r.2.count →
      ∃ left, Follows g path [b] r (step r b) left)
    (bs : List BlockId) (r : Nat × Tarjan) (hd : r.2.trail.openBlocks.card ≤ depth)
    (h : Holds g path r.2) (hlow : r.1 ≤ r.2.count) :
    ∃ left, Follows g path bs r (bs.foldl step r) left := by
  induction bs generalizing r with
  | nil => exact ⟨[], Follows.nil h⟩
  | cons b bs ih =>
      obtain ⟨left₁, h₁⟩ := hstep r b hd h hlow
      have hdepth := Nat.le_trans h₁.searches.covers.card_le hd
      have hlow₁ := Nat.le_trans h₁.lowers.le (Nat.le_trans hlow h₁.count)
      obtain ⟨left₂, h₂⟩ := ih (step r b) hdepth h₁.holds hlow₁
      exact ⟨left₂ ++ left₁, h₁.cons h₂ hlow⟩

/-- **Following an edge keeps everything.** -/
theorem follow_follows (hg : g.Linked) (depth : Nat) (path : List BlockId) (r : Nat × Tarjan)
    (b : BlockId) (hd : r.2.trail.openBlocks.card ≤ depth) (h : Holds g path r.2)
    (hlow : r.1 ≤ r.2.count) :
    ∃ left, Follows g path [b] r (follow g.searchOrder depth r b) left := by
  induction depth generalizing path r b with
  | zero => exact ⟨[], notice_follows h (Trail.not_isOpen_of_card hd b)⟩
  | succ depth ih =>
      obtain ⟨low, t⟩ := r
      unfold follow
      by_cases ho : t.trail.isOpen b = true
      · rw [if_pos ho]
        -- entering `b` closes it, which pays for one level of the depth
        have hcard : (t.enter b).trail.openBlocks.card + 1 = t.trail.openBlocks.card :=
          Trail.card_openBlocks_enter ho
        have hdepth : (t.enter b).trail.openBlocks.card ≤ depth := by
          dsimp only at hd
          omega
        obtain ⟨left, hf⟩ := foldl_follows (ih (b :: path)) (g.searchOrder b)
          (t.count, t.enter b) hdepth (h.enter ho) (Nat.le_succ _)
        exact ⟨b :: left, hf.around hg h hlow ho⟩
      · rw [if_neg ho]
        exact ⟨[], notice_follows h ho⟩

theorem start_holds (g : FlowGraph) : Holds g [] (start g.size) := by
  have hseen : ∀ v, ¬ (Trail.start g.size).Seen g v := by
    rintro v ⟨hv, ho⟩
    exact absurd ((Trail.isOpen_start g.size v).mpr hv) (by simp [ho])
  refine ⟨⟨?_, ?_, ?_, ?_⟩, ?_, List.nodup_nil, ?_, rfl⟩
  · intro v hv
    exact (Trail.isOpen_start g.size v).mp hv
  · intro u hu
    exact absurd hu List.not_mem_nil
  · intro v
    exact ⟨fun hv => absurd hv List.not_mem_nil, fun hv => absurd hv.1 (hseen v)⟩
  · intro v hv
    exact absurd hv (hseen v)
  · intro v
    exact ⟨fun hv => absurd hv List.not_mem_nil, fun hv => absurd hv.1 (hseen v)⟩
  · intro e he
    exact absurd he List.not_mem_nil

/-- Where no block is being visited, the stack is empty and every component is in a group. -/
theorem Holds.groups_eq (h : Holds g [] t) :
    t.groups = OrderedSet.ofList (t.trail.finished.map g.component) := by
  have hempty : ∀ v, v ∉ t.blocks := by
    intro v hv
    obtain ⟨_, x, hx, _⟩ := (h.onStack v).mp hv
    exact absurd hx List.not_mem_nil
  rw [h.groups, List.filter_eq_self.mpr]
  intro v _
  exact decide_eq_true (hempty v)

end Tarjan

namespace FlowGraph

variable {g : FlowGraph}

/-- **Tarjan's algorithm finds the same components in the same order.** -/
theorem tarjan_eq (hg : g.Linked) : g.tarjan = g.componentOrder := by
  obtain ⟨left, hf⟩ := Tarjan.foldl_follows (g := g)
    (Tarjan.follow_follows hg g.size []) (List.range g.size) (0, .start g.size)
    (Nat.le_of_eq (Trail.card_openBlocks_start g.size)) (Tarjan.start_holds g) (Nat.le_refl 0)
  unfold tarjan componentOrder reverseFinish
  rw [hf.holds.groups_eq, Tarjan.trail_foldl_follow (Tarjan.trail_follow g.size)]
  rfl

/-! ## The decomposition -/

/-- `order` cuts `g` into its components and lists them along the edges. -/
structure Decomposes (g : FlowGraph) (order : List (List BlockId)) : Prop where
  nonempty : ∀ group ∈ order, group ≠ []
  ascending : ∀ group ∈ order, group.Pairwise (· < ·)
  /-- Every block stands in one place. -/
  once : order.flatten.Perm (List.range g.size)
  /-- Two blocks are in one group exactly if each can be reached from the other. -/
  together : ∀ u < g.size, ∀ v < g.size,
    (∃ group ∈ order, u ∈ group ∧ v ∈ group) ↔ Mutual g.successors u v
  /-- An edge from one group to another points forward. -/
  forward : ∀ u, ∀ v ∈ g.successors u, ∀ (i j : Nat) (source target : List BlockId),
    order[i]? = some source → order[j]? = some target → u ∈ source → v ∈ target →
    source ≠ target → i < j

/-- In a topological order no edge leads back, whatever the places of its ends. -/
theorem Topological.le_of_edge {order : List (List BlockId)} (h : g.Topological order)
    (hg : g.Linked) {u v : BlockId} (he : v ∈ g.successors u) {i j : Nat}
    {source target : List BlockId} (hi : order[i]? = some source) (hj : order[j]? = some target)
    (hu : u ∈ source) (hv : v ∈ target) : i ≤ j := by
  have hsplit : ∀ {k : Nat} {group : List BlockId}, order[k]? = some group →
      order = order.take k ++ group :: order.drop (k + 1) := by
    intro k group hk
    obtain ⟨hlt, rfl⟩ := List.getElem?_eq_some_iff.mp hk
    rw [← List.drop_eq_getElem_cons hlt, List.take_append_drop]
  by_contra hlt
  have hji : j < i := Nat.lt_of_not_le hlt
  -- a group that stands before another one holds none of its blocks
  have hfront : u ∉ (order.take i).flatten := (hsplit hi ▸ h).not_mem_front hu
  refine hfront ?_
  rw [List.mem_flatten]
  rcases h.forward _ _ _ (hsplit hj) v hv u ((hg.symm u v).mp he) with hmem | hmem
  · refine ⟨target, ?_, hmem⟩
    exact List.mem_of_getElem? ((List.getElem?_take_of_lt hji).trans hj)
  · obtain ⟨group, hgroup, hmem⟩ := List.mem_flatten.mp hmem
    exact ⟨group, (List.take_subset_take_left order (Nat.le_of_lt hji)) hgroup, hmem⟩

/-- **The components decompose the graph**, and Tarjan's algorithm finds them in the same
order. -/
theorem componentOrder_decomposes (hg : g.Built) :
    g.Decomposes g.componentOrder ∧ g.tarjan = g.componentOrder := by
  have hlinked := built_linked hg
  have htop := componentOrder_topological hlinked
  refine ⟨⟨?_, ?_, ?_, ?_, ?_⟩, tarjan_eq hlinked⟩
  · intro group hgroup
    obtain ⟨b, hb, rfl⟩ := mem_componentOrder.mp hgroup
    exact List.ne_nil_of_mem (mem_component_self hlinked hb)
  · intro group hgroup
    obtain ⟨b, _, rfl⟩ := mem_componentOrder.mp hgroup
    exact g.component_ascending b
  · refine (List.perm_ext_iff_of_nodup htop.nodup List.nodup_range).mpr fun b => ?_
    rw [htop.cover, List.mem_range]
  · intro u hu v hv
    rw [← mem_component hlinked hu]
    constructor
    · rintro ⟨group, hgroup, hmem, hmem'⟩
      rw [(component_of_mem hlinked hgroup hmem).2]
      exact hmem'
    · intro hmem
      have hgroup : g.component u ∈ g.componentOrder := mem_componentOrder.mpr ⟨u, hu, rfl⟩
      exact ⟨g.component u, hgroup, mem_component_self hlinked hu, hmem⟩
  · intro u v he i j source target hi hj hu hv hne
    have hle := htop.le_of_edge hlinked he hi hj hu hv
    refine Nat.lt_of_le_of_ne hle ?_
    rintro rfl
    exact hne (Option.some.inj (hi.symm.trans hj))

/-- Two cycles, with an edge from the first to the second, and a block with an edge to the
second. -/
def twoCycles : FlowGraph :=
  let blocks := List.replicate 5 []
  ((((((blocks.foldl addBlock empty).link 0 1).link 1 0).link 1 2).link 2 3).link 3 2).link 4 2

theorem twoCycles_built : twoCycles.Built := by
  refine ((((((Built.link ?_ ?_ ?_).link ?_ ?_).link ?_ ?_).link ?_ ?_).link ?_ ?_).link ?_ ?_)
  · exact ((((Built.empty.addBlock _).addBlock _).addBlock _).addBlock _).addBlock _
  all_goals decide

theorem componentOrder_decomposes_twoCycles :
    twoCycles.Built ∧ twoCycles.Decomposes [[4], [0, 1], [2, 3]] ∧
      twoCycles.tarjan = [[4], [0, 1], [2, 3]] := by
  obtain ⟨hdecomposes, htarjan⟩ := componentOrder_decomposes twoCycles_built
  have horder : twoCycles.componentOrder = [[4], [0, 1], [2, 3]] := by decide +kernel
  rw [horder] at hdecomposes htarjan
  exact ⟨twoCycles_built, hdecomposes, htarjan⟩

end FlowGraph

end ReachingDefs
