import Mathlib.Data.Finset.Card
import Mathlib.Logic.Function.Iterate
import ReachingDefs.Proofs.Origins
import ReachingDefs.Proofs.Path

/-!
# Lanes

What is exposed falls apart into strands that never look at each other: the origins
of one register, for every register, and the cells of memory. All of them move in
the same way. An instruction lets some members through and puts its own behind
them, a join adds up the members of several blocks. A `Lane` is one such strand.

Two descriptions of a lane meet here. Along paths, a member *arrives* where control
can come from an instruction that adds it through instructions that let it
through. By passes, the list of every block is computed again and again from the
lists of its predecessors. `mem_passes_iff` says when the second has caught up with
the first: a group of blocks needs no more passes than it has blocks.
-/

namespace ReachingDefs

/-- One strand of what is exposed: what an instruction lets through, and what it adds. -/
structure Lane (α : Type) where
  keep : Site → α → Bool
  gen : Site → List α

namespace Lane

variable {α : Type} {c : Lane α} {g : FlowGraph} {a : α}

/-- The members behind the instruction at `o`, from those in front of it. -/
def step (c : Lane α) (o : Site) (l : List α) : List α :=
  l.filter (c.keep o) ++ c.gen o

/-- The members in front of instruction `i` of block `b`, if `l` is at its start. -/
def along (c : Lane α) (b : BlockId) (l : List α) : Nat → List α
  | 0 => l
  | i + 1 => c.step ⟨b, i⟩ (c.along b l i)

/-- Do the first `i` instructions of block `b` let `a` through? -/
def keepTo (c : Lane α) (b : BlockId) (i : Nat) (a : α) : Bool :=
  (List.range i).all fun j => c.keep ⟨b, j⟩ a

theorem keepTo_succ (c : Lane α) (b : BlockId) (i : Nat) (a : α) :
    c.keepTo b (i + 1) a = (c.keepTo b i a && c.keep ⟨b, i⟩ a) := by
  unfold keepTo
  rw [List.range_succ, List.all_append]
  simp

/-- **Several instructions act as one**: they let some members through and add theirs. -/
theorem along_eq (c : Lane α) (b : BlockId) (l : List α) (i : Nat) :
    c.along b l i = l.filter (c.keepTo b i) ++ c.along b [] i := by
  induction i with
  | zero => exact (List.filter_eq_self.mpr fun _ _ => rfl).symm.trans (List.append_nil _).symm
  | succ i ih =>
      show c.step ⟨b, i⟩ (c.along b l i) = _ ++ c.step ⟨b, i⟩ (c.along b [] i)
      unfold step
      rw [ih, List.filter_append, List.filter_filter, List.append_assoc]
      congr 1
      refine List.filter_congr fun x _ => ?_
      rw [keepTo_succ, Bool.and_comm]

theorem mem_along {b : BlockId} {l : List α} {i : Nat} :
    a ∈ c.along b l i ↔ (a ∈ l ∧ c.keepTo b i a = true) ∨ a ∈ c.along b [] i := by
  rw [along_eq, List.mem_append, List.mem_filter]

theorem mem_along_congr {b : BlockId} {l l' : List α} {i : Nat} (h : a ∈ l' ↔ a ∈ l) :
    a ∈ c.along b l' i ↔ a ∈ c.along b l i := by
  rw [mem_along, h, ← mem_along]

theorem along_subset {b : BlockId} {l l' : List α} {i : Nat} (h : l ⊆ l') :
    c.along b l i ⊆ c.along b l' i := by
  intro a ha
  rw [mem_along] at ha ⊢
  exact ha.imp_left (And.imp_left fun ha => h ha)

/-- What a block adds is added by one of its instructions. -/
theorem mem_gen_of_mem_along {b : BlockId} {i : Nat} (h : a ∈ c.along b [] i) :
    ∃ j, j < i ∧ a ∈ c.gen ⟨b, j⟩ := by
  induction i with
  | zero => exact absurd h List.not_mem_nil
  | succ i ih =>
      rcases List.mem_append.mp h with h | h
      · obtain ⟨j, hj, hgen⟩ := ih (List.mem_filter.mp h).1
        exact ⟨j, by omega, hgen⟩
      · exact ⟨i, by omega, h⟩

/-! ## Along paths -/

/-- `a` can come to the point `q`: some instruction adds it, and every instruction
on a path from there lets it through. -/
def Arrives (c : Lane α) (g : FlowGraph) (a : α) (q : Site) : Prop :=
  ∃ o is, a ∈ c.gen o ∧ g.Path o (o :: is) q ∧ ∀ i ∈ is, c.keep i a = true

/-- `a` can come to the end of a block: the block adds it, or lets it through from a
predecessor. -/
inductive Flows (c : Lane α) (g : FlowGraph) (a : α) : BlockId → Prop where
  | gen {b : BlockId} : a ∈ c.along b [] (g.length b) → Flows c g a b
  | pass {b p : BlockId} : p ∈ g.predecessors b → c.keepTo b (g.length b) a = true →
      Flows c g a p → Flows c g a b

theorem Arrives.next {b : BlockId} {i : Nat} (h : c.Arrives g a ⟨b, i⟩) (hlt : i < g.length b)
    (hk : c.keep ⟨b, i⟩ a = true) : c.Arrives g a ⟨b, i + 1⟩ := by
  obtain ⟨o, is, hgen, hpath, hkeep⟩ := h
  refine ⟨o, is ++ [(⟨b, i⟩ : Site)], hgen, ?_, ?_⟩
  · exact hpath.next hlt
  · intro j hj
    rcases List.mem_append.mp hj with hj | hj
    · exact hkeep j hj
    · rw [List.mem_singleton.mp hj]
      exact hk

theorem Arrives.jump {b d : BlockId} (h : c.Arrives g a ⟨b, g.length b⟩)
    (hd : d ∈ g.successors b) : c.Arrives g a ⟨d, 0⟩ := by
  obtain ⟨o, is, hgen, hpath, hkeep⟩ := h
  exact ⟨o, is, hgen, hpath.jump hd, hkeep⟩

/-- Members that arrive at the start of a block arrive wherever they are listed in it. -/
theorem arrives_along {b : BlockId} {l : List α} (hl : ∀ x ∈ l, c.Arrives g x ⟨b, 0⟩) {i : Nat}
    (hi : i ≤ g.length b) {x : α} (hx : x ∈ c.along b l i) : c.Arrives g x ⟨b, i⟩ := by
  induction i generalizing x with
  | zero => exact hl x hx
  | succ i ih =>
      rcases List.mem_append.mp hx with hx | hx
      · obtain ⟨hmem, hk⟩ := List.mem_filter.mp hx
        exact (ih (by omega) hmem).next (by omega) hk
      · refine ⟨⟨b, i⟩, [], hx, FlowGraph.Path.stop.next (by omega), ?_⟩
        intro j hj
        exact absurd hj List.not_mem_nil

theorem Flows.arrives (hg : g.Linked) {b : BlockId} (h : c.Flows g a b) :
    c.Arrives g a ⟨b, g.length b⟩ := by
  induction h with
  | gen hgen =>
      refine arrives_along ?_ (Nat.le_refl _) hgen
      intro x hx
      exact absurd hx List.not_mem_nil
  | @pass b p hp hk _ ih =>
      have hstart : ∀ x ∈ [a], c.Arrives g x ⟨b, 0⟩ := by
        intro x hx
        rw [List.mem_singleton.mp hx]
        exact ih.jump ((hg.symm p b).mpr hp)
      exact arrives_along hstart (Nat.le_refl _)
        (mem_along.mpr (Or.inl ⟨List.mem_singleton_self a, hk⟩))

/-- **What arrives at a point of a block** was added in front of it in the block, or
came through from the end of a predecessor. -/
theorem Arrives.cases (hg : g.Linked) {q : Site} (h : c.Arrives g a q) :
    a ∈ c.along q.block [] q.index ∨
      c.keepTo q.block q.index a = true ∧ ∃ p ∈ g.predecessors q.block, c.Flows g a p := by
  obtain ⟨o, is, hgen, hpath, hkeep⟩ := h
  -- a path grows at its end, so the induction takes off the last point
  generalize hl : o :: is = l at hpath
  induction hpath generalizing is with
  | stop => exact absurd hl (by simp)
  | @next l b i hpath hlt ih =>
      rcases List.eq_nil_or_concat is with rfl | ⟨is', x, rfl⟩
      · -- the path begins with the instruction that adds `a`
        obtain ⟨_, ho⟩ := List.append_inj' (show [] ++ [o] = l ++ [⟨b, i⟩] from hl) rfl
        obtain rfl : o = ⟨b, i⟩ := by simpa using ho
        exact Or.inl (List.mem_append_right _ hgen)
      · rw [List.concat_eq_append] at hl hkeep
        obtain ⟨rfl, hx⟩ := List.append_inj' (show (o :: is') ++ [x] = l ++ [⟨b, i⟩] from hl) rfl
        obtain rfl : x = ⟨b, i⟩ := by simpa using hx
        have hk : c.keep ⟨b, i⟩ a = true := hkeep _ (by simp)
        rcases ih is' (fun j hj => hkeep j (List.mem_append_left _ hj)) rfl with h | ⟨h, hp⟩
        · exact Or.inl (List.mem_append_left _ (List.mem_filter.mpr ⟨h, hk⟩))
        · exact Or.inr ⟨by rw [keepTo_succ, h, hk]; rfl, hp⟩
  | @jump l b d hpath hd ih =>
      refine Or.inr ⟨rfl, b, (hg.symm b d).mp hd, ?_⟩
      rcases ih is hkeep hl with h | ⟨h, p, hp, hf⟩
      · exact Flows.gen h
      · exact Flows.pass hp h hf

theorem flows_iff_arrives (hg : g.Linked) {b : BlockId} :
    c.Flows g a b ↔ c.Arrives g a ⟨b, g.length b⟩ := by
  refine ⟨Flows.arrives hg, fun h => ?_⟩
  rcases h.cases hg with h | ⟨h, p, hp, hf⟩
  · exact Flows.gen h
  · exact Flows.pass hp h hf

/-- Nothing comes to a block that is not there. -/
theorem Flows.lt (hg : g.Linked) {b : BlockId} (h : c.Flows g a b) : b < g.size := by
  cases h with
  | gen h =>
      rcases Nat.lt_or_ge b g.size with hlt | hge
      · exact hlt
      · rw [FlowGraph.length_of_le hge] at h
        exact absurd h List.not_mem_nil
  | pass hp _ _ => exact hg.lt _ _ ((hg.symm _ _).mpr hp)

/-- What arrives at a point is listed there, if everything that can come from the
predecessors is listed at the start of the block. -/
theorem Arrives.mem_along (hg : g.Linked) {b : BlockId} {i : Nat} {l : List α}
    (h : c.Arrives g a ⟨b, i⟩) (hl : ∀ p ∈ g.predecessors b, c.Flows g a p → a ∈ l) :
    a ∈ c.along b l i := by
  rw [Lane.mem_along]
  rcases h.cases hg with h | ⟨h, p, hp, hf⟩
  · exact Or.inr h
  · exact Or.inl ⟨hl p hp hf, h⟩

/-! ## Through a group

A member that comes to a block of a group was added in the group, or entered it from
outside. Either way it went through blocks of the group from then on, and through no
more of them than there are: a longer way round meets a block twice. -/

section Group

variable {group : List BlockId} {X : BlockId → List α}

/-- `a` can come to the end of `b` through at most `n` blocks of the group, counted
from where it is added or where it enters the group. -/
def Within (c : Lane α) (g : FlowGraph) (group : List BlockId) (X : BlockId → List α) (a : α) :
    Nat → BlockId → Prop
  | 0, _ => False
  | n + 1, b => a ∈ c.along b [] (g.length b) ∨ c.keepTo b (g.length b) a = true ∧
      ∃ p ∈ g.predecessors b, (p ∈ group ∧ Within c g group X a n p) ∨ (p ∉ group ∧ a ∈ X p)

theorem Within.succ {n : Nat} {b : BlockId} (h : c.Within g group X a n b) :
    c.Within g group X a (n + 1) b := by
  induction n generalizing b with
  | zero => exact absurd h id
  | succ n ih =>
      rcases h with h | ⟨hk, p, hp, h⟩
      · exact Or.inl h
      · refine Or.inr ⟨hk, p, hp, ?_⟩
        rcases h with ⟨hmem, h⟩ | h
        · exact Or.inl ⟨hmem, ih h⟩
        · exact Or.inr h

theorem Within.mono {m n : Nat} (hmn : m ≤ n) {b : BlockId} (h : c.Within g group X a m b) :
    c.Within g group X a n b := by
  induction hmn with
  | refl => exact h
  | step _ ih => exact ih.succ

/-- Finite sets that grow until they stop growing once have stopped after as many steps
as there are elements. -/
theorem growing_stops {β : Type} {S : Nat → Finset β} {U : Finset β} (hsub : ∀ n, S n ⊆ U)
    (hmono : ∀ n, S n ⊆ S (n + 1)) (hstop : ∀ n, S (n + 1) ⊆ S n → S (n + 2) ⊆ S (n + 1))
    {n : Nat} : S n ⊆ S U.card := by
  -- as long as the sets grow, each is larger than the number of steps to it
  have hgrows : ∀ n, S (n + 1) ⊆ S n ∨ n < (S (n + 1)).card := by
    intro n
    induction n with
    | zero =>
        by_cases h : S 1 ⊆ S 0
        · exact Or.inl h
        · obtain ⟨x, hx, _⟩ := Finset.not_subset.mp h
          exact Or.inr (Finset.card_pos.mpr ⟨x, hx⟩)
    | succ n ih =>
        rcases ih with ih | ih
        · exact Or.inl (hstop n ih)
        · by_cases h : S (n + 2) ⊆ S (n + 1)
          · exact Or.inl h
          · have := Finset.card_lt_card ⟨hmono (n + 1), h⟩
            exact Or.inr (by omega)
  have hlast : ∀ n, U.card ≤ n → S (n + 1) ⊆ S n := by
    intro n hn
    rcases hgrows n with h | h
    · exact h
    · have := Finset.card_le_card (hsub (n + 1))
      omega
  rcases Nat.le_total n U.card with hn | hn
  · exact Nat.le_induction (Finset.Subset.refl _)
      (fun m _ ih => Finset.Subset.trans ih (hmono m)) U.card hn
  · exact Nat.le_induction (Finset.Subset.refl _)
      (fun m hm ih => Finset.Subset.trans (hlast m hm) ih) n hn

/-- **No member needs to go through more blocks than the group has.** -/
theorem Within.bounded {n : Nat} {b : BlockId} (hb : b ∈ group)
    (h : c.Within g group X a n b) : c.Within g group X a group.length b := by
  classical
  -- the blocks that the member comes to through `n` blocks grow with `n`
  let S : Nat → Finset BlockId := fun n => group.toFinset.filter (c.Within g group X a n)
  have hS : ∀ n p, p ∈ S n ↔ p ∈ group ∧ c.Within g group X a n p := by
    intro n p
    rw [Finset.mem_filter, List.mem_toFinset]
  have hstop : ∀ n, S (n + 1) ⊆ S n → S (n + 2) ⊆ S (n + 1) := by
    intro n hn p hp
    obtain ⟨hpg, hw⟩ := (hS _ _).mp hp
    refine (hS _ _).mpr ⟨hpg, ?_⟩
    rcases hw with hw | ⟨hk, q, hq, ⟨hqg, hw⟩ | hw⟩
    · exact Or.inl hw
    · exact Or.inr ⟨hk, q, hq, Or.inl ⟨hqg, ((hS _ _).mp (hn ((hS _ _).mpr ⟨hqg, hw⟩))).2⟩⟩
    · exact Or.inr ⟨hk, q, hq, Or.inr hw⟩
  have hmem : b ∈ S group.toFinset.card := by
    refine growing_stops (fun n => Finset.filter_subset _ _) ?_ hstop ((hS n b).mpr ⟨hb, h⟩)
    intro m p hp
    exact (hS _ _).mpr ⟨((hS _ _).mp hp).1, ((hS _ _).mp hp).2.succ⟩
  exact ((hS _ _).mp hmem).2.mono (List.toFinset_card_le group)

theorem flows_of_within (hout : ∀ p, p ∉ group → a ∈ X p → c.Flows g a p) {n : Nat} {b : BlockId}
    (h : c.Within g group X a n b) : c.Flows g a b := by
  induction n generalizing b with
  | zero => exact absurd h id
  | succ n ih =>
      rcases h with h | ⟨hk, p, hp, ⟨_, h⟩ | ⟨hpg, h⟩⟩
      · exact Flows.gen h
      · exact Flows.pass hp hk (ih h)
      · exact Flows.pass hp hk (hout p hpg h)

theorem within_of_flows
    (hin : ∀ b ∈ group, ∀ p ∈ g.predecessors b, p ∉ group → c.Flows g a p → a ∈ X p)
    {b : BlockId} (hb : b ∈ group) (h : c.Flows g a b) : ∃ n, c.Within g group X a n b := by
  induction h with
  | gen h => exact ⟨1, Or.inl h⟩
  | @pass b p hp hk hf ih =>
      by_cases hpg : p ∈ group
      · obtain ⟨n, hn⟩ := ih hpg
        exact ⟨n + 1, Or.inr ⟨hk, p, hp, Or.inl ⟨hpg, hn⟩⟩⟩
      · exact ⟨1, Or.inr ⟨hk, p, hp, Or.inr ⟨hpg, hin b hb p hp hpg hf⟩⟩⟩

end Group

/-! ## By passes -/

variable [DecidableEq α]

/-- The members of several blocks together. -/
def join (X : BlockId → List α) (ps : List BlockId) : List α :=
  ps.foldl (fun l p => OrderedSet.union l (X p)) []

/-- Computes the list of block `b` anew from its predecessors. -/
def visit (c : Lane α) (g : FlowGraph) (X : BlockId → List α) (b : BlockId) : BlockId → List α :=
  Function.update X b (c.along b (join X (g.predecessors b)) (g.length b))

/-- Computes the lists of a group of blocks anew, one after another. -/
def pass (c : Lane α) (g : FlowGraph) (group : List BlockId) (X : BlockId → List α) :
    BlockId → List α :=
  group.foldl (c.visit g) X

theorem mem_foldl_union {X : BlockId → List α} {ps : List BlockId} {l : List α} :
    a ∈ ps.foldl (fun l p => OrderedSet.union l (X p)) l ↔ a ∈ l ∨ ∃ p ∈ ps, a ∈ X p := by
  induction ps generalizing l with
  | nil => simp
  | cons p ps ih =>
      rw [List.foldl_cons, ih, OrderedSet.mem_union]
      simp [or_assoc]

theorem mem_join {X : BlockId → List α} {ps : List BlockId} :
    a ∈ join X ps ↔ ∃ p ∈ ps, a ∈ X p := by
  unfold join
  rw [mem_foldl_union]
  simp

theorem pass_of_not_mem {group : List BlockId} {X : BlockId → List α} {b : BlockId}
    (h : b ∉ group) : c.pass g group X b = X b := by
  unfold pass
  induction group generalizing X with
  | nil => rfl
  | cons d group ih =>
      rw [List.foldl_cons, ih (fun hb => h (List.mem_cons_of_mem _ hb))]
      refine Function.update_of_ne ?_ _ _
      rintro rfl
      exact h List.mem_cons_self

theorem pass_append (front back : List BlockId) (X : BlockId → List α) :
    c.pass g (front ++ back) X = c.pass g back (c.pass g front X) :=
  List.foldl_append

/-- What a pass makes of a block: the blocks in front of it in the group have been
visited already, the others have not. -/
theorem pass_eq {front back : List BlockId} {b : BlockId} (X : BlockId → List α)
    (hnd : (front ++ b :: back).Nodup) :
    c.pass g (front ++ b :: back) X b =
      c.along b (join (c.pass g front X) (g.predecessors b)) (g.length b) := by
  rw [pass_append]
  have hb : b ∉ back := (List.nodup_cons.mp (List.nodup_append.mp hnd).2.1).1
  show c.pass g back (c.visit g (c.pass g front X) b) b = _
  rw [pass_of_not_mem hb]
  exact Function.update_self ..

theorem pass_front {front back : List BlockId} {p : BlockId} (X : BlockId → List α)
    (hnd : (front ++ back).Nodup) (hp : p ∈ front) :
    c.pass g (front ++ back) X p = c.pass g front X p := by
  rw [pass_append]
  refine pass_of_not_mem fun hb => ?_
  exact (List.nodup_append.mp hnd).2.2 p hp p hb rfl

/-- Where all predecessors list exactly what comes to them, so does a block that is visited. -/
theorem mem_along_join_iff {X : BlockId → List α} {b : BlockId}
    (hX : ∀ p ∈ g.predecessors b, a ∈ X p ↔ c.Flows g a p) :
    a ∈ c.along b (join X (g.predecessors b)) (g.length b) ↔ c.Flows g a b := by
  rw [Lane.mem_along, mem_join]
  constructor
  · rintro (⟨⟨p, hp, hmem⟩, hk⟩ | hgen)
    · exact Flows.pass hp hk ((hX p hp).mp hmem)
    · exact Flows.gen hgen
  · intro h
    cases h with
    | gen hgen => exact Or.inr hgen
    | @pass _ p hp hk hf => exact Or.inl ⟨⟨p, hp, (hX p hp).mpr hf⟩, hk⟩

/-- Once all blocks list exactly what comes to them, no pass changes that. -/
theorem mem_pass_iff (hg : g.Linked) {X : BlockId → List α}
    (hX : ∀ b, b < g.size → (a ∈ X b ↔ c.Flows g a b)) (visits : List BlockId) {b : BlockId}
    (hb : b < g.size) : a ∈ c.pass g visits X b ↔ c.Flows g a b := by
  unfold pass
  induction visits generalizing X with
  | nil => exact hX b hb
  | cons d visits ih =>
      refine ih fun e he => ?_
      by_cases hed : e = d
      · rw [hed, visit, Function.update_self]
        exact mem_along_join_iff fun p hp => hX p (hg.predecessor_lt hp)
      · rw [visit, Function.update_of_ne hed]
        exact hX e he

/-! ## Catching up

Inside a group a member spreads by one edge a pass at the least, because a block that
has not been visited yet still has the list of the pass before. -/

section Passes

variable {group : List BlockId} {X : BlockId → List α}

/-- Blocks outside the group keep their lists. -/
theorem passes_of_not_mem {b : BlockId} (hb : b ∉ group) (n : Nat) :
    (c.pass g group)^[n] X b = X b := by
  induction n with
  | zero => rfl
  | succ n ih => rw [Function.iterate_succ_apply', pass_of_not_mem hb, ih]

/-- Whatever a block has before and after a pass, it has all through the pass. -/
theorem mem_pass_front {front back : List BlockId} (hnd : (front ++ back).Nodup) {p : BlockId}
    (h : a ∈ X p) (h' : a ∈ c.pass g (front ++ back) X p) : a ∈ c.pass g front X p := by
  by_cases hp : p ∈ front
  · rwa [pass_front X hnd hp] at h'
  · rwa [pass_of_not_mem hp]

/-- A member that comes through `m` blocks is there after `m` passes, and stays. -/
theorem mem_passes_of_within (hnd : group.Nodup) {m n : Nat} (hmn : m ≤ n) {b : BlockId}
    (hb : b ∈ group) (h : c.Within g group X a m b) : a ∈ (c.pass g group)^[n] X b := by
  induction m generalizing n b with
  | zero => exact absurd h id
  | succ m ih =>
      obtain ⟨n, rfl⟩ : ∃ k, n = k + 1 := ⟨n - 1, by omega⟩
      obtain ⟨front, back, rfl⟩ := List.append_of_mem hb
      rw [Function.iterate_succ_apply', pass_eq _ hnd, Lane.mem_along, mem_join]
      rcases h with h | ⟨hk, p, hp, h⟩
      · exact Or.inr h
      · -- `p` may have been visited in this pass or not: it has the member either way
        refine Or.inl ⟨⟨p, hp, mem_pass_front hnd ?_ ?_⟩, hk⟩
        · rcases h with ⟨hpg, h⟩ | ⟨hpg, h⟩
          · exact ih (by omega) hpg h
          · rwa [passes_of_not_mem hpg]
        · rw [← Function.iterate_succ_apply' (c.pass g _)]
          rcases h with ⟨hpg, h⟩ | ⟨hpg, h⟩
          · exact ih (by omega) hpg h
          · rwa [passes_of_not_mem hpg]

/-- If every member of `Y` comes through some number of blocks, so does every member
after a visit. -/
theorem within_of_mem_along {Y : BlockId → List α} {b : BlockId}
    (hin : ∀ p ∈ group, a ∈ Y p → ∃ n, c.Within g group X a n p)
    (hout : ∀ p, p ∉ group → Y p = X p)
    (h : a ∈ c.along b (join Y (g.predecessors b)) (g.length b)) :
    ∃ n, c.Within g group X a n b := by
  rcases Lane.mem_along.mp h with ⟨hmem, hk⟩ | h
  · obtain ⟨p, hp, hmem⟩ := mem_join.mp hmem
    by_cases hpg : p ∈ group
    · obtain ⟨n, hn⟩ := hin p hpg hmem
      exact ⟨n + 1, Or.inr ⟨hk, p, hp, Or.inl ⟨hpg, hn⟩⟩⟩
    · rw [hout p hpg] at hmem
      exact ⟨1, Or.inr ⟨hk, p, hp, Or.inr ⟨hpg, hmem⟩⟩⟩
  · exact ⟨1, Or.inl h⟩

theorem within_of_mem_pass {Y : BlockId → List α} {visits : List BlockId}
    (hsub : ∀ b ∈ visits, b ∈ group)
    (hin : ∀ p ∈ group, a ∈ Y p → ∃ n, c.Within g group X a n p)
    (hout : ∀ p, p ∉ group → Y p = X p) {b : BlockId} (hb : b ∈ group)
    (h : a ∈ c.pass g visits Y b) : ∃ n, c.Within g group X a n b := by
  unfold pass at h
  induction visits generalizing Y with
  | nil => exact hin b hb h
  | cons d visits ih =>
      have hd : d ∈ group := hsub d List.mem_cons_self
      refine ih (fun e he => hsub e (List.mem_cons_of_mem _ he)) ?_ ?_ h
      · intro p hp hmem
        by_cases hpd : p = d
        · subst hpd
          rw [visit, Function.update_self] at hmem
          exact within_of_mem_along hin hout hmem
        · rw [visit, Function.update_of_ne hpd] at hmem
          exact hin p hp hmem
      · intro p hp
        have hpd : p ≠ d := by
          rintro rfl
          exact hp hd
        rw [visit, Function.update_of_ne hpd]
        exact hout p hp

/-- Every member of a group that started out empty came through some blocks of it. -/
theorem within_of_mem_passes (hempty : ∀ b ∈ group, X b = []) {n : Nat} {b : BlockId}
    (hb : b ∈ group) (h : a ∈ (c.pass g group)^[n] X b) : ∃ m, c.Within g group X a m b := by
  induction n generalizing b with
  | zero =>
      rw [Function.iterate_zero_apply, hempty b hb] at h
      exact absurd h List.not_mem_nil
  | succ n ih =>
      rw [Function.iterate_succ_apply'] at h
      refine within_of_mem_pass (fun b hb => hb) (fun p hp => ih hp) ?_ hb h
      intro p hp
      exact passes_of_not_mem hp n

/-- **After as many passes as it has blocks, a group has caught up**: its blocks list
exactly what can come to them, if the blocks around it do and it started out empty. -/
theorem mem_passes_iff (hnd : group.Nodup) (hempty : ∀ b ∈ group, X b = [])
    (hout : ∀ p, p ∉ group → a ∈ X p → c.Flows g a p)
    (hin : ∀ b ∈ group, ∀ p ∈ g.predecessors b, p ∉ group → c.Flows g a p → a ∈ X p)
    {n : Nat} (hn : group.length ≤ n) {b : BlockId} (hb : b ∈ group) :
    a ∈ (c.pass g group)^[n] X b ↔ c.Flows g a b := by
  constructor
  · intro h
    obtain ⟨m, hm⟩ := within_of_mem_passes hempty hb h
    exact flows_of_within hout hm
  · intro h
    obtain ⟨m, hm⟩ := within_of_flows hin hb h
    exact mem_passes_of_within hnd hn hb (hm.bounded hb)

/-- A pass that changes nothing in its group changes nothing, and so do all later ones. -/
theorem passes_of_stable {n : Nat}
    (hstable : ∀ b ∈ group, (c.pass g group)^[n + 1] X b = (c.pass g group)^[n] X b)
    {m : Nat} (hm : n ≤ m) : (c.pass g group)^[m] X = (c.pass g group)^[n] X := by
  -- outside the group nothing ever changes, so the lists are a fixed point
  have hfix : c.pass g group ((c.pass g group)^[n] X) = (c.pass g group)^[n] X := by
    funext b
    rw [← Function.iterate_succ_apply' (c.pass g group)]
    by_cases hb : b ∈ group
    · exact hstable b hb
    · rw [passes_of_not_mem hb, passes_of_not_mem hb]
  induction m, hm using Nat.le_induction with
  | base => rfl
  | succ m _ ih => rw [Function.iterate_succ_apply', ih, hfix]

end Passes

end Lane

end ReachingDefs
