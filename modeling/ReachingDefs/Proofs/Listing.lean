import ReachingDefs.Proofs.Lane

/-!
# The order of a listing

Passes over a group settle what its blocks list, but not the order in which they list
it. Every visit lists the members of a block anew, in the order of its first
predecessors, and around a cycle two members can go on changing places for ever.

For two members that order is one of two things. Either the block fixes it, because
it adds one of the two itself, lets only one through, or meets only one at the first
predecessor that has any. Or the block takes it over from one predecessor, always the
same one. So orders only ever move along a function on blocks: what has not come to
rest after as many further passes as the group has blocks goes around a cycle of that
function, and never comes to rest. That is `passes_settle`.
-/

namespace ReachingDefs

/-! ## Which of two comes first -/

namespace OrderedSet

variable {α : Type} [DecidableEq α] {a b : α}

/-- Which of the two is listed first; neither, if neither is listed. -/
def first (a b : α) (l : List α) : Option α :=
  l.find? fun x => x = a ∨ x = b

theorem first_cons (x : α) (l : List α) :
    first a b (x :: l) = if x = a ∨ x = b then some x else first a b l := by
  unfold first
  rw [List.find?_cons]
  by_cases h : x = a ∨ x = b <;> simp [h]

theorem first_append (l m : List α) : first a b (l ++ m) = (first a b l).or (first a b m) :=
  List.find?_append

theorem first_comm (l : List α) : first a b l = first b a l := by
  unfold first
  simp only [or_comm]

theorem first_eq_none {l : List α} : first a b l = none ↔ a ∉ l ∧ b ∉ l := by
  induction l with
  | nil => simp [first]
  | cons x l ih =>
      rw [first_cons]
      split
      · rename_i h
        rcases h with rfl | rfl <;> simp
      · rename_i h
        rw [ih]
        simp [Ne.symm (not_or.mp h).1, Ne.symm (not_or.mp h).2]

theorem first_of_not_mem {l : List α} (h : a ∉ l) : first a b l = first b b l := by
  induction l with
  | nil => rfl
  | cons x l ih =>
      obtain ⟨hx, hl⟩ := not_or.mp (mt List.mem_cons.mpr h)
      rw [first_cons, first_cons, ih hl]
      simp [Ne.symm hx]

theorem first_self (l : List α) : first a a l = if a ∈ l then some a else none := by
  induction l with
  | nil => rfl
  | cons x l ih =>
      rw [first_cons, ih]
      by_cases h : x = a
      · simp [h]
      · simp [h, Ne.symm h]

/-- If one of the two is not listed, all depends on whether the other one is. -/
theorem first_congr_of_not_mem {l m : List α} (hl : a ∉ l ∨ b ∉ l) (h : ∀ x, x ∈ l ↔ x ∈ m) :
    first a b l = first a b m := by
  rcases hl with hl | hl
  · rw [first_of_not_mem hl, first_of_not_mem (mt (h a).mpr hl), first_self, first_self]
    simp only [h]
  · rw [first_comm, first_comm m, first_of_not_mem hl, first_of_not_mem (mt (h b).mpr hl),
      first_self, first_self]
    simp only [h]

theorem first_filter {keep : α → Bool} (ha : keep a = true) (hb : keep b = true) (l : List α) :
    first a b (l.filter keep) = first a b l := by
  induction l with
  | nil => rfl
  | cons x l ih =>
      by_cases hx : keep x = true
      · rw [List.filter_cons_of_pos hx, first_cons, first_cons, ih]
      · have hne : ¬ (x = a ∨ x = b) := by
          rintro (rfl | rfl)
          · exact hx ha
          · exact hx hb
        rw [List.filter_cons_of_neg hx, first_cons, if_neg hne, ih]

theorem first_insert (l : List α) (x : α) :
    first a b (insert l x) = (first a b l).or (first a b [x]) := by
  by_cases h : x ∈ l
  · rw [insert_of_mem h]
    cases hf : first a b l with
    | none =>
        obtain ⟨ha, hb⟩ := first_eq_none.mp hf
        have hx : a ∉ [x] ∧ b ∉ [x] := by
          simp only [List.mem_singleton]
          constructor
          · rintro rfl
            exact ha h
          · rintro rfl
            exact hb h
        rw [first_eq_none.mpr hx]
        rfl
    | some y => rfl
  · rw [insert_of_not_mem h, first_append]

theorem first_union (l m : List α) :
    first a b (union l m) = (first a b l).or (first a b m) := by
  induction m generalizing l with
  | nil => simp [union_nil, first]
  | cons x m ih =>
      rw [union_cons, ih, first_insert, Option.or_assoc, ← first_append]
      rfl

/-- **Two lists without repetitions are equal if any two come in the same order in both.**
Where the two are one and the same, that says that the lists have the same members. -/
theorem eq_of_first {l m : List α} (hl : l.Nodup) (hm : m.Nodup)
    (h : ∀ a b, first a b l = first a b m) : l = m := by
  induction l generalizing m with
  | nil =>
      cases m with
      | nil => rfl
      | cons y m =>
          have := h y y
          rw [first_cons] at this
          simp [first] at this
  | cons x l ih =>
      cases m with
      | nil =>
          have := h x x
          rw [first_cons] at this
          simp [first] at this
      | cons y m =>
          -- each list starts with the one of the two heads that comes first
          obtain rfl : x = y := by
            have := h x y
            rw [first_cons, first_cons] at this
            simpa using this
          obtain ⟨hxl, hl⟩ := List.nodup_cons.mp hl
          obtain ⟨hxm, hm⟩ := List.nodup_cons.mp hm
          have htail : ∀ a b, a ≠ x → b ≠ x → first a b l = first a b m := by
            intro a b ha hb
            have := h a b
            rwa [first_cons, first_cons, if_neg (by simp [ha.symm, hb.symm]),
              if_neg (by simp [ha.symm, hb.symm])] at this
          have hself : ∀ b, first b b l = first b b m := by
            intro b
            by_cases hb : b = x
            · rw [hb, first_self, first_self, if_neg hxl, if_neg hxm]
            · exact htail b b hb hb
          refine congrArg (x :: ·) (ih hl hm fun a b => ?_)
          -- the head is in neither tail, so only the other one of the two counts
          by_cases ha : a = x
          · rw [ha, first_of_not_mem hxl, first_of_not_mem hxm, hself]
          · by_cases hb : b = x
            · rw [hb, first_comm, first_comm m, first_of_not_mem hxl, first_of_not_mem hxm, hself]
            · exact htail a b ha hb

end OrderedSet

/-! ## What a visit makes of an order -/

open OrderedSet

namespace Lane

variable {α : Type} [DecidableEq α] {c : Lane α} {g : FlowGraph}

theorem first_join {a a' : α} (X : BlockId → List α) (ps : List BlockId) :
    first a a' (join X ps) = ps.findSome? fun p => first a a' (X p) := by
  have hfold : ∀ l, first a a' (ps.foldl (fun l p => OrderedSet.union l (X p)) l) =
      (first a a' l).or (ps.findSome? fun p => first a a' (X p)) := by
    induction ps with
    | nil => simp
    | cons p ps ih =>
        intro l
        rw [List.foldl_cons, ih, first_union, Option.or_assoc, List.findSome?_cons]
        cases first a a' (X p) <;> rfl
  exact (hfold []).trans rfl

/-- The blocks `ps` have the same members in `Y` as in `Z`. -/
def Agree (ps : List BlockId) (Y Z : BlockId → List α) : Prop :=
  ∀ p ∈ ps, ∀ x, x ∈ Y p ↔ x ∈ Z p

theorem Agree.mem_join {ps : List BlockId} {Y Z : BlockId → List α} (h : Agree ps Y Z) {x : α} :
    x ∈ join Y ps ↔ x ∈ join Z ps := by
  rw [Lane.mem_join, Lane.mem_join]
  exact exists_congr fun p => and_congr_right fun hp => h p hp x

/-- The first predecessor that has any of the two decides about a join. -/
theorem first_join_cases (ps : List BlockId) (Z : BlockId → List α) (a a' : α) :
    (∀ Y, Agree ps Y Z → first a a' (join Y ps) = none) ∨
      ∃ p ∈ ps, ∀ Y, Agree ps Y Z →
        first a a' (join Y ps) = first a a' (Y p) ∧ (first a a' (Y p)).isSome = true := by
  induction ps with
  | nil => exact Or.inl fun Y _ => rfl
  | cons q ps ih =>
      have hnone : ∀ Y, Agree (q :: ps) Y Z →
          (first a a' (Y q) = none ↔ a ∉ Z q ∧ a' ∉ Z q) := by
        intro Y hY
        rw [first_eq_none, hY q List.mem_cons_self, hY q List.mem_cons_self]
      by_cases hq : a ∉ Z q ∧ a' ∉ Z q
      · -- the first one has neither, and the others decide
        have hskip : ∀ Y, Agree (q :: ps) Y Z → first a a' (join Y (q :: ps)) =
            first a a' (join Y ps) := by
          intro Y hY
          rw [first_join, first_join, List.findSome?_cons, (hnone Y hY).mpr hq]
        have hrest : ∀ Y, Agree (q :: ps) Y Z → Agree ps Y Z :=
          fun Y hY p hp => hY p (List.mem_cons_of_mem _ hp)
        rcases ih with h | ⟨p, hp, h⟩
        · exact Or.inl fun Y hY => (hskip Y hY).trans (h Y (hrest Y hY))
        · refine Or.inr ⟨p, List.mem_cons_of_mem _ hp, fun Y hY => ?_⟩
          rw [hskip Y hY]
          exact h Y (hrest Y hY)
      · refine Or.inr ⟨q, List.mem_cons_self, fun Y hY => ?_⟩
        obtain ⟨x, hx⟩ := Option.ne_none_iff_exists'.mp (mt (hnone Y hY).mp hq)
        rw [first_join, List.findSome?_cons, hx]
        exact ⟨rfl, rfl⟩

/-- **A block fixes the order of two members, or takes it over from one predecessor.** -/
theorem first_along_cases {b : BlockId} {i : Nat} {ps : List BlockId} (Z : BlockId → List α)
    (a a' : α) :
    (∃ v, ∀ Y, Agree ps Y Z → first a a' (c.along b (join Y ps) i) = v) ∨
      ∃ p ∈ ps, ∀ Y, Agree ps Y Z →
        first a a' (c.along b (join Y ps) i) = first a a' (Y p) := by
  obtain ⟨own, halong⟩ : ∃ own, ∀ l, first a a' (c.along b l i) =
      (first a a' (l.filter (c.keepTo b i))).or own := by
    refine ⟨first a a' (c.along b [] i), fun l => ?_⟩
    rw [along_eq, first_append]
  by_cases hk : c.keepTo b i a = true ∧ c.keepTo b i a' = true
  · simp only [halong, first_filter hk.1 hk.2]
    rcases first_join_cases ps Z a a' with h | ⟨p, hp, h⟩
    · exact Or.inl ⟨_, fun Y hY => by rw [h Y hY]⟩
    · refine Or.inr ⟨p, hp, fun Y hY => ?_⟩
      obtain ⟨he, hsome⟩ := h Y hY
      rw [he, Option.or_of_isSome hsome]
  · -- at most one of the two comes through
    refine Or.inl ⟨first a a' (c.along b (join Z ps) i), fun Y hY => ?_⟩
    have hone : a ∉ (join Y ps).filter (c.keepTo b i) ∨ a' ∉ (join Y ps).filter (c.keepTo b i) := by
      rw [List.mem_filter, List.mem_filter]
      rcases not_and_or.mp hk with h | h
      · exact Or.inl fun hmem => h hmem.2
      · exact Or.inr fun hmem => h hmem.2
    rw [halong, halong, first_congr_of_not_mem hone]
    intro x
    rw [List.mem_filter, List.mem_filter, hY.mem_join]

/-! ## Lists without repetitions -/

/-- An instruction adds nothing twice, and nothing that it also lets through. -/
structure Lawful (c : Lane α) : Prop where
  nodup : ∀ o, (c.gen o).Nodup
  fresh : ∀ o a, a ∈ c.gen o → c.keep o a = false

omit [DecidableEq α] in
theorem Lawful.nodup_along (hc : c.Lawful) {b : BlockId} {l : List α} (hl : l.Nodup) (i : Nat) :
    (c.along b l i).Nodup := by
  induction i with
  | zero => exact hl
  | succ i ih =>
      refine List.nodup_append.mpr ⟨ih.filter _, hc.nodup _, ?_⟩
      rintro x hx _ hgen rfl
      have hkeep := (List.mem_filter.mp hx).2
      rw [hc.fresh _ _ hgen] at hkeep
      cases hkeep

theorem nodup_join (X : BlockId → List α) (ps : List BlockId) : (join X ps).Nodup := by
  have hfold : ∀ l : List α, l.Nodup →
      (ps.foldl (fun l p => OrderedSet.union l (X p)) l).Nodup := by
    induction ps with
    | nil => exact fun l hl => hl
    | cons p ps ih => exact fun l hl => ih _ (nodup_union hl)
  exact hfold [] List.nodup_nil

section Passes

variable {group : List BlockId} {X : BlockId → List α}

theorem Lawful.nodup_passes (hc : c.Lawful) (hnd : group.Nodup) (hempty : ∀ b ∈ group, X b = [])
    (n : Nat) {b : BlockId} (hb : b ∈ group) : ((c.pass g group)^[n] X b).Nodup := by
  cases n with
  | zero =>
      rw [Function.iterate_zero_apply, hempty b hb]
      exact List.nodup_nil
  | succ n =>
      obtain ⟨front, back, rfl⟩ := List.append_of_mem hb
      rw [Function.iterate_succ_apply', pass_eq _ hnd]
      exact hc.nodup_along (nodup_join ..) _

/-- After as many passes as it has blocks, a group gains and loses no members. -/
theorem mem_passes_congr (hnd : group.Nodup) (hempty : ∀ b ∈ group, X b = []) {m n : Nat}
    (hm : group.length ≤ m) (hn : group.length ≤ n) (b : BlockId) {a : α} :
    a ∈ (c.pass g group)^[m] X b ↔ a ∈ (c.pass g group)^[n] X b := by
  by_cases hb : b ∈ group
  · have hwithin : ∀ k, group.length ≤ k →
        (a ∈ (c.pass g group)^[k] X b ↔ c.Within g group X a group.length b) := by
      intro k hk
      constructor
      · intro h
        obtain ⟨j, hj⟩ := within_of_mem_passes hempty hb h
        exact hj.bounded hb
      · exact mem_passes_of_within hnd hk hb
    rw [hwithin m hm, hwithin n hn]
  · rw [passes_of_not_mem hb, passes_of_not_mem hb]

/-! ## Coming to rest -/

/-- From then on, a block of the group fixes the order of two members, or takes it over
from one predecessor: from the same pass if that one stands in front of it in the group,
and from the pass before if not. -/
theorem first_passes_cases (hnd : group.Nodup) (hempty : ∀ b ∈ group, X b = [])
    {front back : List BlockId} {b : BlockId} (he : group = front ++ b :: back) (a a' : α) :
    (∃ v, ∀ t, group.length ≤ t → first a a' ((c.pass g group)^[t + 1] X b) = v) ∨
      ∃ p, ∀ t, group.length ≤ t → first a a' ((c.pass g group)^[t + 1] X b) =
        first a a' ((c.pass g group)^[if p ∈ front then t + 1 else t] X p) := by
  -- when it is the turn of `b`, the blocks in front of it are one pass ahead
  have hpass : ∀ t p, c.pass g front ((c.pass g group)^[t] X) p =
      (c.pass g group)^[if p ∈ front then t + 1 else t] X p := by
    intro t p
    split
    · rename_i hp
      rw [Function.iterate_succ_apply']
      rw [he] at hnd ⊢
      exact (pass_front _ hnd hp).symm
    · rename_i hp
      exact pass_of_not_mem hp
  have hvisit : ∀ t, (c.pass g group)^[t + 1] X b = c.along b
      (join (c.pass g front ((c.pass g group)^[t] X)) (g.predecessors b)) (g.length b) := by
    intro t
    rw [Function.iterate_succ_apply']
    rw [he] at hnd ⊢
    exact pass_eq _ hnd
  have hagree : ∀ t, group.length ≤ t → Agree (g.predecessors b)
      (c.pass g front ((c.pass g group)^[t] X)) ((c.pass g group)^[group.length] X) := by
    intro t ht p _ x
    rw [hpass]
    refine mem_passes_congr hnd hempty ?_ (Nat.le_refl _) p
    split <;> omega
  rcases first_along_cases (c := c) (b := b) (i := g.length b)
    ((c.pass g group)^[group.length] X) a a' with ⟨v, h⟩ | ⟨p, _, h⟩
  · refine Or.inl ⟨v, fun t ht => ?_⟩
    rw [hvisit]
    exact h _ (hagree t ht)
  · refine Or.inr ⟨p, fun t ht => ?_⟩
    rw [hvisit, h _ (hagree t ht), hpass]

/-- At pass `T` or later, block `b` does not list `a` and `a'` in the order in which it lists
them at pass `N`. -/
def Drifts (c : Lane α) (g : FlowGraph) (group : List BlockId) (X : BlockId → List α) (a a' : α)
    (N T : Nat) (b : BlockId) : Prop :=
  ∃ t, T ≤ t ∧
    first a a' ((c.pass g group)^[t] X b) ≠ first a a' ((c.pass g group)^[N] X b)

/-- If the same blocks drift from one pass on as from the next one on, then so it stays.
The induction is over the places in the group, because a block may take its order over
from one in front of it in the same pass. -/
theorem drifts_step (hnd : group.Nodup) (hempty : ∀ b ∈ group, X b = []) {a a' : α} {N T : Nat}
    (hN : group.length ≤ N) (hrest : (c.pass g group)^[N + 1] X = (c.pass g group)^[N] X)
    (hT : group.length ≤ T)
    (hsame : ∀ b ∈ group, c.Drifts g group X a a' N T b → c.Drifts g group X a a' N (T + 1) b)
    {front back : List BlockId} {b : BlockId} (he : group = front ++ b :: back)
    (h : c.Drifts g group X a a' N (T + 1) b) : c.Drifts g group X a a' N (T + 2) b := by
  induction hlen : front.length using Nat.strongRecOn generalizing front back b with
  | ind n ih =>
      obtain ⟨t, ht, hne⟩ := h
      obtain ⟨u, rfl⟩ : ∃ u, t = u + 1 := ⟨t - 1, by omega⟩
      rcases first_passes_cases (c := c) (g := g) hnd hempty he a a' with ⟨v, hv⟩ | ⟨p, hp⟩
      · -- a fixed order does not drift
        have hfinal := hv N hN
        rw [hrest] at hfinal
        rw [hv u (by omega), hfinal] at hne
        exact absurd rfl hne
      · -- at rest both have the same order, so `p` drifts when `b` does
        have hfinal : first a a' ((c.pass g group)^[N] X b) =
            first a a' ((c.pass g group)^[N] X p) := by
          have hlast := hp N hN
          rw [hrest] at hlast
          rw [hlast]
          split
          · rw [hrest]
          · rfl
        by_cases hpf : p ∈ front
        · -- `p` drifts in the same pass, and stands closer to the start of the group
          simp only [if_pos hpf] at hp
          rw [hp u (by omega), hfinal] at hne
          obtain ⟨before, between, rfl⟩ := List.append_of_mem hpf
          have hplace : group = before ++ p :: (between ++ b :: back) := by simp [he]
          have hshort : before.length < n := by
            rw [← hlen, List.length_append, List.length_cons]
            omega
          obtain ⟨w, hw, hne⟩ := ih before.length hshort hplace ⟨u + 1, ht, hne⟩ rfl
          obtain ⟨w, rfl⟩ : ∃ k, w = k + 1 := ⟨w - 1, by omega⟩
          refine ⟨w + 1, hw, ?_⟩
          rw [hp w (by omega), hfinal]
          exact hne
        · simp only [if_neg hpf] at hp
          rw [hp u (by omega), hfinal] at hne
          by_cases hpg : p ∈ group
          · obtain ⟨w, hw, hne⟩ := hsame p hpg ⟨u, by omega, hne⟩
            refine ⟨w + 1, by omega, ?_⟩
            rw [hp w (by omega), hfinal]
            exact hne
          · -- outside the group nothing drifts
            rw [passes_of_not_mem hpg, passes_of_not_mem hpg] at hne
            exact absurd rfl hne

/-- What comes to rest at all has come to rest after twice as many passes as there are
blocks. -/
theorem not_drifts (hnd : group.Nodup) (hempty : ∀ b ∈ group, X b = []) {a a' : α} {N : Nat}
    (hN : group.length ≤ N)
    (hrest : ∀ t, N ≤ t → (c.pass g group)^[t] X = (c.pass g group)^[N] X) {b : BlockId}
    (hb : b ∈ group) : ¬ c.Drifts g group X a a' N (2 * group.length) b := by
  classical
  -- the blocks that are at rest from the given number of further passes on
  let S : Nat → Finset BlockId := fun n =>
    group.toFinset.filter fun b => ¬ c.Drifts g group X a a' N (group.length + n) b
  have hS : ∀ n p, p ∈ S n ↔ p ∈ group ∧ ¬ c.Drifts g group X a a' N (group.length + n) p := by
    intro n p
    rw [Finset.mem_filter, List.mem_toFinset]
  have hmono : ∀ n, S n ⊆ S (n + 1) := by
    intro n p hp
    obtain ⟨hpg, hnot⟩ := (hS n p).mp hp
    refine (hS _ p).mpr ⟨hpg, ?_⟩
    rintro ⟨t, ht, hne⟩
    exact hnot ⟨t, by omega, hne⟩
  have hstop : ∀ n, S (n + 1) ⊆ S n → S (n + 2) ⊆ S (n + 1) := by
    intro n hn p hp
    obtain ⟨hpg, hnot⟩ := (hS _ p).mp hp
    refine (hS _ p).mpr ⟨hpg, fun hdrifts => hnot ?_⟩
    obtain ⟨front, back, he⟩ := List.append_of_mem hpg
    refine drifts_step hnd hempty hN (hrest _ (Nat.le_succ N)) (Nat.le_add_right _ n) ?_ he hdrifts
    intro q hq hd
    by_contra hlater
    exact ((hS n q).mp (hn ((hS _ q).mpr ⟨hq, hlater⟩))).2 hd
  have hlate : b ∈ S N := by
    refine (hS N b).mpr ⟨hb, ?_⟩
    rintro ⟨t, ht, hne⟩
    rw [hrest t (by omega)] at hne
    exact hne rfl
  have hmem := growing_stops (fun n => Finset.filter_subset _ _) hmono hstop hlate
  rw [List.toFinset_card_of_nodup hnd] at hmem
  rw [Nat.two_mul]
  exact ((hS _ b).mp hmem).2

/-- **Lists that come to rest do so within twice as many passes as the group has blocks.** -/
theorem passes_settle (hc : c.Lawful) (hnd : group.Nodup) (hempty : ∀ b ∈ group, X b = [])
    {n : Nat} (hstable : ∀ b ∈ group, (c.pass g group)^[n + 1] X b = (c.pass g group)^[n] X b)
    {t : Nat} (ht : 2 * group.length ≤ t) :
    (c.pass g group)^[t] X = (c.pass g group)^[2 * group.length] X := by
  -- late enough for the lists to be at rest and for the members to be complete
  let N := max n group.length
  have hrest : ∀ m, N ≤ m → (c.pass g group)^[m] X = (c.pass g group)^[N] X := by
    intro m hm
    rw [passes_of_stable hstable (Nat.le_trans (Nat.le_max_left ..) hm),
      passes_of_stable hstable (Nat.le_max_left n group.length)]
  have hall : ∀ m, 2 * group.length ≤ m → (c.pass g group)^[m] X = (c.pass g group)^[N] X := by
    intro m hm
    funext b
    by_cases hb : b ∈ group
    · refine eq_of_first (hc.nodup_passes hnd hempty m hb) (hc.nodup_passes hnd hempty N hb) ?_
      intro a a'
      by_contra hne
      exact not_drifts hnd hempty (Nat.le_max_right ..) hrest hb ⟨m, hm, hne⟩
    · rw [passes_of_not_mem hb, passes_of_not_mem hb]
  rw [hall t ht, hall _ (Nat.le_refl _)]

end Passes

end Lane

end ReachingDefs
