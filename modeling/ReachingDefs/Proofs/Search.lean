import Mathlib.Data.Finset.Card
import Mathlib.Logic.Relation
import ReachingDefs.Flow.Search

/-!
# What a depth-first search leaves behind

A search that starts where some blocks are still open leaves a list of blocks,
the last one left first. `Covers` collects what is true of that list: it is closed
under the edges to blocks that were open, and it lists the blocks in a useful
order. The order is the point. If one block reaches another, then some block that
is mutually reachable with the first is left no earlier than the second, so a
component is not left for good before the components that it reaches.

Covers compose: two searches one after the other cover what they cover together,
and a block together with a cover of its neighbours is a cover. `Searches` adds the
blocks that a search starts from, and composes in the same two ways. The search is
built from these two, so the proof about it is one induction on the depth.
-/

namespace ReachingDefs

/-- `v` can be reached from `u` along the edges that `next` gives. -/
def Reaches (next : BlockId → List BlockId) : BlockId → BlockId → Prop :=
  Relation.ReflTransGen fun u v => v ∈ next u

/-- Each of the two blocks can be reached from the other. -/
def Mutual (next : BlockId → List BlockId) (u v : BlockId) : Prop :=
  Reaches next u v ∧ Reaches next v u

theorem Mutual.refl {next : BlockId → List BlockId} (u : BlockId) : Mutual next u u :=
  ⟨Relation.ReflTransGen.refl, Relation.ReflTransGen.refl⟩

namespace Trail

variable {next : BlockId → List BlockId} {t t₁ t₂ : Trail}

/-- `v` can be reached from `u` through blocks that are open in `t`. -/
def OpenReaches (next : BlockId → List BlockId) (t : Trail) : BlockId → BlockId → Prop :=
  Relation.ReflTransGen fun u v => v ∈ next u ∧ t.isOpen v = true

theorem OpenReaches.reaches {u v : BlockId} (h : OpenReaches next t u v) : Reaches next u v := by
  induction h with
  | refl => exact Relation.ReflTransGen.refl
  | tail _ e ih => exact ih.tail e.1

/-- `y` is `v`, or `y` was left later: it is listed in front of `v`. -/
def NotBefore (left : List BlockId) (y v : BlockId) : Prop :=
  y = v ∨ [y, v].Sublist left

/-- From `t` to `t'` the search left the blocks `left`, the last one first. -/
structure Covers (next : BlockId → List BlockId) (t t' : Trail) (left : List BlockId) : Prop where
  /-- They were put in front of what had been left before. -/
  finished : t'.finished = left ++ t.finished
  /-- They are the blocks that were open and no longer are. -/
  isOpen : ∀ c, t'.isOpen c = true ↔ t.isOpen c = true ∧ c ∉ left
  opened : ∀ c ∈ left, t.isOpen c = true
  nodup : left.Nodup
  /-- No edge leads out of them to a block that was open. -/
  closed : ∀ c ∈ left, ∀ v ∈ next c, t.isOpen v = true → v ∈ left
  /-- A component is not left for good before what it reaches. -/
  last : ∀ w ∈ left, ∀ v ∈ left, OpenReaches next t w v →
    ∃ y, Mutual next w y ∧ NotBefore left y v

theorem Covers.refl (t : Trail) : Covers next t t [] where
  finished := rfl
  isOpen := by intro c; simp
  opened := by intro c hc; exact absurd hc List.not_mem_nil
  nodup := List.nodup_nil
  closed := by intro c hc; exact absurd hc List.not_mem_nil
  last := by intro w hw; exact absurd hw List.not_mem_nil

/-- A path through open blocks cannot leave what a search covers. -/
theorem Covers.mem_of_reaches {left : List BlockId} (h : Covers next t t₁ left) {w v : BlockId}
    (hw : w ∈ left) (hr : OpenReaches next t w v) : v ∈ left := by
  induction hr with
  | refl => exact hw
  | tail _ e ih => exact h.closed _ ih _ e.1 e.2

/-- A path through open blocks stays among those still open, or runs into what was
covered and then ends there. -/
theorem Covers.stays_or_mem {left : List BlockId} (h : Covers next t t₁ left) {w v : BlockId}
    (hr : OpenReaches next t w v) : OpenReaches next t₁ w v ∨ v ∈ left := by
  induction hr with
  | refl => exact Or.inl Relation.ReflTransGen.refl
  | @tail x y _ e ih =>
      rcases ih with ih | ih
      · by_cases hy : y ∈ left
        · exact Or.inr hy
        · exact Or.inl (ih.tail ⟨e.1, (h.isOpen y).mpr ⟨e.2, hy⟩⟩)
      · exact Or.inr (h.closed x ih y e.1 e.2)

/-- **Searches one after the other cover what they cover together.** -/
theorem Covers.trans {left₁ left₂ : List BlockId} (h₁ : Covers next t t₁ left₁)
    (h₂ : Covers next t₁ t₂ left₂) : Covers next t t₂ (left₂ ++ left₁) where
  finished := by rw [h₂.finished, h₁.finished, List.append_assoc]
  isOpen := by
    intro c
    rw [h₂.isOpen, h₁.isOpen, List.mem_append]
    tauto
  opened := by
    intro c hc
    rcases List.mem_append.mp hc with hc | hc
    · exact ((h₁.isOpen c).mp (h₂.opened c hc)).1
    · exact h₁.opened c hc
  nodup := by
    rw [List.nodup_append]
    refine ⟨h₂.nodup, h₁.nodup, ?_⟩
    intro a ha b hb he
    exact ((h₁.isOpen a).mp (h₂.opened a ha)).2 (he ▸ hb)
  closed := by
    intro c hc v hv ho
    rcases List.mem_append.mp hc with hc | hc
    · by_cases hv₁ : v ∈ left₁
      · exact List.mem_append_right _ hv₁
      · exact List.mem_append_left _ (h₂.closed c hc v hv ((h₁.isOpen v).mpr ⟨ho, hv₁⟩))
    · exact List.mem_append_right _ (h₁.closed c hc v hv ho)
  last := by
    intro w hw v hv hr
    rcases List.mem_append.mp hw with hw | hw
    · rcases List.mem_append.mp hv with hv | hv
      · -- both were left by the second search, and so was the whole path
        rcases h₁.stays_or_mem hr with hr | hmem
        · obtain ⟨y, hy, hl⟩ := h₂.last w hw v hv hr
          exact ⟨y, hy, hl.imp id fun hs => hs.trans (List.sublist_append_left _ _)⟩
        · exact absurd hmem ((h₁.isOpen v).mp (h₂.opened v hv)).2
      · -- `v` was left by the first search, so before `w`
        refine ⟨w, Mutual.refl w, Or.inr ?_⟩
        exact (List.singleton_sublist.mpr hw).append (List.singleton_sublist.mpr hv)
    · obtain ⟨y, hy, hl⟩ := h₁.last w hw v (h₁.mem_of_reaches hw hr) hr
      exact ⟨y, hy, hl.imp id fun hs => hs.trans (List.sublist_append_right _ _)⟩

/-! ## Entering and leaving a block -/

theorem isOpen_enter (t : Trail) (b c : BlockId) :
    (t.enter b).isOpen c = true ↔ t.isOpen c = true ∧ c ≠ b := by
  unfold enter isOpen
  simp only [Array.getD_eq_getD_getElem?, Array.getElem?_setIfInBounds]
  by_cases hb : b = c
  · subst hb
    by_cases hlt : b < t.unseen.size <;> simp [hlt]
  · simp [hb, Ne.symm hb]

/-- A path from a block that does not reach `b` never meets `b`. -/
theorem OpenReaches.avoids {b w v : BlockId} (hr : OpenReaches next t w v)
    (hb : ¬ Reaches next w b) : OpenReaches next (t.enter b) w v := by
  induction hr with
  | refl => exact Relation.ReflTransGen.refl
  | @tail x y hx e ih =>
      refine ih.tail ⟨e.1, (isOpen_enter t b y).mpr ⟨e.2, ?_⟩⟩
      rintro rfl
      exact hb (OpenReaches.reaches hx |>.tail e.1)

/-- **A block, entered and left around a cover of its neighbours, is covered too.** -/
theorem Covers.around {b : BlockId} {left : List BlockId} (hb : t.isOpen b = true)
    (h : Covers next (t.enter b) t₁ left) (hreach : ∀ c ∈ left, Reaches next b c)
    (hnext : ∀ v ∈ next b, (t.enter b).isOpen v = true → v ∈ left) :
    Covers next t (t₁.leave b) (b :: left) where
  finished := by
    show b :: t₁.finished = _
    rw [h.finished]
    rfl
  isOpen := by
    intro c
    show t₁.isOpen c = true ↔ _
    rw [h.isOpen, isOpen_enter, List.mem_cons]
    tauto
  opened := by
    intro c hc
    rcases List.mem_cons.mp hc with rfl | hc
    · exact hb
    · exact ((isOpen_enter t b c).mp (h.opened c hc)).1
  nodup := by
    refine List.nodup_cons.mpr ⟨fun hmem => ?_, h.nodup⟩
    exact ((isOpen_enter t b b).mp (h.opened b hmem)).2 rfl
  closed := by
    intro c hc v hv ho
    by_cases hvb : v = b
    · exact hvb ▸ List.mem_cons_self
    · have hopen : (t.enter b).isOpen v = true := (isOpen_enter t b v).mpr ⟨ho, hvb⟩
      rcases List.mem_cons.mp hc with rfl | hc
      · exact List.mem_cons_of_mem _ (hnext v hv hopen)
      · exact List.mem_cons_of_mem _ (h.closed c hc v hv hopen)
  last := by
    have hfrom : ∀ c ∈ b :: left, Reaches next b c := by
      intro c hc
      rcases List.mem_cons.mp hc with rfl | hc
      · exact Relation.ReflTransGen.refl
      · exact hreach c hc
    have hfront : ∀ v ∈ b :: left, NotBefore (b :: left) b v := by
      intro v hv
      rcases List.mem_cons.mp hv with rfl | hv
      · exact Or.inl rfl
      · exact Or.inr ((List.singleton_sublist.mpr hv).cons_cons b)
    intro w hw v hv hr
    by_cases hmeet : Reaches next w b
    · -- `w` and `b` are mutually reachable, and `b` is left last
      exact ⟨b, ⟨hmeet, hfrom w hw⟩, hfront v hv⟩
    · have hne : ∀ c ∈ b :: left, Reaches next w c → c ∈ left := by
        intro c hc hwc
        rcases List.mem_cons.mp hc with rfl | hc
        · exact absurd hwc hmeet
        · exact hc
      obtain ⟨y, hy, hl⟩ := h.last w (hne w hw Relation.ReflTransGen.refl) v
        (hne v hv hr.reaches) (hr.avoids hmeet)
      exact ⟨y, hy, hl.imp id fun hs => hs.trans (List.sublist_cons_self b left)⟩

/-! ## The whole search -/

/-- The blocks that a search may still enter. -/
def openBlocks (t : Trail) : Finset BlockId :=
  (Finset.range t.unseen.size).filter fun c => t.isOpen c = true

theorem mem_openBlocks {t : Trail} {c : BlockId} : c ∈ t.openBlocks ↔ t.isOpen c = true := by
  unfold openBlocks
  rw [Finset.mem_filter, Finset.mem_range]
  refine ⟨fun h => h.2, fun h => ⟨?_, h⟩⟩
  rcases Nat.lt_or_ge c t.unseen.size with hlt | hge
  · exact hlt
  · simp [isOpen, Array.getD_eq_getD_getElem?, Array.getElem?_eq_none hge] at h

theorem card_openBlocks_enter {b : BlockId} (hb : t.isOpen b = true) :
    (t.enter b).openBlocks.card + 1 = t.openBlocks.card := by
  have he : (t.enter b).openBlocks = t.openBlocks.erase b := by
    ext c
    rw [Finset.mem_erase, mem_openBlocks, mem_openBlocks, isOpen_enter, and_comm]
  rw [he]
  exact Finset.card_erase_add_one (mem_openBlocks.mpr hb)

theorem Covers.card_le {left : List BlockId} (h : Covers next t t₁ left) :
    t₁.openBlocks.card ≤ t.openBlocks.card := by
  refine Finset.card_le_card fun c hc => ?_
  rw [mem_openBlocks] at hc ⊢
  exact ((h.isOpen c).mp hc).1

/-- A search from the blocks `bs`, one after the other, went from `t` to `t'` and left the
blocks `left`. -/
structure Searches (next : BlockId → List BlockId) (bs : List BlockId) (t t' : Trail)
    (left : List BlockId) : Prop where
  covers : Covers next t t' left
  reach : ∀ c ∈ left, ∃ b ∈ bs, Reaches next b c
  entered : ∀ b ∈ bs, t.isOpen b = true → b ∈ left

theorem Searches.nil (t : Trail) : Searches next [] t t [] := by
  refine ⟨Covers.refl t, ?_, ?_⟩
  · intro c hc; exact absurd hc List.not_mem_nil
  · intro b hb; exact absurd hb List.not_mem_nil

theorem Searches.cons {b : BlockId} {bs left₁ left₂ : List BlockId}
    (h₁ : Searches next [b] t t₁ left₁) (h₂ : Searches next bs t₁ t₂ left₂) :
    Searches next (b :: bs) t t₂ (left₂ ++ left₁) := by
  refine ⟨h₁.covers.trans h₂.covers, ?_, ?_⟩
  · intro c hc
    rcases List.mem_append.mp hc with hc | hc
    · obtain ⟨d, hd, hdc⟩ := h₂.reach c hc
      exact ⟨d, List.mem_cons_of_mem _ hd, hdc⟩
    · obtain ⟨d, hd, hdc⟩ := h₁.reach c hc
      exact ⟨d, List.mem_cons.mpr (Or.inl (List.mem_singleton.mp hd)), hdc⟩
  · -- the first search may have entered blocks that the others start from
    intro d hd ho
    by_cases hd₁ : d ∈ left₁
    · exact List.mem_append_right _ hd₁
    · rcases List.mem_cons.mp hd with rfl | hd
      · exact absurd (h₁.entered d (List.mem_singleton_self d) ho) hd₁
      · exact List.mem_append_left _ (h₂.entered d hd ((h₁.covers.isOpen d).mpr ⟨ho, hd₁⟩))

/-- A block that is not open is not searched. -/
theorem Searches.skip {b : BlockId} (hb : ¬ t.isOpen b = true) : Searches next [b] t t [] := by
  refine ⟨Covers.refl t, ?_, ?_⟩
  · intro c hc; exact absurd hc List.not_mem_nil
  · intro d hd ho
    exact absurd (List.mem_singleton.mp hd ▸ ho) hb

theorem Searches.reaches {b : BlockId} {left : List BlockId} {t : Trail}
    (h : Searches next (next b) t t₁ left) {c : BlockId} (hc : c ∈ left) : Reaches next b c := by
  obtain ⟨a, ha, hac⟩ := h.reach c hc
  exact Relation.ReflTransGen.head ha hac

/-- What a search from `b` leaves can be reached from `b`. -/
theorem Searches.reaches_start {b : BlockId} {left : List BlockId}
    (h : Searches next [b] t t₁ left) {c : BlockId} (hc : c ∈ left) : Reaches next b c := by
  obtain ⟨a, ha, hac⟩ := h.reach c hc
  exact List.mem_singleton.mp ha ▸ hac

/-- **A block is searched by searching from its neighbours** after it has been entered. -/
theorem Searches.around {b : BlockId} {left : List BlockId} (hb : t.isOpen b = true)
    (h : Searches next (next b) (t.enter b) t₁ left) :
    Searches next [b] t (t₁.leave b) (b :: left) := by
  refine ⟨Covers.around hb h.covers (fun c => h.reaches) h.entered, ?_, ?_⟩
  · intro c hc
    refine ⟨b, List.mem_singleton_self b, ?_⟩
    rcases List.mem_cons.mp hc with rfl | hc
    · exact Relation.ReflTransGen.refl
    · exact h.reaches hc
  · intro d hd _
    rw [List.mem_singleton.mp hd]
    exact List.mem_cons_self

/-- No depth is needed only where no block is open. -/
theorem not_isOpen_of_card (h : t.openBlocks.card ≤ 0) (b : BlockId) : ¬ t.isOpen b = true := by
  intro ho
  have hmem := mem_openBlocks.mpr ho
  rw [Finset.card_eq_zero.mp (Nat.le_zero.mp h)] at hmem
  exact absurd hmem (Finset.notMem_empty b)

/-- Searches from several blocks follow from searches from single ones. -/
theorem foldl_searches {search : Trail → BlockId → Trail} {depth : Nat}
    (hsearch : ∀ t b, t.openBlocks.card ≤ depth → ∃ left, Searches next [b] t (search t b) left)
    (bs : List BlockId) (t : Trail) (hd : t.openBlocks.card ≤ depth) :
    ∃ left, Searches next bs t (bs.foldl search t) left := by
  induction bs generalizing t with
  | nil => exact ⟨[], Searches.nil t⟩
  | cons a as ih =>
      obtain ⟨left₁, h₁⟩ := hsearch t a hd
      obtain ⟨left₂, h₂⟩ := ih (search t a) (Nat.le_trans h₁.covers.card_le hd)
      exact ⟨left₂ ++ left₁, h₁.cons h₂⟩

/-- **A search covers what can be reached from its start.** The depth is enough once
it is no smaller than the number of open blocks, because each block on the way to
the current one has been entered. -/
theorem explore_searches (next : BlockId → List BlockId) (depth : Nat) (t : Trail) (b : BlockId)
    (hd : t.openBlocks.card ≤ depth) :
    ∃ left, Searches next [b] t (explore next depth t b) left := by
  induction depth generalizing t b with
  | zero => exact ⟨[], Searches.skip (not_isOpen_of_card hd b)⟩
  | succ depth ih =>
      unfold explore
      by_cases ho : t.isOpen b = true
      · rw [if_pos ho]
        -- entering `b` closes it, which pays for one level of the depth
        have hcard := card_openBlocks_enter ho
        obtain ⟨left, h⟩ := foldl_searches ih (next b) (t.enter b) (by omega)
        exact ⟨b :: left, h.around ho⟩
      · rw [if_neg ho]
        exact ⟨[], Searches.skip ho⟩

/-! ## From the first step -/

theorem isOpen_start (n c : Nat) : (start n).isOpen c = true ↔ c < n := by
  unfold start isOpen
  simp only [Array.getD_eq_getD_getElem?, Array.getElem?_replicate]
  by_cases h : c < n <;> simp [h]

theorem card_openBlocks_start (n : Nat) : (start n).openBlocks.card = n := by
  have he : (start n).openBlocks = Finset.range n := by
    ext c
    rw [mem_openBlocks, isOpen_start, Finset.mem_range]
  rw [he, Finset.card_range]

/-- Where edges lead to blocks, every path runs through blocks that are open at first. -/
theorem openReaches_start {n : Nat} (hlt : ∀ u, ∀ v ∈ next u, v < n) {u v : BlockId}
    (h : Reaches next u v) : OpenReaches next (start n) u v := by
  induction h with
  | refl => exact Relation.ReflTransGen.refl
  | @tail x y _ e ih => exact ih.tail ⟨e, (isOpen_start n y).mpr (hlt x y e)⟩

/-- **A search from `b` enters exactly the blocks that `b` reaches.** -/
theorem isOpen_explore_start {n : Nat} (hlt : ∀ u, ∀ v ∈ next u, v < n) {b c : BlockId}
    (hb : b < n) (hc : c < n) :
    (explore next n (start n) b).isOpen c = false ↔ Reaches next b c := by
  obtain ⟨left, h⟩ := explore_searches next n (start n) b (Nat.le_of_eq (card_openBlocks_start n))
  have hmem : (explore next n (start n) b).isOpen c = false ↔ c ∈ left := by
    rw [← Bool.not_eq_true, h.covers.isOpen, isOpen_start]
    tauto
  rw [hmem]
  refine ⟨h.reaches_start, fun hreach => ?_⟩
  have hstart := h.entered b (List.mem_singleton_self b) ((isOpen_start n b).mpr hb)
  exact h.covers.mem_of_reaches hstart (openReaches_start hlt hreach)

end Trail

end ReachingDefs
