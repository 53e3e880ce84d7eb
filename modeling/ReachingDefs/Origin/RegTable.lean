import ReachingDefs.Machine.Register

/-!
# Tables keyed by register

A finite map from registers, listed by ascending register. The listing is sorted
in the type, so that two tables with the same entries are equal.
-/

namespace ReachingDefs

/-- A finite map from registers to `α`. -/
structure RegTable (α : Type) where
  entries : List (Register × α)
  sorted : entries.Pairwise (fun a b => a.1 < b.1)
deriving DecidableEq

namespace RegTable

variable {α : Type}

/-- The table without entries. -/
def empty : RegTable α := ⟨[], .nil⟩

/-- The number of registers in the table. -/
def size (t : RegTable α) : Nat := t.entries.length

/-- Is no register in the table? -/
def isEmpty (t : RegTable α) : Bool := t.entries.isEmpty

/-- The entry of `r`. -/
def get? (t : RegTable α) (r : Register) : Option α :=
  t.entries.lookup r

/-- Puts `r` at its place in a sorted list, over an older entry. -/
def insertEntry (r : Register) (v : α) : List (Register × α) → List (Register × α)
  | [] => [(r, v)]
  | (q, w) :: rest =>
    if r < q then (r, v) :: (q, w) :: rest
    else if r = q then (r, v) :: rest
    else (q, w) :: insertEntry r v rest

theorem mem_insertEntry {r : Register} {v : α} {l : List (Register × α)} {e : Register × α}
    (h : e ∈ insertEntry r v l) : e = (r, v) ∨ e ∈ l := by
  induction l with
  | nil => simpa [insertEntry] using h
  | cons p rest ih =>
    obtain ⟨q, w⟩ := p
    unfold insertEntry at h
    split at h
    · simpa using h
    · split at h
      · rcases List.mem_cons.mp h with h | h
        · exact Or.inl h
        · exact Or.inr (List.mem_cons_of_mem _ h)
      · rcases List.mem_cons.mp h with h | h
        · exact Or.inr (h ▸ List.mem_cons_self)
        · exact (ih h).imp id (List.mem_cons_of_mem _)

theorem sorted_insertEntry (r : Register) (v : α) {l : List (Register × α)}
    (h : l.Pairwise (fun a b => a.1 < b.1)) :
    (insertEntry r v l).Pairwise (fun a b => a.1 < b.1) := by
  induction l with
  | nil => simp [insertEntry]
  | cons p rest ih =>
    obtain ⟨q, w⟩ := p
    obtain ⟨hq, hrest⟩ := List.pairwise_cons.mp h
    unfold insertEntry
    split
    · -- `r` goes in front
      rename_i hlt
      refine List.pairwise_cons.mpr ⟨fun e he => ?_, h⟩
      rcases List.mem_cons.mp he with he | he
      · exact he ▸ hlt
      · have := hq e he
        simp only [Register.lt_iff] at *
        omega
    · split
      · -- `r` takes the place of its older entry
        rename_i heq
        exact List.pairwise_cons.mpr ⟨fun e he => heq ▸ hq e he, hrest⟩
      · rename_i hlt hne
        refine List.pairwise_cons.mpr ⟨fun e he => ?_, ih hrest⟩
        rcases mem_insertEntry he with he | he
        · subst he
          simp only [Register.lt_iff, Register.eq_iff] at *
          omega
        · exact hq e he

/-- The table with `v` at `r`, in place of an older entry. -/
def insert (t : RegTable α) (r : Register) (v : α) : RegTable α :=
  ⟨insertEntry r v t.entries, sorted_insertEntry r v t.sorted⟩

/-- The table without an entry at `r`. -/
def erase (t : RegTable α) (r : Register) : RegTable α :=
  ⟨t.entries.filter (·.1 ≠ r), t.sorted.filter _⟩

/-! ## Looking up -/

theorem lookup_cons_ite (q p : Register) (w : α) (l : List (Register × α)) :
    ((p, w) :: l).lookup q = if q = p then some w else l.lookup q := by
  by_cases h : q = p
  · subst h
    simp
  · rw [List.lookup_cons, beq_eq_false_iff_ne.mpr h, if_neg h]

theorem lookup_insertEntry (r q : Register) (v : α) (l : List (Register × α)) :
    (insertEntry r v l).lookup q = if q = r then some v else l.lookup q := by
  induction l with
  | nil => exact lookup_cons_ite q r v []
  | cons p rest ih =>
    obtain ⟨p, w⟩ := p
    unfold insertEntry
    split
    · exact lookup_cons_ite q r v _
    · split
      · -- the older entry of `r` goes
        rename_i heq
        subst heq
        simp only [lookup_cons_ite]
        split <;> rfl
      · -- at most one of the two tests holds
        rename_i hne
        simp only [lookup_cons_ite, ih]
        by_cases h : q = p
        · subst h
          simp [Ne.symm hne]
        · simp [h]

@[simp] theorem get?_empty (r : Register) : (empty : RegTable α).get? r = none := rfl

theorem get?_insert (t : RegTable α) (r q : Register) (v : α) :
    (t.insert r v).get? q = if q = r then some v else t.get? q :=
  lookup_insertEntry r q v t.entries

theorem get?_erase (t : RegTable α) (r q : Register) :
    (t.erase r).get? q = if q = r then none else t.get? q := by
  obtain ⟨l, hl⟩ := t
  show (l.filter _).lookup q = if q = r then none else l.lookup q
  clear hl
  induction l with
  | nil => simp
  | cons p rest ih =>
    obtain ⟨p, w⟩ := p
    by_cases hp : p = r
    · subst hp
      rw [List.filter_cons_of_neg (by simp), ih]
      by_cases h : q = p <;> simp [lookup_cons_ite, h]
    · rw [List.filter_cons_of_pos (by simpa using hp)]
      simp only [lookup_cons_ite, ih]
      by_cases h : q = p
      · subst h
        simp [hp]
      · simp [h]

theorem get?_eq_some_iff (t : RegTable α) {r : Register} {v : α} :
    t.get? r = some v ↔ (r, v) ∈ t.entries := by
  obtain ⟨l, hl⟩ := t
  show l.lookup r = some v ↔ (r, v) ∈ l
  induction l with
  | nil => simp
  | cons p rest ih =>
    obtain ⟨q, w⟩ := p
    obtain ⟨hq, hrest⟩ := List.pairwise_cons.mp hl
    by_cases h : r = q
    · subst h
      -- an entry further on would have a register above `r`
      have hnot : ∀ u, (r, u) ∉ rest := fun u hu => by
        have := hq _ hu
        simp only [Register.lt_iff] at this
        omega
      simp only [lookup_cons_ite, if_true, List.mem_cons, Prod.mk.injEq, true_and]
      exact ⟨fun he => Or.inl (Option.some.inj he).symm,
        fun he => he.elim (fun he => he ▸ rfl) fun he => absurd he (hnot v)⟩
    · simp [lookup_cons_ite, h, ih hrest]

end RegTable

end ReachingDefs
