/-!
# Lists as sets in order of first insertion

Origins, edges and uses are sets whose listing order is visible: an element
keeps the place of its first insertion, and inserting it again changes nothing.
-/

namespace ReachingDefs.OrderedSet

variable {α : Type} [DecidableEq α]

/-- `xs` with `x` at its end, unless `x` is a member already. -/
def insert (xs : List α) (x : α) : List α :=
  if x ∈ xs then xs else xs ++ [x]

/-- `xs` followed by the members of `ys` that it lacks. -/
def union (xs ys : List α) : List α :=
  ys.foldl insert xs

/-- The members of `ys`, each at the place of its first occurrence. -/
def ofList (ys : List α) : List α :=
  union [] ys

@[simp] theorem mem_insert {xs : List α} {x y : α} : y ∈ insert xs x ↔ y ∈ xs ∨ y = x := by
  unfold insert
  split
  · rename_i h
    exact ⟨Or.inl, fun hy => hy.elim id fun he => he ▸ h⟩
  · simp

@[simp] theorem mem_union {xs ys : List α} {y : α} : y ∈ union xs ys ↔ y ∈ xs ∨ y ∈ ys := by
  unfold union
  induction ys generalizing xs with
  | nil => simp
  | cons z zs ih => simp [ih, or_assoc]

@[simp] theorem mem_ofList {ys : List α} {y : α} : y ∈ ofList ys ↔ y ∈ ys := by
  simp [ofList]

theorem nodup_insert {xs : List α} {x : α} (h : xs.Nodup) : (insert xs x).Nodup := by
  unfold insert
  split
  · exact h
  · rename_i hx
    rw [List.nodup_append]
    refine ⟨h, by simp, ?_⟩
    intro a ha b hb he
    simp only [List.mem_singleton] at hb
    exact hx (hb ▸ he ▸ ha)

theorem nodup_union {xs ys : List α} (h : xs.Nodup) : (union xs ys).Nodup := by
  unfold union
  induction ys generalizing xs with
  | nil => exact h
  | cons z zs ih => exact ih (nodup_insert h)

theorem nodup_ofList (ys : List α) : (ofList ys).Nodup :=
  nodup_union List.nodup_nil

end ReachingDefs.OrderedSet
