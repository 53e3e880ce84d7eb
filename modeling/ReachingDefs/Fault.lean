/-!
# Faults

The two ways a request can be refused: it names a node that is not there, or it
brings facts that were made for a graph of another size.
-/

namespace ReachingDefs

/-- Why a request was refused. -/
inductive Fault where
  /-- A node id at or beyond the number of nodes. -/
  | nodeOutOfRange (node count : Nat)
  /-- Facts over `found` nodes where the graph has `expected`. -/
  | sizeMismatch (expected found : Nat)
deriving DecidableEq

/-- The fault in words. -/
def Fault.message : Fault → String
  | nodeOutOfRange node count =>
    "Node " ++ node.repr ++ " out of range for a graph with " ++ count.repr ++ " nodes"
  | sizeMismatch expected found =>
    "Working set tracks " ++ found.repr ++ " nodes but the graph has " ++ expected.repr

/-- Answers `a`, unless one of the ids is not below `count`; then the first such id
is the fault. -/
def Fault.unlessOutOfRange {α : Type} (count : Nat) (ids : List Nat) (a : α) : Except Fault α :=
  match ids.find? (count ≤ ·) with
  | some id => .error (.nodeOutOfRange id count)
  | none => .ok a

theorem Fault.unlessOutOfRange_eq_ok {α : Type} {count : Nat} {ids : List Nat} {a b : α} :
    unlessOutOfRange count ids a = .ok b ↔ (∀ id ∈ ids, id < count) ∧ a = b := by
  unfold unlessOutOfRange
  split
  · rename_i id h
    have hid := List.find?_some h
    have hmem := List.mem_of_find?_eq_some h
    simp only [decide_eq_true_eq] at hid
    refine ⟨fun he => by simp at he, fun he => ?_⟩
    exact absurd (he.1 id hmem) (by omega)
  · rename_i h
    simp only [List.find?_eq_none, decide_eq_true_eq, Nat.not_le] at h
    simp only [Except.ok.injEq]
    exact ⟨fun he => ⟨h, he⟩, fun he => he.2⟩

end ReachingDefs
