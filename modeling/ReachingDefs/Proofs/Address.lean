import ReachingDefs.Proofs.Origins

/-!
# What addresses come to

A location is a register and an offset, read off a tree without evaluating it. This file says
what it is worth. A tree of registers, constants, sums and differences has a value once every
register has one, with arithmetic that wraps at 64 bits. The trees that have a location are
those of a small grammar, and the value of such a tree is that of its location.

So two addresses with one location have one value, whatever the registers hold. The converse
holds as well: addresses with two locations are told apart by the registers all being zero,
or all but one.
-/

namespace ReachingDefs

/-- What registers hold. A register is read at a width, and nothing is said about how what is
read at two widths is related. -/
abbrev Valuation := Register → UInt8 → Int64

namespace Value

/-- The value of a tree of registers, constants, sums and differences; none for all others. -/
def eval? (env : Valuation) : Value → Option Int64
  | reg r width => some (env r width)
  | const n => some n
  | binary .add left right => do return (← left.eval? env) + (← right.eval? env)
  | binary .sub left right => do return (← left.eval? env) - (← right.eval? env)
  | _ => none

/-- The trees of a register with constants added on either side and subtracted. -/
inductive IsAddress : Value → Prop where
  | reg (r : Register) (width : UInt8) : IsAddress (reg r width)
  | addConst {v : Value} (n : Int64) : IsAddress v → IsAddress (binary .add v (const n))
  | constAdd {v : Value} (n : Int64) : IsAddress v → IsAddress (binary .add (const n) v)
  | subConst {v : Value} (n : Int64) : IsAddress v → IsAddress (binary .sub v (const n))

/-- A constant is no address, so it does not matter on which side of a sum one is looked for
first. -/
theorem location?_constAdd {v : Value} (hv : v.IsAddress) (n : Int64) :
    (binary .add (const n) v).location? = v.location?.map (·.forward n) := by
  cases hv <;> rfl

/-- **The trees with a location are those of the grammar.** -/
theorem isSome_location?_iff {v : Value} : v.location?.isSome = true ↔ v.IsAddress := by
  constructor
  · intro h
    fun_induction location? v with
    | case1 r width => exact .reg r width
    | case2 left n ih => exact .addConst n (ih (by simpa using h))
    | case3 n right _ ih => exact .constAdd n (ih (by simpa using h))
    | case4 left n ih => exact .subConst n (ih (by simpa using h))
    | case5 => cases h
  · intro h
    induction h with
    | reg r width => rfl
    | addConst n _ ih => simpa [location?] using ih
    | constAdd n hv ih => simpa [location?_constAdd hv] using ih
    | subConst n _ ih => simpa [location?] using ih

/-- **A tree has the value of its location**, whatever the registers hold. -/
theorem eval?_of_location? {v : Value} {l : Location} (h : v.location? = some l)
    (env : Valuation) : v.eval? env = some (env l.base l.width + l.offset) := by
  fun_induction location? v generalizing l with
  | case1 r width =>
      obtain rfl := Option.some.inj h
      simp [eval?]
  | case2 left n ih =>
      obtain ⟨k, hk, rfl⟩ := Option.map_eq_some_iff.mp h
      simp [eval?, ih hk, Location.forward, Int64.add_assoc]
  | case3 n right _ ih =>
      obtain ⟨k, hk, rfl⟩ := Option.map_eq_some_iff.mp h
      simp [eval?, ih hk, Location.forward, Int64.add_comm n, Int64.add_assoc]
  | case4 left n ih =>
      obtain ⟨k, hk, rfl⟩ := Option.map_eq_some_iff.mp h
      simp [eval?, ih hk, Location.back, Int64.sub_eq_add_neg, Int64.add_assoc]
  | case5 => cases h

end Value

/-- Locations that have one value whatever the registers hold are one location. -/
theorem Location.eq_of_values {l m : Location}
    (h : ∀ env : Valuation, env l.base l.width + l.offset = env m.base m.width + m.offset) :
    l = m := by
  -- with all registers zero the offsets show, and with the base of `l` one its register
  have hoffset : l.offset = m.offset := by simpa using h fun _ _ => 0
  have hone := h fun r width => if r = l.base ∧ width = l.width then 1 else 0
  rw [hoffset, Int64.add_left_inj] at hone
  by_cases hm : m.base = l.base ∧ m.width = l.width
  · obtain ⟨lb, lw, lo⟩ := l
    obtain ⟨mb, mw, mo⟩ := m
    simp_all
  · simp [hm] at hone

namespace Value

/-- **Two addresses with a location have the same one exactly if no values of the registers
tell them apart.** -/
theorem sameLocation_iff_eval? {a b : Value} {l m : Location} (ha : a.location? = some l)
    (hb : b.location? = some m) :
    a.sameLocation b = true ↔ ∀ env, a.eval? env = b.eval? env := by
  rw [MemOrigins.sameLocation_iff, ha, hb]
  simp only [eval?_of_location? ha, eval?_of_location? hb, Option.some.injEq]
  constructor
  · rintro ⟨k, rfl, rfl⟩ env
    rfl
  · intro h
    exact ⟨l, rfl, (Location.eq_of_values h).symm⟩

theorem sameLocation_of_none {a : Value} (h : a.location? = none) (b : Value) :
    a.sameLocation b = false := by
  unfold sameLocation
  rw [h]

theorem sameLocation_comm (a b : Value) : a.sameLocation b = b.sameLocation a := by
  rw [Bool.eq_iff_iff, MemOrigins.sameLocation_iff, MemOrigins.sameLocation_iff]
  exact exists_congr fun l => and_comm

theorem sameLocation_trans {a b c : Value} (hab : a.sameLocation b = true)
    (hbc : b.sameLocation c = true) : a.sameLocation c = true := by
  rw [MemOrigins.sameLocation_iff] at *
  obtain ⟨l, ha, hb⟩ := hab
  obtain ⟨m, hb', hc⟩ := hbc
  obtain rfl : l = m := Option.some.inj (hb.symm.trans hb')
  exact ⟨l, ha, hc⟩

theorem sameLocation_self_iff {a : Value} : a.sameLocation a = true ↔ a.location?.isSome = true := by
  rw [MemOrigins.sameLocation_iff, Option.isSome_iff_exists]
  exact exists_congr fun l => and_self_iff

/-- **Sharing a location is having the same value.** A tree has a location exactly if it is in
the grammar of addresses, and then the value of its location; of two such trees the locations
are the same exactly if the values always are. A tree without a location shares it with nothing,
so sharing is symmetric and transitive, and reflexive on the trees with a location only. -/
theorem sameLocation_means_sameValue :
    (∀ v : Value, v.location?.isSome = true ↔ v.IsAddress) ∧
    (∀ (v : Value) (l : Location), v.location? = some l →
      ∀ env, v.eval? env = some (env l.base l.width + l.offset)) ∧
    (∀ a b : Value, a.location?.isSome = true → b.location?.isSome = true →
      (a.sameLocation b = true ↔ ∀ env, a.eval? env = b.eval? env)) ∧
    (∀ a b : Value, a.location? = none → a.sameLocation b = false ∧ b.sameLocation a = false) ∧
    (∀ a b : Value, a.sameLocation b = b.sameLocation a) ∧
    (∀ a b c : Value, a.sameLocation b = true → b.sameLocation c = true →
      a.sameLocation c = true) ∧
    ∀ a : Value, a.sameLocation a = true ↔ a.location?.isSome = true := by
  refine ⟨fun v => isSome_location?_iff, fun v l h env => eval?_of_location? h env, ?_, ?_,
    sameLocation_comm, fun a b c => sameLocation_trans, fun a => sameLocation_self_iff⟩
  · intro a b ha hb
    obtain ⟨l, hl⟩ := Option.isSome_iff_exists.mp ha
    obtain ⟨m, hm⟩ := Option.isSome_iff_exists.mp hb
    exact sameLocation_iff_eval? hl hm
  · intro a b h
    exact ⟨sameLocation_of_none h b, (sameLocation_comm b a).trans (sameLocation_of_none h b)⟩

/-- `x1` with the largest constant added, and then one more. -/
def overflowing : Value := binary .add (binary .add (reg ⟨1⟩ 8) (const Int64.maxValue)) (const 1)

/-- The smallest constant with `x1` added. -/
def flipped : Value := binary .add (const Int64.minValue) (reg ⟨1⟩ 8)

/-- `x1` with the smallest constant subtracted. -/
def lowered : Value := binary .sub (reg ⟨1⟩ 8) (const Int64.minValue)

/-- Offsets wrap, so the three are one address; the 32-bit view of `x1` makes another one, and
an index none at all. -/
theorem sameLocation_means_sameValue_overflowing :
    overflowing.IsAddress ∧
    (∀ env, overflowing.eval? env = some (env ⟨1⟩ 8 + Int64.minValue)) ∧
    (∀ env, overflowing.eval? env = flipped.eval? env) ∧
    (¬ ∀ env, overflowing.eval? env = (binary .add (reg ⟨1⟩ 4) (const Int64.minValue)).eval? env) ∧
    (binary .add (reg ⟨1⟩ 8) (reg ⟨2⟩ 8)).sameLocation (binary .add (reg ⟨1⟩ 8) (reg ⟨2⟩ 8)) =
      false ∧
    overflowing.sameLocation lowered = true := by
  obtain ⟨hgrammar, hvalue, hsame, hnone, _, htrans, _⟩ := sameLocation_means_sameValue
  refine ⟨(hgrammar _).mp (by decide), hvalue _ ⟨⟨1⟩, 8, Int64.minValue⟩ (by decide), ?_, ?_,
    (hnone _ _ (by decide)).1, htrans _ flipped _ (by decide) (by decide)⟩
  · exact (hsame _ _ (by decide) (by decide)).mp (by decide)
  · rw [← hsame _ _ (by decide) (by decide)]
    decide

end Value

end ReachingDefs
