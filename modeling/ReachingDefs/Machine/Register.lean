/-!
# Registers

A register is a number from 0 to 255. The numbers 0 to 30 are the general
purpose registers; the stack pointer, the zero register, the condition flags and
the thread pointer follow them. The remaining numbers are free.
-/

namespace ReachingDefs

/-- A machine register, named by its number. -/
structure Register where
  id : UInt8
deriving DecidableEq

namespace Register

/-- The frame pointer, `x29`. -/
def fp : Register := ⟨29⟩

/-- The link register, `x30`: where a call leaves its return address. -/
def lr : Register := ⟨30⟩

/-- The stack pointer. -/
def sp : Register := ⟨31⟩

/-- The zero register: it reads as zero, and writes to it are lost. -/
def xzr : Register := ⟨32⟩

/-- The condition flags. -/
def nzcv : Register := ⟨33⟩

/-- The thread pointer, a system register. -/
def tpidr : Register := ⟨34⟩

/-- The registers that pass arguments to a call, `x0` to `x7`. -/
def arguments : List Register := [⟨0⟩, ⟨1⟩, ⟨2⟩, ⟨3⟩, ⟨4⟩, ⟨5⟩, ⟨6⟩, ⟨7⟩]

/-- Registers are ordered by number. -/
instance : LT Register := ⟨fun a b => a.id < b.id⟩

instance (a b : Register) : Decidable (a < b) :=
  inferInstanceAs (Decidable (a.id < b.id))

theorem lt_iff {a b : Register} : a < b ↔ a.id.toNat < b.id.toNat :=
  UInt8.lt_iff_toNat_lt

theorem eq_iff {a b : Register} : a = b ↔ a.id.toNat = b.id.toNat := by
  cases a; cases b; simp [← UInt8.toNat_inj]

/-- Is this the zero register? -/
def isZero (r : Register) : Bool := r = xzr

/-- Is this one of `x0` to `x30`? -/
def isGeneral (r : Register) : Bool := r.id ≤ 30

/-- Is this a system register? -/
def isSystem (r : Register) : Bool := r = tpidr

/-- The register as assembly text writes it. -/
def name (r : Register) : String :=
  if r = fp then "fp"
  else if r = lr then "lr"
  else if r = sp then "sp"
  else if r = xzr then "xzr"
  else if r = nzcv then "nzcv"
  else if r = tpidr then "tpidr_el0"
  else "x" ++ r.id.toNat.repr

end Register

end ReachingDefs
