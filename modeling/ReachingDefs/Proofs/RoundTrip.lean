import Mathlib.Data.List.Forall2
import Mathlib.Data.List.Nodup
import ReachingDefs.Format.Options

/-!
# Reading undoes writing

A value may be written in several forms: a structure is an object or the array of its fields,
and each structure within a structure is either again. A `Format` says which forms a value has.
Writing picks one of them, and reading has to take them all.

Two things could go wrong where formats are put together. A value that may be missing is written
as null if it is, so no other form of it may be null; and constants are read by name, so no two of
them may have one name. The rest is that each number is read over the whole range of its type.
-/

namespace ReachingDefs

namespace Json

variable {α : Type}

/-! ## Formats -/

/-- How values are written and read. -/
structure Format (α : Type) where
  write : α → Json
  read? : Json → Option α
  /-- The forms that stand for a value. -/
  Form : α → Json → Prop := fun a j => j = write a
  /-- The values that have a form. -/
  Fits : α → Prop := fun _ => True

/-- Nothing is lost by writing, whichever form is taken. -/
structure Format.Faithful (F : Format α) : Prop where
  write : ∀ a, F.Fits a → F.Form a (F.write a)
  read : ∀ a j, F.Fits a → F.Form a j → F.read? j = some a
  injective : ∀ a b, F.Fits a → F.Fits b → F.write a = F.write b → a = b
  /-- What is read from any input at all can be written, and is then read again. -/
  canonical : ∀ j a, F.read? j = some a → F.Fits a ∧ F.read? (F.write a) = some a

/-- What a format has to provide, also for use in other formats. -/
structure Format.Sound (F : Format α) : Prop where
  write : ∀ a, F.Fits a → F.Form a (F.write a)
  read : ∀ a j, F.Fits a → F.Form a j → F.read? j = some a
  fits : ∀ j a, F.read? j = some a → F.Fits a
  /-- Null is left for values that are missing. -/
  ne_null : ∀ a j, F.Form a j → j ≠ null

theorem Format.Sound.faithful {F : Format α} (h : F.Sound) : F.Faithful where
  write := h.write
  read := h.read
  injective a b ha hb hab := by
    have hread := h.read a _ ha (h.write a ha)
    rw [hab, h.read b _ hb (h.write b hb)] at hread
    exact (Option.some.inj hread).symm
  canonical j a hj := by
    have ha := h.fits j a hj
    exact ⟨ha, h.read a _ ha (h.write a ha)⟩

/-- Where a value has but one form. -/
theorem Format.sound_of_read {write : α → Json} {read? : Json → Option α}
    (hread : ∀ a, read? (write a) = some a) (hnull : ∀ a, write a ≠ null) :
    Format.Sound { write, read? } where
  write _ _ := rfl
  read a _ _ h := h ▸ hread a
  fits _ _ _ := trivial
  ne_null a _ h := h ▸ hnull a

/-! ## Numbers -/

theorem intIn?_int {lo hi n : Int} (hlo : lo ≤ n) (hhi : n < hi) :
    (int n).intIn? lo hi = some n :=
  if_pos ⟨hlo, hhi⟩

theorem natBelow?_nat {bound n : Nat} (h : n < bound) : (nat n).natBelow? bound = some n := by
  unfold natBelow? nat
  rw [intIn?_int (Int.natCast_nonneg n) (Int.ofNat_lt.mpr h)]
  rfl

theorem lt_of_natBelow? {bound n : Nat} {j : Json} (h : j.natBelow? bound = some n) :
    n < bound := by
  obtain ⟨k, hk, rfl⟩ := Option.map_eq_some_iff.mp h
  unfold intIn? at hk
  split at hk
  · split at hk
    · rename_i hrange
      cases hk
      omega
    · cases hk
  · cases hk

@[simp]
theorem uint8?_nat (n : UInt8) : (nat n.toNat).uint8? = some n := by
  simp [uint8?, natBelow?_nat n.toNat_lt_size]

@[simp]
theorem uint32?_nat (n : UInt32) : (nat n.toNat).uint32? = some n := by
  simp [uint32?, natBelow?_nat n.toNat_lt_size]

theorem nat64?_nat {n : Nat} (h : n < UInt64.size) : (nat n).nat64? = some n :=
  natBelow?_nat h

@[simp]
theorem uint64?_nat (n : UInt64) : (nat n.toNat).uint64? = some n := by
  simp [uint64?, nat64?_nat n.toNat_lt_size]

@[simp]
theorem int64?_int (n : Int64) : (int n.toInt).int64? = some n := by
  unfold int64?
  rw [intIn?_int n.minValue_le_toInt (Int.lt_add_one_of_le n.toInt_le)]
  simp

/-! ## Lists, absent values and constants -/

theorem default?_of_some {value : Json → Option α} {default a : α} {j : Json}
    (h : value j = some a) : Json.default? value default (some j) = some a :=
  h

/-- The forms of a value that may be missing. -/
inductive Format.OptionForm (F : Format α) : Option α → Json → Prop where
  | none : F.OptionForm none null
  | some {a : α} {j : Json} : F.Form a j → F.OptionForm (some a) j

variable {F : Format α}

theorem Format.Sound.optional? (hF : F.Sound) (hfits : ∀ a, F.Fits a) {o : Option α} {j : Json}
    (h : F.OptionForm o j) : Json.optional? F.read? (some j) = some o := by
  cases h with
  | none => rfl
  | @some a j h =>
      have hread := hF.read a j (hfits a) h
      cases j with
      | null => exact absurd rfl (hF.ne_null a null h)
      | _ => simp [Json.optional?, hread]

theorem Format.Sound.ofOption (hF : F.Sound) (hfits : ∀ a, F.Fits a) (o : Option α) :
    F.OptionForm o (Json.ofOption F.write o) := by
  cases o with
  | none => exact .none
  | some a => exact .some (hF.write a (hfits a))

theorem Format.Sound.list? (hF : F.Sound) (hfits : ∀ a, F.Fits a) {as : List α} {js : List Json}
    (h : List.Forall₂ F.Form as js) : Json.list? F.read? (arr js) = some as := by
  change js.mapM F.read? = some as
  induction h with
  | nil => rfl
  | @cons a j as js hj _ ih => simp [List.mapM_cons, hF.read a j (hfits a) hj, ih]

theorem Format.Sound.list (hF : F.Sound) (hfits : ∀ a, F.Fits a) (as : List α) :
    List.Forall₂ F.Form as (as.map F.write) := by
  induction as with
  | nil => exact .nil
  | cons a as ih => exact .cons (hF.write a (hfits a)) ih

/-- A constant is found under its name. -/
theorem constant?_str {name : α → String} {all : List α} {a : α} (ha : a ∈ all)
    (hnames : (all.map name).Nodup) : (str (name a)).constant? name all = some a := by
  change all.find? (name · = name a) = some a
  induction all with
  | nil => exact absurd ha List.not_mem_nil
  | cons b all ih =>
      obtain ⟨hb, hnames⟩ := List.nodup_cons.mp hnames
      by_cases hab : name b = name a
      · -- the search ends here, so `b` must be `a`
        rcases List.mem_cons.mp ha with rfl | ha
        · simp
        · exact absurd (List.mem_map.mpr ⟨a, ha, hab.symm⟩) hb
      · have ha : a ∈ all := (List.mem_cons.mp ha).resolve_left fun h => hab (h ▸ rfl)
        simpa [hab] using ih ha hnames

/-! ## Structures -/

/-- The two forms of a structure. An object may have its fields in any order, and further ones. -/
inductive Presents (names : List String) (values : List Json) : Json → Prop where
  | object {fields : List (String × Json)} :
      names.map (fields.lookup ·) = values.map some → Presents names values (obj fields)
  | array : values.length = names.length → Presents names values (arr values)

variable {names : List String} {values : List Json} {j : Json}

theorem Presents.members? (h : Presents names values j) :
    j.members? names = some (values.map some) := by
  cases h with
  | object h => exact congrArg some h
  | array h => simp [Json.members?, h]

theorem Presents.leadingMembers? (h : Presents names values j) :
    j.leadingMembers? names = some (values.map some) := by
  cases h with
  | object h => exact congrArg some h
  | array h => simp [Json.leadingMembers?, h]

theorem Presents.ne_null (h : Presents names values j) : j ≠ null := by
  cases h <;> nofun

end Json

open Json (Format Presents)

/-! ## Registers, opcodes and other constants -/

@[simp]
theorem Register.ofJson?_toJson (r : Register) : ofJson? r.toJson = some r := by
  simp [ofJson?, toJson]

def Opcode.format : Format Opcode where
  write := toJson
  read? := ofJson?

@[simp]
theorem Opcode.ofJson?_toJson (o : Opcode) : ofJson? o.toJson = some o := by
  have hnames : (known.map name).Nodup := by decide
  cases o with
  | other id => simp [ofJson?, toJson, Json.variant?]
  | _ =>
      -- none of the names is "other", so they are all looked up
      exact Json.constant?_str (by decide) hnames

theorem Opcode.sound : Opcode.format.Sound :=
  Format.sound_of_read ofJson?_toJson fun o => by cases o <;> nofun

def Condition.format : Format Condition where
  write := toJson
  read? := ofJson?

@[simp]
theorem Condition.ofJson?_toJson (c : Condition) : ofJson? c.toJson = some c :=
  Json.constant?_str (by cases c <;> decide) (by decide)

theorem Condition.sound : Condition.format.Sound :=
  Format.sound_of_read ofJson?_toJson fun _ => nofun

def ShiftKind.format : Format ShiftKind where
  write := toJson
  read? := ofJson?

@[simp]
theorem ShiftKind.ofJson?_toJson (k : ShiftKind) : ofJson? k.toJson = some k :=
  Json.constant?_str (by cases k <;> decide) (by decide)

theorem ShiftKind.sound : ShiftKind.format.Sound :=
  Format.sound_of_read ofJson?_toJson fun _ => nofun

def Tracking.format : Format Tracking where
  write := toJson
  read? := ofJson?

@[simp]
theorem Tracking.ofJson?_toJson (t : Tracking) : ofJson? t.toJson = some t :=
  Json.constant?_str (by cases t <;> decide) (by decide)

theorem Tracking.sound : Tracking.format.Sound :=
  Format.sound_of_read ofJson?_toJson fun _ => nofun

def Writeback.format : Format Writeback where
  write := toJson
  read? := ofJson?

@[simp]
theorem Writeback.ofJson?_toJson (w : Writeback) : ofJson? w.toJson = some w := by
  cases w with
  | none => rfl
  | preIndex => rfl
  | postIndex amount => simp [ofJson?, toJson, Json.variant?]

theorem Writeback.sound : Writeback.format.Sound :=
  Format.sound_of_read ofJson?_toJson fun w => by cases w <;> nofun

/-! ## Operands -/

def Shift.format : Format Shift where
  write := toJson
  read? := ofJson?
  Form s := Presents ["kind", "amount"] [s.kind.toJson, .nat s.amount.toNat]

theorem Shift.sound : Shift.format.Sound where
  write _ _ := .object rfl
  read s j _ h := by
    change ofJson? j = some s
    unfold ofJson?
    rw [h.members?]
    simp
  fits _ _ _ := trivial
  ne_null _ _ h := h.ne_null

/-- An index is an array in any case, but its shift is a structure. -/
def MemOperand.indexFormat : Format (Register × Option Shift) where
  write := indexToJson
  read? := indexOfJson?
  Form i j := ∃ shift, Shift.format.OptionForm i.2 shift ∧ j = .arr [i.1.toJson, shift]

theorem MemOperand.index_sound : MemOperand.indexFormat.Sound where
  write i _ := ⟨_, Shift.sound.ofOption (fun _ => trivial) i.2, rfl⟩
  read i j _ h := by
    obtain ⟨shift, hshift, rfl⟩ := h
    have hshift : Json.optional? Shift.ofJson? (some shift) = some i.2 :=
      Shift.sound.optional? (fun _ => trivial) hshift
    simp [indexFormat, indexOfJson?, hshift]
  fits _ _ _ := trivial
  ne_null i j h := by
    obtain ⟨shift, _, rfl⟩ := h
    nofun

def MemOperand.format : Format MemOperand where
  write := toJson
  read? := ofJson?
  Form m j := ∃ index, indexFormat.OptionForm m.index index ∧
    Presents ["base", "index", "disp"] [m.base.toJson, index, .int m.disp.toInt] j

theorem MemOperand.sound : MemOperand.format.Sound where
  write m _ := ⟨_, index_sound.ofOption (fun _ => trivial) m.index, .object rfl⟩
  read m j _ h := by
    obtain ⟨index, hindex, h⟩ := h
    have hindex : Json.optional? indexOfJson? (some index) = some m.index :=
      index_sound.optional? (fun _ => trivial) hindex
    change ofJson? j = some m
    unfold ofJson?
    rw [h.members?]
    simp [hindex]
  fits _ _ _ := trivial
  ne_null m j h := by
    obtain ⟨_, _, h⟩ := h
    exact h.ne_null

/-- The register forms are objects only; the structures within them are not. -/
def Operand.Form : Operand → Json → Prop
  | shifted r width shift, j => ∃ s, Shift.format.Form shift s ∧
      j = .obj [("Shifted",
        .obj [("reg", r.toJson), ("width", .nat width.toNat), ("shift", s)])]
  | mem m, j => ∃ s, MemOperand.format.Form m s ∧ j = .obj [("Mem", s)]
  | x, j => j = x.toJson

def Operand.format : Format Operand where
  write := toJson
  read? := ofJson?
  Form := Form

theorem Operand.sound : Operand.format.Sound where
  write x _ := by
    cases x with
    | shifted r width shift => exact ⟨_, Shift.sound.write shift trivial, rfl⟩
    | mem m => exact ⟨_, MemOperand.sound.write m trivial, rfl⟩
    | _ => rfl
  read x j _ h := by
    change ofJson? j = some x
    cases x with
    | reg r width =>
        obtain rfl : j = toJson (reg r width) := h
        simp [ofJson?, toJson, Json.variant?, List.lookup_cons]
    | imm n =>
        obtain rfl : j = toJson (imm n) := h
        simp [ofJson?, toJson, Json.variant?]
    | shifted r width shift =>
        obtain ⟨s, hs, rfl⟩ := h
        have hs : Shift.ofJson? s = some shift := Shift.sound.read shift s trivial hs
        simp [ofJson?, Json.variant?, hs, List.lookup_cons]
    | mem m =>
        obtain ⟨s, hs, rfl⟩ := h
        have hs : MemOperand.ofJson? s = some m := MemOperand.sound.read m s trivial hs
        simp [ofJson?, Json.variant?, hs]
    | sys r =>
        obtain rfl : j = toJson (sys r) := h
        simp [ofJson?, toJson, Json.variant?]
  fits _ _ _ := trivial
  ne_null x j h := by
    cases x with
    | shifted r width shift =>
        obtain ⟨_, _, rfl⟩ := h
        nofun
    | mem m =>
        obtain ⟨_, _, rfl⟩ := h
        nofun
    | reg | imm | sys => exact h ▸ nofun

/-! ## Instructions and options -/

def Operation.format : Format Operation where
  write := toJson
  read? := ofJson?
  Form o j := ∃ operands, List.Forall₂ Operand.format.Form o.operands operands ∧
    Presents ["opcode", "operands", "cond", "writeback"]
      [o.opcode.toJson, .arr operands, .ofOption Condition.toJson o.cond, o.writeback.toJson] j

theorem Operation.sound : Operation.format.Sound where
  write o _ := ⟨_, Operand.sound.list (fun _ => trivial) o.operands, .object rfl⟩
  read o j _ h := by
    obtain ⟨operands, hoperands, h⟩ := h
    have hoperands : Json.list? Operand.ofJson? (.arr operands) = some o.operands :=
      Operand.sound.list? (fun _ => trivial) hoperands
    have hcond : Json.optional? Condition.ofJson? (some (.ofOption Condition.toJson o.cond)) =
        some o.cond :=
      Condition.sound.optional? (fun _ => trivial)
        (Condition.sound.ofOption (fun _ => trivial) o.cond)
    change ofJson? j = some o
    unfold ofJson?
    rw [h.members?]
    simp [hoperands, hcond]
  fits _ _ _ := trivial
  ne_null o j h := by
    obtain ⟨_, _, h⟩ := h
    exact h.ne_null

def Instruction.format : Format Instruction where
  write := toJson
  read? := ofJson?
  Form i j := ∃ operation, Operation.format.OptionForm i.operation operation ∧
    Presents ["address", "size", "assembly"]
      [.nat i.address.toNat, .nat i.size.toNat, operation] j

theorem Instruction.sound : Instruction.format.Sound where
  write i _ := ⟨_, Operation.sound.ofOption (fun _ => trivial) i.operation, .object rfl⟩
  read i j _ h := by
    obtain ⟨operation, hoperation, h⟩ := h
    have hoperation : Json.optional? Operation.ofJson? (some operation) = some i.operation :=
      Operation.sound.optional? (fun _ => trivial) hoperation
    change ofJson? j = some i
    unfold ofJson?
    rw [h.members?]
    simp [hoperation]
  fits _ _ _ := trivial
  ne_null i j h := by
    obtain ⟨_, _, h⟩ := h
    exact h.ne_null

/-- The level is written as a number of 64 bits. -/
def Options.format : Format Options where
  write := toJson
  read? := ofJson?
  Form o := Presents ["level", "state_kind", "enabled"]
    [.nat o.level, o.tracking.toJson, .arr (o.enabled.map Opcode.toJson)]
  Fits o := o.level < UInt64.size

/-- Whatever is read has a level of 64 bits, also where the level is left out. -/
theorem Options.level_lt_of_ofJson? {j : Json} {o : Options} (h : ofJson? j = some o) :
    o.level < UInt64.size := by
  unfold ofJson? at h
  split at h
  · rename_i level tracking enabled _
    obtain ⟨n, hn, h⟩ := Option.bind_eq_some_iff.mp h
    obtain ⟨t, _, h⟩ := Option.bind_eq_some_iff.mp h
    obtain ⟨e, _, h⟩ := Option.bind_eq_some_iff.mp h
    obtain rfl := Option.some.inj h
    cases level with
    | none =>
        obtain rfl := Option.some.inj hn
        show 16 < UInt64.size
        decide
    | some level => exact Json.lt_of_natBelow? hn
  · cases h

theorem Options.ofJson?_form {o : Options} {j : Json} (hlevel : o.level < UInt64.size)
    (h : Options.format.Form o j) : ofJson? j = some o := by
  have hlevel := Json.nat64?_nat hlevel
  have htracking := Tracking.ofJson?_toJson o.tracking
  have henabled : Json.list? Opcode.ofJson? (.arr (o.enabled.map Opcode.toJson)) =
      some o.enabled :=
    Opcode.sound.list? (fun _ => trivial) (Opcode.sound.list (fun _ => trivial) o.enabled)
  unfold ofJson?
  rw [h.leadingMembers?]
  simp [Json.default?_of_some hlevel, Json.default?_of_some htracking,
    Json.default?_of_some henabled]

theorem Options.sound : Options.format.Sound where
  write o _ := .object (by rfl)
  read _ _ := ofJson?_form
  fits _ _ := level_lt_of_ofJson?
  ne_null _ _ h := h.ne_null

/-- **Reading undoes writing**, for everything that is written and in each of its forms. -/
theorem formats_faithful :
    Opcode.format.Faithful ∧ Condition.format.Faithful ∧ ShiftKind.format.Faithful ∧
      Shift.format.Faithful ∧ MemOperand.format.Faithful ∧ Writeback.format.Faithful ∧
      Operand.format.Faithful ∧ Operation.format.Faithful ∧ Instruction.format.Faithful ∧
      Tracking.format.Faithful ∧ Options.format.Faithful :=
  ⟨Opcode.sound.faithful, Condition.sound.faithful, ShiftKind.sound.faithful,
    Shift.sound.faithful, MemOperand.sound.faithful, Writeback.sound.faithful,
    Operand.sound.faithful, Operation.sound.faithful, Instruction.sound.faithful,
    Tracking.sound.faithful, Options.sound.faithful⟩

/-- The load `ldr x0, [x1, x2, lsl #3]` with an array for each of its structures. -/
example :
    Instruction.ofJson?
        (.arr [.int 256, .int 4,
          .arr [.str "ldr",
            .arr [.obj [("Reg", .obj [("reg", .int 0), ("width", .int 8)])],
              .obj [("Mem", .arr [.int 1, .arr [.int 2, .arr [.str "lsl", .int 3]], .int 0])]],
            .null, .str "None"]]) =
      some (.decoded 256
        { opcode := .ldr, operands := [.x ⟨0⟩, .indexed ⟨1⟩ ⟨2⟩ (some ⟨.lsl, 3⟩)] }) := by
  decide

end ReachingDefs
