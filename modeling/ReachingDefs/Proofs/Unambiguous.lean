import Mathlib.Data.List.Nodup
import Mathlib.Tactic.SplitIfs
import ReachingDefs.Value.Basic

/-!
# What the text of a value tells

A value is written as a word and, unless it is a leaf, its arguments: each stands behind a
blank, and a parenthesis closes them. No word has a blank or a closing parenthesis in it, so
where a word ends shows, whatever comes after it. And a word tells the operator with its
numbers, or the leaf. By induction a text tells the value, and where it ends as well.

There is one thing that a word does not tell. The 32-bit view of a general purpose register
has a name of its own, but at all other widths a register has the same name. So two values
have one text exactly if they differ in nothing but such widths.
-/

namespace ReachingDefs

/-! ## Where words end -/

/-- Does a word end in front of this character? -/
def isStop (c : Char) : Bool := c = ' ' || c = ')'

/-- A text that no word ends in. -/
def Unbroken (s : String) : Prop := ∀ c ∈ s.toList, isStop c = false

/-- A text that a word ends in front of. -/
def Stops (s : String) : Prop := ∀ c ∈ s.toList.head?, isStop c = true

theorem Unbroken.append {s t : String} (hs : Unbroken s) (ht : Unbroken t) :
    Unbroken (s ++ t) := by
  intro c hc
  rw [String.toList_append] at hc
  exact (List.mem_append.mp hc).elim (hs c) (ht c)

theorem stops_empty : Stops "" := nofun

theorem takeWhile_unbroken_append {w s : String} (hw : Unbroken w) (hs : Stops s) :
    (w ++ s).toList.takeWhile (!isStop ·) = w.toList := by
  have hnone : s.toList.takeWhile (!isStop ·) = [] := by
    unfold Stops at hs
    cases hcs : s.toList with
    | nil => rfl
    | cons c cs => simp_all
  have hall : ∀ c ∈ w.toList, (!isStop c) = true := fun c hc => by simp [hw c hc]
  rw [String.toList_append, List.takeWhile_append_of_pos hall, hnone, List.append_nil]

/-- A word shows where it ends. -/
theorem Unbroken.append_inj {v w s t : String} (hv : Unbroken v) (hw : Unbroken w)
    (hs : Stops s) (ht : Stops t) (h : v ++ s = w ++ t) : v = w ∧ s = t := by
  obtain rfl : v = w := by
    rw [← String.toList_inj, ← takeWhile_unbroken_append hv hs, h,
      takeWhile_unbroken_append hw ht]
  exact ⟨rfl, (String.append_right_inj v).mp h⟩

/-! ## Numbers -/

theorem isStop_digitChar (d : Nat) : isStop d.digitChar = false := by
  simp [isStop, Nat.digitChar_ne]

theorem unbroken_digits {base : Nat} (hbase : 1 < base) (n : Nat) :
    Unbroken (String.ofList (Nat.toDigits base n)) := by
  intro c hc
  rw [String.toList_ofList] at hc
  induction n using Nat.strongRecOn with
  | ind n ih =>
      rw [Nat.toDigits_eq_if hbase] at hc
      split at hc
      · rw [List.mem_singleton.mp hc]
        exact isStop_digitChar n
      · rename_i hn
        rcases List.mem_append.mp hc with hc | hc
        · exact ih (n / base) (Nat.div_lt_self (by omega) hbase) hc
        · rw [List.mem_singleton.mp hc]
          exact isStop_digitChar (n % base)

theorem unbroken_repr (n : Nat) : Unbroken n.repr :=
  Nat.repr_eq_ofList_toDigits ▸ unbroken_digits (by decide) n

theorem unbroken_intRepr (n : Int) : Unbroken n.repr := by
  rw [Int.repr_eq_if]
  split
  · exact unbroken_repr n.toNat
  · exact .append (by simp [Unbroken, isStop]) (unbroken_repr _)

theorem digitChar_inj {c d : Nat} (hc : c < 16) (hd : d < 16) (h : c.digitChar = d.digitChar) :
    c = d := by
  have hall : ∀ c < 16, ∀ d < 16, Nat.digitChar c = Nat.digitChar d → c = d := by decide
  exact hall c hc d hd h

/-- In every base with digits of their own, the digits tell the number. -/
theorem digits_inj {base : Nat} (hbase : 1 < base) (hle : base ≤ 16) {m n : Nat}
    (h : Nat.toDigits base m = Nat.toDigits base n) : m = n := by
  induction m using Nat.strongRecOn generalizing n with
  | ind m ih =>
      rw [Nat.toDigits_eq_if hbase, Nat.toDigits_eq_if (n := n) hbase] at h
      split at h <;> split at h
      · rename_i hm hn
        exact digitChar_inj (by omega) (by omega) (List.singleton_inj.mp h)
      · simp [List.singleton_eq_append_iff, Nat.toDigits_ne_nil] at h
      · simp [List.append_eq_singleton_iff, Nat.toDigits_ne_nil] at h
      · rename_i hm hn
        obtain ⟨hquot, hrem⟩ := List.append_inj' h rfl
        have hquot : m / base = n / base := ih _ (Nat.div_lt_self (by omega) hbase) hquot
        have hpos : 0 < base := by omega
        have hdigit : ∀ k, k % base < 16 := fun k => Nat.lt_of_lt_of_le (Nat.mod_lt k hpos) hle
        have hrem : m % base = n % base :=
          digitChar_inj (hdigit m) (hdigit n) (List.singleton_inj.mp hrem)
        rw [← Nat.div_add_mod m base, hquot, hrem, Nat.div_add_mod]

theorem decimal_inj {m n : Nat} (h : m.repr = n.repr) : m = n := by
  rw [Nat.repr_eq_ofList_toDigits, Nat.repr_eq_ofList_toDigits] at h
  exact digits_inj (by decide) (by decide) (String.ofList_injective h)

/-- Digits do not start with a sign. -/
theorem decimal_ne_minus (n : Nat) (s : String) : n.repr ≠ "-" ++ s := by
  intro h
  have hminus : '-' ∈ n.repr.toList := by simp [h]
  rw [Nat.repr_eq_ofList_toDigits, String.toList_ofList] at hminus
  exact absurd (Nat.isDigit_of_mem_toDigits (by decide) (by decide) hminus) (by decide)

theorem signed_inj {m n : Int} (h : m.repr = n.repr) : m = n := by
  rw [Int.repr_eq_if, Int.repr_eq_if] at h
  split at h <;> split at h
  · have := decimal_inj h
    omega
  · exact absurd h (decimal_ne_minus _ _)
  · exact absurd h.symm (decimal_ne_minus _ _)
  · have := decimal_inj ((String.append_right_inj _).mp h)
    omega

/-! ## Registers -/

namespace Register

/-- The registers that are not named by their number. -/
def named : List Register := [fp, lr, sp, xzr, nzcv, tpidr]

/-- Their names. -/
def names : List String := ["fp", "lr", "sp", "xzr", "nzcv", "tpidr_el0"]

theorem map_name_named : named.map name = names := by decide

theorem name_mem_names {r : Register} (h : r ∈ named) : r.name ∈ names :=
  map_name_named ▸ List.mem_map_of_mem h

theorem name_of_not_named {r : Register} (h : r ∉ named) : r.name = "x" ++ r.id.toNat.repr := by
  simp only [named, List.mem_cons, List.not_mem_nil, or_false, not_or] at h
  simp [name, h]

/-- A number has digits only, and no other name has. -/
theorem numbered_not_mem_names (n : Nat) : "x" ++ n.repr ∉ names := by
  intro h
  have hletter : ∀ s ∈ names, ∃ c ∈ s.toList.tail, c.isDigit = false := by simp [names]
  obtain ⟨c, hc, hdigit⟩ := hletter _ h
  rw [Nat.repr_eq_ofList_toDigits] at hc
  have hc : c ∈ Nat.toDigits 10 n := by simpa using hc
  rw [Nat.isDigit_of_mem_toDigits (by decide) (by decide) hc] at hdigit
  cases hdigit

theorem name_inj {q r : Register} (h : q.name = r.name) : q = r := by
  by_cases hq : q ∈ named <;> by_cases hr : r ∈ named
  · have hnodup : (named.map name).Nodup := by decide
    exact List.inj_on_of_nodup_map hnodup hq hr h
  · rw [name_of_not_named hr] at h
    exact absurd (h ▸ name_mem_names hq) (numbered_not_mem_names _)
  · rw [name_of_not_named hq] at h
    exact absurd (h ▸ name_mem_names hr) (numbered_not_mem_names _)
  · rw [name_of_not_named hq, name_of_not_named hr, String.append_right_inj] at h
    exact eq_iff.mpr (decimal_inj h)

/-- No name is that of a 32-bit view. -/
theorem name_ne_narrow (r : Register) (n : Nat) : r.name ≠ "w" ++ n.repr := by
  by_cases hr : r ∈ named
  · intro h
    have hname := name_mem_names hr
    rw [h] at hname
    simp [names, ← String.toList_inj] at hname
  · rw [name_of_not_named hr]
    simp [← String.toList_inj]

theorem unbroken_name (r : Register) : Unbroken r.name := by
  by_cases hr : r ∈ named
  · have hall : ∀ s ∈ names, Unbroken s := by simp [names, Unbroken, isStop]
    exact hall _ (name_mem_names hr)
  · rw [name_of_not_named hr]
    exact .append (by simp [Unbroken, isStop]) (unbroken_repr _)

end Register

/-! ## Operators and conditions -/

theorem BinOp.symbol_inj {o p : BinOp} (h : o.symbol = p.symbol) : o = p := by
  cases o <;> cases p <;> simp [symbol] at h ⊢

theorem BinOp.unbroken_symbol (op : BinOp) : Unbroken op.symbol := by
  cases op <;> simp [symbol, Unbroken, isStop]

theorem BinOp.symbol_ne_of_dot (op : BinOp) {cs : List Char} (h : '.' ∈ cs) :
    op.symbol.toList ≠ cs ∧ cs ≠ op.symbol.toList := by
  have hdot : '.' ∉ op.symbol.toList := by cases op <;> simp [symbol]
  exact ⟨fun heq => hdot (heq ▸ h), fun heq => hdot (heq ▸ h)⟩

theorem Condition.name_inj {c d : Condition} (h : c.name = d.name) : c = d := by
  have hnodup : (all.map name).Nodup := by decide
  have hall : ∀ c, c ∈ all := fun c => by cases c <;> decide
  exact List.inj_on_of_nodup_map hnodup (hall c) (hall d) h

theorem Condition.unbroken_name (c : Condition) : Unbroken c.name := by
  cases c <;> simp [name, Unbroken, isStop]

namespace Value

/-! ## Words and arguments -/

/-- The width that a register leaf shows: 4 for the 32-bit view of a general purpose register,
and else 8, whatever it is. -/
def shownWidth (r : Register) (width : UInt8) : UInt8 :=
  if width = 4 ∧ r.isGeneral then 4 else 8

/-- The value as its text shows it: every register leaf has the width that it shows. -/
def shown : Value → Value
  | reg r width => reg r (shownWidth r width)
  | const n => const n
  | addr a => addr a
  | undef => undef
  | deref place width => deref place.shown width
  | sext v bits => sext v.shown bits
  | zext v bits => zext v.shown bits
  | binary op left right => binary op left.shown right.shown
  | select cond yes no => select cond yes.shown no.shown

/-- The name of a register at a width. -/
def viewName (r : Register) (width : UInt8) : String :=
  if width = 4 ∧ r.isGeneral then "w" ++ r.id.toNat.repr else r.name

/-- The word that a value starts with: a leaf, or an operator with its numbers. -/
def word : Value → String
  | reg r width => "%" ++ viewName r width
  | const n => "#" ++ n.toInt.repr
  | addr a => hexText a
  | undef => "undef"
  | deref _ width => "(deref." ++ width.toNat.repr
  | sext _ bits => "(sext." ++ bits.toNat.repr
  | zext _ bits => "(zext." ++ bits.toNat.repr
  | binary op _ _ => "(" ++ op.symbol
  | select cond _ _ => "(select." ++ cond.name

/-- The values that an operator is applied to. -/
def args : Value → List Value
  | deref place _ => [place]
  | sext v _ | zext v _ => [v]
  | binary _ left right => [left, right]
  | select _ yes no => [yes, no]
  | _ => []

/-- Arguments, with what closes them. -/
def argsText : List Value → String
  | [] => ")"
  | v :: vs => " " ++ v.text ++ argsText vs

/-- What a value writes behind its word. -/
def tail (v : Value) : String := if v.args.isEmpty then "" else argsText v.args

theorem regText_eq (r : Register) (width : UInt8) : regText r width = "%" ++ viewName r width := by
  unfold regText viewName
  split <;> simp [← String.toList_inj]

/-- A text is a word and what is behind it. -/
theorem text_eq (v : Value) : v.text = v.word ++ v.tail := by
  cases v with
  | reg r width => simp [text, word, tail, args, regText_eq]
  | _ => simp [text, word, tail, args, argsText, String.append_assoc]

theorem stops_argsText (vs : List Value) (s : String) : Stops (argsText vs ++ s) := by
  cases vs <;> simp [Stops, argsText, isStop]

theorem stops_tail (v : Value) {s : String} (hs : Stops s) : Stops (v.tail ++ s) := by
  unfold tail
  split
  · simpa using hs
  · exact stops_argsText v.args s

theorem unbroken_viewName (r : Register) (width : UInt8) : Unbroken (viewName r width) := by
  unfold viewName
  split
  · exact .append (by simp [Unbroken, isStop]) (unbroken_repr _)
  · exact r.unbroken_name

theorem unbroken_word (v : Value) : Unbroken v.word := by
  cases v with
  | reg r width => exact .append (by simp [Unbroken, isStop]) (unbroken_viewName r width)
  | const n => exact .append (by simp [Unbroken, isStop]) (unbroken_intRepr n.toInt)
  | addr a => exact .append (by simp [Unbroken, isStop]) (unbroken_digits (by decide) a.toNat)
  | undef => simp [word, Unbroken, isStop]
  | deref place width => exact .append (by simp [Unbroken, isStop]) (unbroken_repr width.toNat)
  | sext v bits => exact .append (by simp [Unbroken, isStop]) (unbroken_repr bits.toNat)
  | zext v bits => exact .append (by simp [Unbroken, isStop]) (unbroken_repr bits.toNat)
  | binary op left right => exact .append (by simp [Unbroken, isStop]) op.unbroken_symbol
  | select cond yes no => exact .append (by simp [Unbroken, isStop]) cond.unbroken_name

/-! ## A word tells what it starts -/

theorem viewName_inj {q r : Register} {v w : UInt8} (h : viewName q v = viewName r w) :
    q = r ∧ shownWidth q v = shownWidth r w := by
  unfold viewName at h
  unfold shownWidth
  split_ifs at h ⊢ with hq hr hr
  · exact ⟨Register.eq_iff.mpr (decimal_inj ((String.append_right_inj _).mp h)), rfl⟩
  · exact absurd h.symm (r.name_ne_narrow _)
  · exact absurd h (q.name_ne_narrow _)
  · exact ⟨Register.name_inj h, rfl⟩

theorem hexText_inj {a b : UInt64} (h : hexText a = hexText b) : a = b := by
  have h := String.ofList_injective ((String.append_right_inj _).mp h)
  exact UInt64.toNat_inj.mp (digits_inj (by decide) (by decide) h)

/-- Two values with one word differ in their arguments only. -/
theorem shown_eq_of_word {a b : Value} (h : a.word = b.word) :
    a.args.isEmpty = b.args.isEmpty ∧
      (a.args.map shown = b.args.map shown → a.shown = b.shown) := by
  have hchars : a.word.toList = b.word.toList := congrArg String.toList h
  cases a <;> cases b
  case reg.reg q v r w =>
      obtain ⟨rfl, hwidth⟩ := viewName_inj ((String.append_right_inj _).mp h)
      simp [args, shown, hwidth]
  case const.const m n =>
      obtain rfl : m = n := Int64.toInt_inj.mp (signed_inj ((String.append_right_inj _).mp h))
      simp
  case addr.addr a b =>
      obtain rfl := hexText_inj h
      simp
  case undef.undef => simp
  case deref.deref v m w n | sext.sext v m w n | zext.zext v m w n =>
      obtain rfl : m = n := UInt8.toNat_inj.mp (decimal_inj ((String.append_right_inj _).mp h))
      simp [args, shown]
  case binary.binary op left right op' left' right' =>
      obtain rfl := BinOp.symbol_inj ((String.append_right_inj _).mp h)
      simp [args, shown]
  case select.select cond yes no cond' yes' no' =>
      obtain rfl := Condition.name_inj ((String.append_right_inj _).mp h)
      simp [args, shown]
  -- of two different kinds the first characters differ, or but one has a dot
  all_goals simp [word, hexText, BinOp.symbol_ne_of_dot] at hchars

/-! ## A text tells its value -/

/-- What holds of a value if it holds of its arguments holds of all values. -/
theorem args_induction {motive : Value → Prop}
    (step : ∀ v, (∀ a ∈ v.args, motive a) → motive v) (v : Value) : motive v := by
  induction v with
  | deref place width ih => exact step _ (by simpa [args] using ih)
  | sext v bits ih => exact step _ (by simpa [args] using ih)
  | zext v bits ih => exact step _ (by simpa [args] using ih)
  | binary op left right hl hr => exact step _ (by simp [args, hl, hr])
  | select cond yes no hy hn => exact step _ (by simp [args, hy, hn])
  | _ => exact step _ (by simp [args])

/-- The text of a value tells the value and where it ends, whatever follows that a word cannot
go on with. -/
def Legible (a : Value) : Prop :=
  ∀ (b : Value) (s t : String), Stops s → Stops t → a.text ++ s = b.text ++ t →
    a.shown = b.shown ∧ s = t

theorem argsText_append_inj {as : List Value} (hlegible : ∀ a ∈ as, a.Legible) {bs : List Value}
    {s t : String} (h : argsText as ++ s = argsText bs ++ t) :
    as.map shown = bs.map shown ∧ s = t := by
  induction as generalizing bs with
  | nil =>
      cases bs with
      | nil => exact ⟨rfl, (String.append_right_inj _).mp h⟩
      | cons b bs => simp [argsText, ← String.toList_inj] at h
  | cons a as ih =>
      cases bs with
      | nil => simp [argsText, ← String.toList_inj] at h
      | cons b bs =>
          simp only [argsText, String.append_assoc, String.append_right_inj] at h
          obtain ⟨hab, h⟩ :=
            hlegible a List.mem_cons_self b _ _ (stops_argsText as s) (stops_argsText bs t) h
          obtain ⟨hasbs, hst⟩ := ih (fun c hc => hlegible c (List.mem_cons_of_mem a hc)) h
          exact ⟨by simp [hab, hasbs], hst⟩

/-- **Every value is legible.** -/
theorem legible (a : Value) : a.Legible := by
  refine args_induction (fun a ih => ?_) a
  intro b s t hs ht h
  rw [text_eq a, text_eq b, String.append_assoc, String.append_assoc] at h
  obtain ⟨hword, htail⟩ :=
    (unbroken_word a).append_inj (unbroken_word b) (stops_tail a hs) (stops_tail b ht) h
  obtain ⟨hleaf, hshown⟩ := shown_eq_of_word hword
  unfold tail at htail
  rw [← hleaf] at htail
  split at htail
  · rename_i ha
    have hb : b.args.isEmpty = true := hleaf ▸ ha
    rw [List.isEmpty_iff] at ha hb
    exact ⟨hshown (by rw [ha, hb]), by simpa using htail⟩
  · obtain ⟨hargs, hst⟩ := argsText_append_inj ih htail
    exact ⟨hshown hargs, hst⟩

theorem text_shown (v : Value) : v.shown.text = v.text := by
  induction v with
  | reg r width =>
      simp only [shown, text, regText, shownWidth]
      split <;> simp_all
  | _ => simp [shown, text, *]

/-- **The text of a value determines it up to register width.** Two values have one text exactly
if they are the same once every register leaf has the width that it shows. -/
theorem text_eq_text_iff (a b : Value) : a.text = b.text ↔ a.shown = b.shown := by
  constructor
  · intro h
    exact (legible a b "" "" stops_empty stops_empty (by rw [h])).1
  · intro h
    rw [← text_shown a, h, text_shown b]

/-- At four bytes `fp` goes by its number, and the stack pointer has no such view. -/
example : (reg .fp 4).text = "%w29" ∧ (reg .fp 2).text = "%fp" ∧ (reg .sp 4).text = "%sp" := by
  decide

end Value

end ReachingDefs
