import TemplateCompiler.Pool.Key
import TemplateCompiler.Proofs.Number.Layout
import TemplateCompiler.Proofs.Text.Quoted

/-!
# Keys of literal values

Two values with the same key are the same (`Primitive.keyOf_append_inj`), except that a whole number
and a double may be written alike; `Primitive.plain` is a value without that difference. A key also
shows where it ends, as a delimiter follows it.
-/

namespace TemplateCompiler

/-! ### Values of literals -/

def Text.whole? (t : Text) : Option Int :=
  let n : Int := if t.unsigned.1 then -(number 10 t.unsigned.2 : Int) else number 10 t.unsigned.2
  if ofInt n = t then some n else none

/-- A value without the difference between a whole number and a double that is written alike. -/
def Primitive.plain : Primitive → Primitive
  | double d =>
    match Text.whole? d.compact with
    | some n => int n
    | none => if d.value = .nan then double .nan else double d
  | v => v

theorem Text.unsigned_ofNat (n : Nat) : unsigned (ofNat n) = (false, ofNat n) := by
  cases h : ofNat n with
  | nil => exact absurd h (ofNat_ne_nil n)
  | cons b r =>
      have hb : isDigit b.toNat = true := isDigit_of_mem_ofNat (h ▸ List.mem_cons_self)
      rw [unsigned, if_neg, if_neg]
      · intro hplus
        rw [eq_of_beq hplus] at hb
        exact absurd hb (by decide)
      · intro hminus
        rw [eq_of_beq hminus] at hb
        exact absurd hb (by decide)

theorem Text.whole?_ofInt (n : Int) : whole? (ofInt n) = some n := by
  have hn : (if (ofInt n).unsigned.1 then -(number 10 (ofInt n).unsigned.2 : Int)
      else number 10 (ofInt n).unsigned.2) = n := by
    by_cases h : n < 0
    · have hu : unsigned (ofInt n) = (true, ofNat n.natAbs) := by
        rw [ofInt, if_pos h]
        rfl
      rw [hu, if_pos rfl, number_ofNat]
      omega
    · rw [ofInt, if_neg h, unsigned_ofNat, if_neg Bool.false_ne_true, number_ofNat]
      omega
  rw [whole?]
  simp only [hn, if_true]

theorem Text.ofInt_of_whole? {t : Text} {n : Int} (h : whole? t = some n) : ofInt n = t := by
  unfold whole? at h
  simp only [Option.ite_none_right_eq_some, Option.some.injEq] at h
  obtain ⟨h, rfl⟩ := h
  exact h

theorem Text.ofInt_inj {n m : Int} (h : ofInt n = ofInt m) : n = m := by
  have h' := whole?_ofInt n
  rw [h, whole?_ofInt, Option.some.injEq] at h'
  exact h'.symm

theorem Double.compact_of_nan {d : Double} (h : d.value = .nan) : d.compact = "NaN" := by
  rw [compact, format, h]

namespace Primitive

theorem keyOf_plain (v : Primitive) : v.plain.keyOf = v.keyOf := by
  cases v with
  | double d =>
      rw [plain]
      split
      · next n hn => exact Text.ofInt_of_whole? hn
      · split
        · next hnan => exact (Double.compact_of_nan (by decide)).trans (Double.compact_of_nan hnan).symm
        · rfl
  | _ => rfl

theorem plain_plain (v : Primitive) : v.plain.plain = v.plain := by
  cases v with
  | double d =>
      rw [plain]
      split
      · rfl
      · next hnone =>
          split
          · decide
          · next hnan => simp [plain, hnone, hnan]
  | _ => rfl

end Primitive

/-! ### Where a key ends -/

/-- Whether a byte stands after the key of an entry. -/
def isDelimiter (b : UInt8) : Bool := b == ','.toUInt8 || b == ']'.toUInt8 || b == '\x7d'.toUInt8

/-- Whether a text may stand after the key of an entry. -/
def Delimited (r : Text) : Prop := ∀ b ∈ r.head?, isDelimiter b = true

theorem append_inj_of_delimited {t u r s : Text} (ht : ∀ b ∈ t, isDelimiter b = false)
    (hu : ∀ b ∈ u, isDelimiter b = false) (hr : Delimited r) (hs : Delimited s)
    (h : t ++ r = u ++ s) : t = u ∧ r = s := by
  induction t generalizing u with
  | nil =>
      cases u with
      | nil => exact ⟨rfl, h⟩
      | cons c u =>
          rw [List.nil_append, List.cons_append] at h
          have hc := hr c (by rw [h]; rfl)
          rw [hu c List.mem_cons_self] at hc
          cases hc
  | cons b t ih =>
      obtain ⟨hb, ht⟩ := List.forall_mem_cons.mp ht
      cases u with
      | nil =>
          rw [List.nil_append, List.cons_append] at h
          have hb' := hs b (by rw [← h]; rfl)
          rw [hb] at hb'
          cases hb'
      | cons c u =>
          rw [List.cons_append, List.cons_append, List.cons.injEq] at h
          obtain ⟨htu, hrs⟩ := ih ht (List.forall_mem_cons.mp hu).2 h.2
          exact ⟨by rw [h.1, htu], hrs⟩

/-! ### Keys of literals -/

namespace Primitive

def startsNumber (b : UInt8) : Bool := Text.isDigitByte b || b ∈ ("+-N" : Text)

/-- The kinds of values by the first byte of their key; the last is that of no value. -/
def leadOf (b : UInt8) : Nat :=
  if startsNumber b then 3 else if b = '<'.toUInt8 then 0 else if b ∈ ("tf" : Text) then 1
  else if b = '"'.toUInt8 then 2 else 4

def lead : Primitive → Nat
  | null => 0
  | bool _ => 1
  | text _ => 2
  | int _ => 3
  | double _ => 3

/-- What is written for a number. -/
structure IsNumber (t : Text) : Prop where
  starts : ∃ b r, t = b :: r ∧ startsNumber b = true
  delimited : ∀ b ∈ t, isDelimiter b = false

theorem isDelimiter_of_isDigitByte {b : UInt8} (h : Text.isDigitByte b = true) :
    isDelimiter b = false := by
  refine Bool.eq_false_iff.mpr fun hb => ?_
  simp only [isDelimiter, Bool.or_eq_true, beq_iff_eq] at hb
  rcases hb with (rfl | rfl) | rfl <;> exact absurd h (by decide)

theorem isDelimiter_of_isNumeralByte {b : UInt8} (h : Decimal.IsNumeralByte b) :
    isDelimiter b = false := by
  have hmarks : ∀ b ∈ (".e+-" : Text), isDelimiter b = false := Text.forall_mem_of_all (by decide)
  exact h.elim isDelimiter_of_isDigitByte (hmarks b)

theorem startsNumber_of_isDigitByte {b : UInt8} (h : Text.isDigitByte b = true) :
    startsNumber b = true := by
  rw [startsNumber, h]
  rfl

theorem IsNumber.minus {t : Text} (h : ∀ b ∈ t, isDelimiter b = false) : IsNumber ("-" ++ t) :=
  ⟨⟨_, _, rfl, rfl⟩, List.forall_mem_append.mpr ⟨Text.forall_mem_of_all (by decide), h⟩⟩

theorem isNumber_ofInt (n : Int) : IsNumber (Text.ofInt n) := by
  have hall : ∀ m : Nat, ∀ b ∈ Text.ofNat m, isDelimiter b = false :=
    fun m b hb => isDelimiter_of_isDigitByte (Text.isDigit_of_mem_ofNat hb)
  unfold Text.ofInt
  split
  · exact .minus (hall _)
  · refine ⟨?_, hall _⟩
    obtain ⟨b, r, htext⟩ := List.exists_cons_of_ne_nil (Text.ofNat_ne_nil n.natAbs)
    have hb : Text.isDigitByte b = true := Text.isDigit_of_mem_ofNat (htext ▸ List.mem_cons_self)
    exact ⟨b, r, htext, startsNumber_of_isDigitByte hb⟩

theorem isNumber_compact (d : Double) : IsNumber d.compact := by
  have hall : ∀ m q, ∀ b ∈ (Double.decimalOf m q).mixed, isDelimiter b = false := fun m q b hb =>
    isDelimiter_of_isNumeralByte (Decimal.isNumeralByte_mixed (Double.proper_decimalOf m q) b hb)
  unfold Double.compact Double.format
  cases d.value with
  | nan => exact ⟨⟨_, _, rfl, rfl⟩, Text.forall_mem_of_all (by decide)⟩
  | infinite negative =>
      cases negative with
      | true => exact ⟨⟨_, _, rfl, rfl⟩, Text.forall_mem_of_all (by decide)⟩
      | false => exact ⟨⟨_, _, rfl, rfl⟩, Text.forall_mem_of_all (by decide)⟩
  | finite negative m q =>
      cases negative with
      | true => exact .minus (hall m q)
      | false =>
          obtain ⟨b, r, htext, hb⟩ := Decimal.startsWithDigit_mixed (Double.proper_decimalOf m q)
          exact ⟨⟨b, r, htext, startsNumber_of_isDigitByte hb⟩, hall m q⟩

theorem isNumber_keyOf {v : Primitive} (h : v.lead = 3) : IsNumber v.keyOf := by
  cases v with
  | int n => exact isNumber_ofInt n
  | double d => exact isNumber_compact d
  | null => cases h
  | bool b => cases h
  | text t => cases h

/-- The first byte of a key tells the kind of the value. -/
theorem lead_keyOf (v : Primitive) : ∃ b r, v.keyOf = b :: r ∧ leadOf b = v.lead := by
  by_cases h : v.lead = 3
  · obtain ⟨b, r, htext, hb⟩ := (isNumber_keyOf h).starts
    exact ⟨b, r, htext, (if_pos hb).trans h.symm⟩
  · cases v with
    | null => exact ⟨_, _, rfl, rfl⟩
    | bool b => cases b <;> exact ⟨_, _, rfl, rfl⟩
    | text t => exact ⟨_, _, rfl, rfl⟩
    | int n => exact absurd rfl h
    | double d => exact absurd rfl h

theorem lead_lt (v : Primitive) : v.lead < 4 := by
  cases v with
  | null | bool | text | int | double => simp [lead]

theorem lead_eq_of_append_eq {v w : Primitive} {r s : Text} (h : v.keyOf ++ r = w.keyOf ++ s) :
    v.lead = w.lead := by
  obtain ⟨b, t, hv, hb⟩ := lead_keyOf v
  obtain ⟨c, u, hw, hc⟩ := lead_keyOf w
  rw [hv, hw, List.cons_append, List.cons_append, List.cons.injEq] at h
  rw [← hb, ← hc, h.1]

theorem eq_of_ofInt_eq_compact {n : Int} {d : Double} (h : Text.ofInt n = d.compact) :
    (double d).plain = int n := by
  rw [plain, ← h, Text.whole?_ofInt]

theorem eq_nan_of_plain {d : Double} (h : (double d).plain = double d) (hnan : d.value = .nan) :
    d = .nan := by
  rw [plain] at h
  split at h
  · cases h
  · rw [if_pos hnan] at h
    exact (double.inj h).symm

/-- Numbers with the same key are the same. -/
theorem number_inj {v w : Primitive} (hv : v.plain = v) (hw : w.plain = w) (hlead : v.lead = 3)
    (hlead' : w.lead = 3) (h : v.keyOf = w.keyOf) : v = w := by
  cases v with
  | int n =>
      cases w with
      | int m => exact congrArg int (Text.ofInt_inj h)
      | double d => exact (eq_of_ofInt_eq_compact h).symm.trans hw
      | null | bool | text => cases hlead'
  | double d =>
      cases w with
      | int n => exact hv.symm.trans (eq_of_ofInt_eq_compact h.symm)
      | double e =>
          rcases Double.compact_inj h with rfl | ⟨hd, he⟩
          · rfl
          · rw [eq_nan_of_plain hv hd, eq_nan_of_plain hw he]
      | null | bool | text => cases hlead'
  | null | bool | text => cases hlead

/-- The key of a value tells where it ends and which value it is. -/
theorem keyOf_append_inj {v w : Primitive} (hv : v.plain = v) (hw : w.plain = w) {r s : Text}
    (hr : Delimited r) (hs : Delimited s) (h : v.keyOf ++ r = w.keyOf ++ s) : v = w ∧ r = s := by
  have hlead := lead_eq_of_append_eq h
  by_cases hnumber : v.lead = 3
  · have hnumber' := hlead.symm.trans hnumber
    obtain ⟨htext, hrs⟩ := append_inj_of_delimited (isNumber_keyOf hnumber).delimited
      (isNumber_keyOf hnumber').delimited hr hs h
    exact ⟨number_inj hv hw hnumber hnumber' htext, hrs⟩
  · cases v with
    | null =>
        cases w with
        | null => exact ⟨rfl, List.append_cancel_left h⟩
        | bool | text | int | double => cases hlead
    | bool b =>
        cases w with
        | bool c =>
            have hbc : b = c := by
              cases b <;> cases c <;> first | rfl | exact absurd (List.cons.inj h).1 (by decide)
            rw [hbc] at h
            exact ⟨by rw [hbc], List.append_cancel_left h⟩
        | null | text | int | double => cases hlead
    | text t =>
        cases w with
        | text u =>
            obtain ⟨htu, hrs⟩ := Text.quoted_append_inj h
            exact ⟨by rw [htu], hrs⟩
        | null | bool | int | double => cases hlead
    | int | double => exact absurd rfl hnumber

end Primitive

end TemplateCompiler
