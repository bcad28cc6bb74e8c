import TemplateCompiler.Number.Format
import TemplateCompiler.Number.Read
import TemplateCompiler.Proofs.Number.Interval
import TemplateCompiler.Proofs.Text.Numeral

/-!
# Written doubles

The number that a decimal stands for can be read off its text (`Decimal.read_mixed`), and so doubles
with the same text are the same (`Double.compact_inj`).
-/

namespace TemplateCompiler

/-! ### Reading a decimal -/

namespace Text

def isDigitByte (b : UInt8) : Bool := isDigit b.toNat

/-- The digits before the point, those after it, and what follows. -/
def numeralParts (t : Text) : Text × Text × Text :=
  let whole := t.takeWhile isDigitByte
  match t.dropWhile isDigitByte with
  | [] => (whole, [], [])
  | b :: r =>
    if b = '.'.toUInt8 then (whole, r.takeWhile isDigitByte, r.dropWhile isDigitByte)
    else (whole, [], b :: r)

def exponentOf : Text → Int
  | _ :: sign :: ds => if sign = '-'.toUInt8 then -(number 10 ds : Int) else number 10 ds
  | _ => 0

theorem exponentOf_nil : exponentOf [] = 0 := rfl

/-- The number that a decimal numeral stands for. -/
def decimalValue (t : Text) : ℚ :=
  number 10 (t.numeralParts.1 ++ t.numeralParts.2.1) * 10 ^ (exponentOf t.numeralParts.2.2 - t.numeralParts.2.1.length)

def AllDigits (t : Text) : Prop := ∀ b ∈ t, isDigitByte b = true

/-- Whether a text does not start with a digit or a point. -/
def Stops (t : Text) : Prop := ∀ b ∈ t.head?, isDigitByte b = false ∧ b ≠ '.'.toUInt8

theorem takeWhile_digits {ds r : Text} (hds : AllDigits ds) (hr : ∀ b ∈ r.head?, isDigitByte b = false) :
    (ds ++ r).takeWhile isDigitByte = ds ∧ (ds ++ r).dropWhile isDigitByte = r := by
  rw [List.takeWhile_append_of_pos hds, List.dropWhile_append_of_pos hds]
  cases r with
  | nil => simp
  | cons b r =>
      have hb := Bool.eq_false_iff.mp (hr b rfl)
      rw [List.takeWhile_cons_of_neg hb, List.dropWhile_cons_of_neg hb, List.append_nil]
      exact ⟨rfl, rfl⟩

theorem numeralParts_whole {ds r : Text} (hds : AllDigits ds) (hr : Stops r) :
    numeralParts (ds ++ r) = (ds, [], r) := by
  obtain ⟨htake, hdrop⟩ := takeWhile_digits hds fun b hb => (hr b hb).1
  rw [numeralParts, htake, hdrop]
  cases r with
  | nil => rfl
  | cons b r => exact if_neg (hr b rfl).2

theorem numeralParts_point {ds fs r : Text} (hds : AllDigits ds) (hfs : AllDigits fs)
    (hr : ∀ b ∈ r.head?, isDigitByte b = false) :
    numeralParts (ds ++ '.'.toUInt8 :: (fs ++ r)) = (ds, fs, r) := by
  obtain ⟨htake, hdrop⟩ := takeWhile_digits (r := '.'.toUInt8 :: (fs ++ r)) hds (by rintro _ ⟨⟩; rfl)
  obtain ⟨htake', hdrop'⟩ := takeWhile_digits hfs hr
  rw [numeralParts, htake, hdrop]
  simp only [if_true, htake', hdrop']

end Text

/-! ### What is written -/

theorem isDigitByte_digit : ∀ d < 10, Text.isDigitByte (UInt8.ofNat (48 + d)) = true := by decide

theorem digit?_digit : ∀ d < 10, (Text.digit? (UInt8.ofNat (48 + d))).getD 0 = d := by decide

variable {ds : List Nat}

theorem allDigits_digitText (h : ∀ d ∈ ds, d < 10) : Text.AllDigits (digitText ds) := by
  intro b hb
  obtain ⟨d, hd, rfl⟩ := List.mem_map.mp hb
  exact isDigitByte_digit d (h d hd)

theorem number_digitText (h : ∀ d ∈ ds, d < 10) : Text.number 10 (digitText ds) = numberOf ds := by
  have hfold : ∀ n, ds.foldl (fun n d => n * 10 + (Text.digit? (UInt8.ofNat (48 + d))).getD 0) n =
      ds.foldl (fun n d => n * 10 + d) n := by
    induction ds with
    | nil => exact fun _ => rfl
    | cons d ds ih =>
        intro n
        obtain ⟨hd, hds⟩ := List.forall_mem_cons.mp h
        rw [List.foldl_cons, List.foldl_cons, digit?_digit d hd, ih hds]
  rw [Text.number, digitText, List.foldl_map, hfold, numberOf]

theorem digitText_append (ds es : List Nat) : digitText (ds ++ es) = digitText ds ++ digitText es :=
  List.map_append

theorem digitText_zeros (n : Nat) : digitText (List.replicate n 0) = List.replicate n '0'.toUInt8 :=
  List.map_replicate

theorem lt_of_mem_digitsOf {n d : Nat} (h : d ∈ Decimal.digitsOf n) : d < 10 := by
  obtain ⟨c, hc, rfl⟩ := List.mem_map.mp h
  obtain ⟨-, -, hhi⟩ := Text.toNat_toUInt8_of_isDigit (Text.isDigit_of_mem_toDigits hc)
  omega

theorem ofNat_eq_digitText (n : Nat) : Text.ofNat n = digitText (Decimal.digitsOf n) := by
  rw [Text.ofNat, digitText, Decimal.digitsOf, List.map_map]
  refine List.map_congr_left fun c hc => ?_
  obtain ⟨hb, hlo, hhi⟩ := Text.toNat_toUInt8_of_isDigit (Text.isDigit_of_mem_toDigits hc)
  rw [← UInt8.toNat_inj, hb, Function.comp_apply, UInt8.toNat_ofNat', Nat.mod_eq_of_lt (by omega)]
  omega

theorem number_ofNat (n : Nat) : Text.number 10 (Text.ofNat n) = n := by
  rw [ofNat_eq_digitText, number_digitText fun _ => lt_of_mem_digitsOf, numberOf_digitsOf]

namespace Decimal

/-- Whether all digits are below ten. -/
def Proper (d : Decimal) : Prop := ∀ x ∈ d.digits, x < 10

/-- Digits without a point. -/
theorem decimalValue_whole {ds : List Nat} {r : Text} (h : ∀ d ∈ ds, d < 10) (hr : Text.Stops r) :
    Text.decimalValue (digitText ds ++ r) = numberOf ds * 10 ^ Text.exponentOf r := by
  rw [Text.decimalValue, Text.numeralParts_whole (allDigits_digitText h) hr]
  simp [number_digitText h]

theorem decimalValue_point {ds fs : List Nat} {r : Text} (h : ∀ d ∈ ds ++ fs, d < 10) (hr : Text.Stops r) :
    Text.decimalValue (digitText ds ++ '.'.toUInt8 :: (digitText fs ++ r)) =
      numberOf (ds ++ fs) * 10 ^ (Text.exponentOf r - fs.length) := by
  obtain ⟨hds, hfs⟩ := List.forall_mem_append.mp h
  rw [Text.decimalValue, Text.numeralParts_point (allDigits_digitText hds) (allDigits_digitText hfs)
    fun b hb => (hr b hb).1]
  simp only [← digitText_append, number_digitText h]
  simp [digitText]

theorem stops_nil : Text.Stops [] := by rintro _ ⟨⟩

theorem stops_exponent (r : Text) : Text.Stops ('e'.toUInt8 :: r) := by
  rintro _ ⟨⟩
  decide

theorem lt_of_mem_zeros {n x : Nat} (h : x ∈ List.replicate n 0) : x < 10 := by
  rw [List.eq_of_mem_replicate h]
  decide

theorem numberOf_replicate (n : Nat) : numberOf (List.replicate n 0) = 0 :=
  numberOf_zeros fun _ => List.eq_of_mem_replicate

/-- The number of a decimal below one, whose digits follow zeros. -/
theorem decimalValue_fraction {ds : List Nat} (h : ∀ d ∈ ds, d < 10) (n : Nat) :
    Text.decimalValue ("0." ++ List.replicate n '0'.toUInt8 ++ digitText ds) =
      numberOf ds * 10 ^ (-(n : Int) - ds.length) := by
  have htext : "0." ++ List.replicate n '0'.toUInt8 ++ digitText ds =
      digitText [0] ++ '.'.toUInt8 :: (digitText (List.replicate n 0 ++ ds) ++ []) := by
    rw [digitText_append, digitText_zeros, List.append_nil]
    rfl
  have hdigits : ∀ x ∈ [0] ++ (List.replicate n 0 ++ ds), x < 10 :=
    List.forall_mem_append.mpr ⟨by decide, List.forall_mem_append.mpr ⟨fun _ => lt_of_mem_zeros, h⟩⟩
  have hnumber : numberOf ([0] ++ (List.replicate n 0 ++ ds)) = numberOf ds := by
    rw [numberOf_append, numberOf_append, numberOf_replicate]
    simp [numberOf]
  have hexp : Text.exponentOf [] - ((List.replicate n 0 ++ ds).length : Int) = -n - ds.length := by
    simp only [Text.exponentOf, List.length_append, List.length_replicate]
    omega
  rw [htext, decimalValue_point hdigits stops_nil, hnumber, hexp]

/-- The number of a whole decimal, whose digits are followed by zeros. -/
theorem decimalValue_zeros {ds : List Nat} (h : ∀ d ∈ ds, d < 10) (n : Nat) :
    Text.decimalValue (digitText ds ++ List.replicate n '0'.toUInt8) = numberOf ds * 10 ^ n := by
  have hdigits : ∀ x ∈ ds ++ List.replicate n 0, x < 10 :=
    List.forall_mem_append.mpr ⟨h, fun _ => lt_of_mem_zeros⟩
  have hvalue := decimalValue_whole hdigits stops_nil
  rw [List.append_nil, digitText_append, digitText_zeros] at hvalue
  rw [hvalue, numberOf_append, numberOf_replicate, List.length_replicate]
  simp [Text.exponentOf]

/-- Positional notation tells the number. -/
theorem read_positional {d : Decimal} (h : d.Proper) : Text.decimalValue d.positional = d.value := by
  unfold positional
  split
  · next hempty =>
      have hzero : ("0" : Text) = digitText [0] ++ [] := by decide
      rw [hzero, decimalValue_whole (by decide) stops_nil, value, List.isEmpty_iff.mp hempty]
      simp [numberOf]
  · split
    · next hexp =>
        rw [decimalValue_fraction h, value, Int.toNat_of_nonneg (by omega), Int.neg_neg]
    · next hexp =>
        dsimp only
        split
        · next hlength =>
            rw [decimalValue_zeros h, value, ← zpow_natCast]
            congr 2
            omega
        · next hlength =>
            have hvalue : Text.decimalValue (digitText (d.digits.take d.exponent.toNat) ++
                '.'.toUInt8 :: (digitText (d.digits.drop d.exponent.toNat) ++ [])) = _ :=
              decimalValue_point (by rw [List.take_append_drop]; exact h) stops_nil
            rw [List.append_nil, List.take_append_drop, List.length_drop] at hvalue
            rw [List.append_assoc]
            refine hvalue.trans ?_
            rw [value, Text.exponentOf_nil]
            congr 2
            omega

/-- The exponent is written with a sign and at least two digits. -/
theorem exponentOf_written (x : Int) :
    ∃ r, (if x < 0 then "e-" else "e+" : Text) ++
      (if (Text.ofNat x.natAbs).length < 2 then "0" ++ Text.ofNat x.natAbs else Text.ofNat x.natAbs) =
        'e'.toUInt8 :: r ∧ Text.exponentOf ('e'.toUInt8 :: r) = x := by
  generalize hpadded : (if (Text.ofNat x.natAbs).length < 2 then "0" ++ Text.ofNat x.natAbs
    else Text.ofNat x.natAbs) = padded
  have hnumber : Text.number 10 padded = x.natAbs := by
    rw [← hpadded]
    split
    · exact number_ofNat x.natAbs
    · exact number_ofNat x.natAbs
  split
  · refine ⟨'-'.toUInt8 :: padded, rfl, ?_⟩
    rw [Text.exponentOf, if_pos rfl, hnumber]
    omega
  · refine ⟨'+'.toUInt8 :: padded, rfl, ?_⟩
    rw [Text.exponentOf, if_neg (by decide), hnumber]
    omega

/-- Exponent notation tells the number. -/
theorem read_scientific {d : Decimal} (h : d.Proper) (hne : d.digits ≠ []) :
    Text.decimalValue d.scientific = d.value := by
  obtain ⟨first, more, hdigits⟩ := List.exists_cons_of_ne_nil hne
  obtain ⟨r, hr, hexp⟩ := exponentOf_written (d.exponent - 1)
  have htext : d.scientific = digitText (d.digits.take 1) ++
      (if d.digits.length ≤ 1 then [] else ("." : Text) ++ digitText (d.digits.drop 1)) ++
        'e'.toUInt8 :: r := by
    rw [← hr, ← List.append_assoc]
    rfl
  rw [Proper, hdigits] at h
  rw [htext, value, hdigits, List.take_succ_cons, List.drop_succ_cons, List.take_zero, List.drop_zero]
  cases more with
  | nil =>
      rw [if_pos (by simp), List.append_nil, decimalValue_whole h (stops_exponent r), hexp]
      rfl
  | cons second more =>
      have hsplit : ∀ x ∈ [first] ++ second :: more, x < 10 := h
      have hvalue := decimalValue_point hsplit (stops_exponent r)
      rw [if_neg (by simp), List.append_assoc, List.append_assoc]
      refine hvalue.trans ?_
      rw [hexp]
      congr 2
      simp only [List.length_cons]
      omega

theorem read_mixed {d : Decimal} (h : d.Proper) : Text.decimalValue d.mixed = d.value := by
  unfold mixed
  split
  · next hsmall =>
      refine read_scientific h fun hempty => hsmall.1 ?_
      rw [hempty]
      rfl
  · exact read_positional h

/-- The bytes of numerals: digits, the point, and an exponent with its sign. -/
def IsNumeralByte (b : UInt8) : Prop := Text.isDigitByte b = true ∨ b ∈ (".e+-" : Text)

instance : DecidablePred IsNumeralByte := fun _ => inferInstanceAs (Decidable (_ ∨ _))

theorem isNumeralByte_ofNat {n : Nat} {b : UInt8} (h : b ∈ Text.ofNat n) : IsNumeralByte b :=
  .inl (Text.isDigit_of_mem_ofNat h)

theorem isNumeralByte_digitText {ds : List Nat} (h : ∀ d ∈ ds, d < 10) {b : UInt8}
    (hb : b ∈ digitText ds) : IsNumeralByte b := .inl (allDigits_digitText h b hb)

theorem isNumeralByte_zeros {n : Nat} {b : UInt8} (h : b ∈ List.replicate n '0'.toUInt8) :
    IsNumeralByte b := by
  rw [List.eq_of_mem_replicate h]
  exact .inl rfl

theorem isNumeralByte_positional {d : Decimal} (h : d.Proper) : ∀ b ∈ d.positional, IsNumeralByte b := by
  have hall : ∀ b ∈ ("0." : Text), IsNumeralByte b := Text.forall_mem_of_all (by decide)
  unfold positional
  split
  · exact fun b hb => hall b (List.mem_cons.mpr (.inl (List.mem_singleton.mp hb)))
  · split
    · simp only [List.mem_append]
      rintro b ((hb | hb) | hb)
      · exact hall b hb
      · exact isNumeralByte_zeros hb
      · exact isNumeralByte_digitText h hb
    · dsimp only
      split
      · simp only [List.mem_append]
        rintro b (hb | hb)
        · exact isNumeralByte_digitText h hb
        · exact isNumeralByte_zeros hb
      · simp only [List.mem_append]
        rintro b ((hb | hb) | hb)
        · exact isNumeralByte_digitText (fun x hx => h x (List.mem_of_mem_take hx)) hb
        · exact hall b (List.mem_cons.mpr (.inr hb))
        · exact isNumeralByte_digitText (fun x hx => h x (List.mem_of_mem_drop hx)) hb

theorem isNumeralByte_scientific {d : Decimal} (h : d.Proper) : ∀ b ∈ d.scientific, IsNumeralByte b := by
  have hall : ∀ b ∈ (".e-e+0" : Text), IsNumeralByte b := Text.forall_mem_of_all (by decide)
  have hin : ∀ {t : Text}, t ⊆ (".e-e+0" : Text) → ∀ b ∈ t, IsNumeralByte b :=
    fun ht b hb => hall b (ht hb)
  unfold scientific
  simp only [List.mem_append]
  rintro b (((hb | hb) | hb) | hb)
  · exact isNumeralByte_digitText (fun x hx => h x (List.mem_of_mem_take hx)) hb
  · split at hb
    · cases hb
    · rcases List.mem_append.mp hb with hb | hb
      · exact hin (by decide) b hb
      · exact isNumeralByte_digitText (fun x hx => h x (List.mem_of_mem_drop hx)) hb
  · split at hb
    · exact hin (by decide) b hb
    · exact hin (by decide) b hb
  · split at hb
    · rcases List.mem_append.mp hb with hb | hb
      · exact hin (by decide) b hb
      · exact isNumeralByte_ofNat hb
    · exact isNumeralByte_ofNat hb

theorem isNumeralByte_mixed {d : Decimal} (h : d.Proper) : ∀ b ∈ d.mixed, IsNumeralByte b := by
  unfold mixed
  split
  · exact isNumeralByte_scientific h
  · exact isNumeralByte_positional h

def StartsWithDigit (t : Text) : Prop := ∃ b r, t = b :: r ∧ Text.isDigitByte b = true

theorem StartsWithDigit.append {t : Text} (h : StartsWithDigit t) (r : Text) :
    StartsWithDigit (t ++ r) := by
  obtain ⟨b, r', rfl, hb⟩ := h
  exact ⟨b, r' ++ r, rfl, hb⟩

theorem startsWithDigit_digitText {ds : List Nat} (h : ∀ d ∈ ds, d < 10) (hne : ds ≠ []) :
    StartsWithDigit (digitText ds) := by
  obtain ⟨d, more, rfl⟩ := List.exists_cons_of_ne_nil hne
  exact ⟨_, _, rfl, isDigitByte_digit d (h d List.mem_cons_self)⟩

theorem startsWithDigit_take {d : Decimal} (h : d.Proper) (hne : d.digits ≠ []) {n : Nat} (hn : 0 < n) :
    StartsWithDigit (digitText (d.digits.take n)) := by
  refine startsWithDigit_digitText (fun x hx => h x (List.mem_of_mem_take hx)) ?_
  rw [Ne, List.take_eq_nil_iff, not_or]
  exact ⟨by omega, hne⟩

theorem startsWithDigit_mixed {d : Decimal} (h : d.Proper) : StartsWithDigit d.mixed := by
  unfold mixed
  split
  · next hsmall =>
      have hne : d.digits ≠ [] := fun hempty => hsmall.1 (List.isEmpty_iff.mpr hempty)
      exact (((startsWithDigit_take h hne (by decide)).append _).append _).append _
  · unfold positional
    split
    · exact ⟨_, _, rfl, rfl⟩
    · next hne =>
        have hne : d.digits ≠ [] := fun hempty => hne (List.isEmpty_iff.mpr hempty)
        split
        · exact ⟨_, _, rfl, rfl⟩
        · dsimp only
          split
          · exact (startsWithDigit_digitText h hne).append _
          · exact ((startsWithDigit_take h hne (by omega)).append _).append _

end Decimal

/-! ### Doubles -/

namespace Double

theorem proper_ofScaled (n : Nat) (shift : Int) : (Decimal.ofScaled n shift).Proper := by
  intro x hx
  have hmem := (List.dropWhile_sublist _).subset (List.mem_reverse.mp hx)
  exact lt_of_mem_digitsOf (List.mem_reverse.mp hmem)

theorem proper_shortest (m : Nat) (q : Int) : (shortest m q).Proper := by
  unfold shortest
  dsimp only
  cases hfound : (List.range 17).findSome? _ with
  | none => exact proper_ofScaled 0 0
  | some dec =>
      obtain ⟨i, -, hi⟩ := List.exists_of_findSome?_eq_some hfound
      rcases Rounding.decimal?_cases _ _ _ with ⟨d, -, hsome⟩ | ⟨hnone, -⟩
      · rw [hi, Option.some.injEq] at hsome
        rw [Option.getD_some, hsome]
        exact proper_ofScaled _ _
      · rw [hi] at hnone
        cases hnone

def signBits (negative : Bool) : Nat := if negative then 2 ^ 63 else 0

theorem bits_eq (d : Double) : d.bits.toNat =
    signBits d.negative + (d.bits.toNat / 2 ^ 52 % 2 ^ 11 * 2 ^ 52 + d.bits.toNat % 2 ^ 52) := by
  have hlt := d.bits.toNat_lt
  unfold signBits negative
  simp only [Nat.pow_eq, decide_eq_true_eq]
  split <;> omega

theorem bits_of_finite {d : Double} {negative : Bool} {m : Nat} {q : Int}
    (h : d.value = .finite negative m q) :
    d.bits.toNat = signBits negative + (if m < 2 ^ 52 then m else (q + 1074).toNat * 2 ^ 52 + m) ∧
      ((m = 0 ∧ q = -1074) ∨ Normal m q) := by
  have hbits := d.bits_eq
  unfold value at h
  simp only [Nat.pow_eq] at h
  have hfraction := Nat.mod_lt d.bits.toNat (show 2 ^ 52 > 0 by decide)
  have hfield := Nat.mod_lt (d.bits.toNat / 2 ^ 52) (show 2 ^ 11 > 0 by decide)
  generalize d.bits.toNat % 2 ^ 52 = fraction at *
  generalize d.bits.toNat / 2 ^ 52 % 2 ^ 11 = field at *
  split at h
  · split at h <;> cases h
  · split at h
    · next hzero =>
        cases h
        rw [hbits, hzero, if_pos hfraction]
        refine ⟨by omega, ?_⟩
        by_cases hm : m = 0
        · exact .inl ⟨hm, rfl⟩
        · exact .inr ⟨by omega, by omega, by omega, .inl rfl⟩
    · cases h
      rw [hbits, if_neg (by omega)]
      exact ⟨by omega, .inr ⟨by omega, by omega, by omega, .inr (by omega)⟩⟩

theorem bits_of_infinite {d : Double} {negative : Bool} (h : d.value = .infinite negative) :
    d.bits.toNat = signBits negative + 2047 * 2 ^ 52 := by
  have hbits := d.bits_eq
  unfold value at h
  simp only [Nat.pow_eq] at h
  generalize d.bits.toNat % 2 ^ 52 = fraction at *
  generalize d.bits.toNat / 2 ^ 52 % 2 ^ 11 = field at *
  split at h
  · next hfield =>
      split at h
      · next hzero =>
          cases h
          rw [hbits, hfield, hzero]
          rfl
      · cases h
  · split at h <;> cases h

theorem eq_of_value_eq {d e : Double} (hnan : d.value ≠ .nan) (h : d.value = e.value) : d = e := by
  have hbits : d.bits.toNat = e.bits.toNat := by
    cases hd : d.value with
    | nan => exact absurd hd hnan
    | infinite negative => rw [bits_of_infinite hd, bits_of_infinite (h ▸ hd)]
    | finite negative m q => rw [(bits_of_finite hd).1, (bits_of_finite (h ▸ hd)).1]
  obtain ⟨bits⟩ := d
  exact congrArg Double.mk (UInt64.toNat_inj.mp hbits)

def decimalOf (m : Nat) (q : Int) : Decimal := if m = 0 then ⟨[], 0⟩ else shortest m q

theorem proper_decimalOf (m : Nat) (q : Int) : (decimalOf m q).Proper := by
  unfold decimalOf
  split
  · exact fun _ h => nomatch h
  · exact proper_shortest m q

theorem decimalOf_inj {m m' : Nat} {q q' : Int} (h : (m = 0 ∧ q = -1074) ∨ Normal m q)
    (h' : (m' = 0 ∧ q' = -1074) ∨ Normal m' q') (heq : (decimalOf m q).value = (decimalOf m' q').value) :
    m = m' ∧ q = q' := by
  have hzero : (decimalOf 0 (-1074)).value = 0 := by simp [decimalOf, Decimal.value, numberOf]
  have hnormal : ∀ {m : Nat} {q : Int}, Normal m q → decimalOf m q = shortest m q :=
    fun hn => if_neg (by have := hn.pos; omega)
  rcases h with ⟨rfl, rfl⟩ | h <;> rcases h' with ⟨rfl, rfl⟩ | h'
  · exact ⟨rfl, rfl⟩
  · rw [hzero, hnormal h'] at heq
    exact absurd heq (ne_of_lt (value_shortest_pos h'))
  · rw [hzero, hnormal h] at heq
    exact absurd heq.symm (ne_of_lt (value_shortest_pos h))
  · rw [hnormal h, hnormal h'] at heq
    exact Rounding.holds_unique h h' (holds_shortest h) (heq ▸ holds_shortest h')

/-- What is written after the sign. -/
def magnitude : Value → Text
  | .nan => "NaN"
  | .infinite _ => "Inf"
  | .finite _ m q => (decimalOf m q).mixed

/-- Whether a minus sign is written. -/
def isNegative : Value → Bool
  | .nan => false
  | .infinite negative => negative
  | .finite negative _ _ => negative

/-- The sign and what follows it can be told apart. -/
theorem unsigned_compact (d : Double) : d.compact.unsigned = (isNegative d.value, magnitude d.value) := by
  unfold compact format
  cases d.value with
  | nan => rfl
  | infinite negative => cases negative <;> rfl
  | finite negative m q =>
      cases negative with
      | true => rfl
      | false =>
          obtain ⟨b, r, htext, hb⟩ := Decimal.startsWithDigit_mixed (proper_decimalOf m q)
          change Text.unsigned (decimalOf m q).mixed = (false, (decimalOf m q).mixed)
          rw [htext, Text.unsigned, if_neg, if_neg]
          · intro hplus
            rw [eq_of_beq hplus] at hb
            exact absurd hb (by decide)
          · intro hminus
            rw [eq_of_beq hminus] at hb
            exact absurd hb (by decide)

theorem mixed_ne_word {m : Nat} {q : Int} {b : UInt8} {r : Text} (hb : Text.isDigitByte b = false) :
    (decimalOf m q).mixed ≠ b :: r := by
  intro h
  obtain ⟨c, r', htext, hc⟩ := Decimal.startsWithDigit_mixed (proper_decimalOf m q)
  rw [htext, List.cons.injEq] at h
  rw [h.1, hb] at hc
  cases hc

/-- Values of doubles with the same sign that are written alike. -/
theorem value_eq_of_magnitude_eq {d e : Double} (hsign : isNegative d.value = isNegative e.value)
    (h : magnitude d.value = magnitude e.value) : d.value = e.value := by
  have hwords : ("NaN" : Text) ≠ "Inf" := by decide
  cases hd : d.value with
  | nan =>
      cases he : e.value with
      | nan => rfl
      | infinite _ => rw [hd, he] at h; exact absurd h hwords
      | finite _ _ _ => rw [hd, he] at h; exact absurd h.symm (mixed_ne_word rfl)
  | infinite n =>
      cases he : e.value with
      | nan => rw [hd, he] at h; exact absurd h.symm hwords
      | infinite n' => rw [hd, he] at hsign; exact congrArg Value.infinite hsign
      | finite _ _ _ => rw [hd, he] at h; exact absurd h.symm (mixed_ne_word rfl)
  | finite n m q =>
      cases he : e.value with
      | nan => rw [hd, he] at h; exact absurd h (mixed_ne_word rfl)
      | infinite _ => rw [hd, he] at h; exact absurd h (mixed_ne_word rfl)
      | finite n' m' q' =>
          rw [hd, he] at h hsign
          have hvalue := congrArg Text.decimalValue h
          simp only [magnitude, Decimal.read_mixed (proper_decimalOf _ _)] at hvalue
          obtain ⟨rfl, rfl⟩ := decimalOf_inj (bits_of_finite hd).2 (bits_of_finite he).2 hvalue
          rw [show n = n' from hsign]

/-- Doubles that are written alike are the same, except that every double that is no number is written
in the same way. -/
theorem compact_inj {d e : Double} (h : d.compact = e.compact) :
    d = e ∨ d.value = .nan ∧ e.value = .nan := by
  have hparts := (unsigned_compact d).symm.trans ((congrArg Text.unsigned h).trans (unsigned_compact e))
  rw [Prod.mk.injEq] at hparts
  have hvalue := value_eq_of_magnitude_eq hparts.1 hparts.2
  by_cases hnan : d.value = .nan
  · exact .inr ⟨hnan, hvalue ▸ hnan⟩
  · exact .inl (eq_of_value_eq hnan hvalue)

end Double

end TemplateCompiler
