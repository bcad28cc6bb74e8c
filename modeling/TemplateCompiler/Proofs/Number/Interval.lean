import Mathlib.Algebra.Order.Field.Power
import Mathlib.Algebra.Order.Field.Rat
import Mathlib.Tactic.FieldSimp
import Mathlib.Tactic.Linarith
import Mathlib.Tactic.NormNum
import Mathlib.Tactic.Positivity
import Mathlib.Tactic.Ring
import TemplateCompiler.Number.Shortest

/-!
# Shortest decimals tell doubles apart

* `Decimal.value` : the number a decimal stands for;
* `Double.Rounding.Holds` : the numbers that round to a double;
* `Double.Rounding.holds_unique` : a number rounds to one double only;
* `Double.holds_shortest` : the shortest decimal of a double rounds to it, so seventeen digits are
  always enough.
-/

namespace TemplateCompiler

/-! ### What decimals stand for -/

def numberOf (ds : List Nat) : Nat := ds.foldl (fun n d => n * 10 + d) 0

def Decimal.value (d : Decimal) : ℚ := numberOf d.digits * 10 ^ (d.exponent - d.digits.length)

theorem foldl_digits (ds : List Nat) (n : Nat) :
    ds.foldl (fun n d => n * 10 + d) n = n * 10 ^ ds.length + numberOf ds := by
  induction ds generalizing n with
  | nil => simp [numberOf]
  | cons d ds ih =>
      rw [numberOf, List.foldl_cons, List.foldl_cons, ih, ih (0 * 10 + d), List.length_cons]
      ring

theorem numberOf_append (ds es : List Nat) :
    numberOf (ds ++ es) = numberOf ds * 10 ^ es.length + numberOf es := by
  rw [numberOf, List.foldl_append, foldl_digits]
  rfl

theorem numberOf_zeros {ds : List Nat} (h : ∀ d ∈ ds, d = 0) : numberOf ds = 0 := by
  induction ds with
  | nil => rfl
  | cons d ds ih =>
      obtain ⟨rfl, hds⟩ := List.forall_mem_cons.mp h
      exact ih hds

theorem numberOf_digitsOf (n : Nat) : numberOf (Decimal.digitsOf n) = n := by
  rw [numberOf, Decimal.digitsOf, List.foldl_map]
  conv_rhs => rw [← Nat.ofDigitChars_ten_toDigits (n := n), Nat.ofDigitChars]
  congr 1
  funext n c
  exact congrArg (· + _) (Nat.mul_comm n 10)

/-- The zeros at the end of the digits are left off without changing the number. -/
theorem Decimal.value_ofScaled (n : Nat) (shift : Int) :
    (Decimal.ofScaled n shift).value = n * 10 ^ shift := by
  let ds := digitsOf n
  let kept := (ds.reverse.dropWhile (· == 0)).reverse
  let zeros := (ds.reverse.takeWhile (· == 0)).reverse
  have hsplit : ds = kept ++ zeros := by
    rw [← List.reverse_append, List.takeWhile_append_dropWhile, List.reverse_reverse]
  have hzeros : numberOf zeros = 0 := by
    refine numberOf_zeros fun d hd => ?_
    exact eq_of_beq (List.all_eq_true.mp List.all_takeWhile d (List.mem_reverse.mp hd))
  have hlength : ds.length = kept.length + zeros.length := by rw [hsplit, List.length_append]
  have hn : n = numberOf kept * 10 ^ zeros.length := by
    rw [← numberOf_digitsOf n]
    change numberOf ds = _
    rw [hsplit, numberOf_append, hzeros, Nat.add_zero]
  change (numberOf kept : ℚ) * 10 ^ (shift + (ds.length : Int) - kept.length) = n * 10 ^ shift
  have hexp : shift + (ds.length : Int) - kept.length = zeros.length + shift := by omega
  rw [hexp, zpow_add₀ (by norm_num), zpow_natCast, hn]
  push_cast
  ring

/-! ### The numbers that round to a double -/

namespace Double

/-- A positive mantissa and exponent as doubles have them: of 53 bits, or of fewer bits and with the
least exponent. -/
structure Normal (m : Nat) (q : Int) : Prop where
  pos : 0 < m
  lt : m < 2 ^ 53
  least : -1074 ≤ q
  full : q = -1074 ∨ 2 ^ 52 ≤ m

namespace Rounding

def Holds (r : Rounding) (x : ℚ) : Prop :=
  if r.closed then r.low * 2 ^ r.exponent ≤ x ∧ x ≤ r.high * 2 ^ r.exponent
  else r.low * 2 ^ r.exponent < x ∧ x < r.high * 2 ^ r.exponent

variable {m m' : Nat} {q q' : Int} {x : ℚ}

theorem Holds.le {r : Rounding} (h : r.Holds x) :
    r.low * 2 ^ r.exponent ≤ x ∧ x ≤ r.high * 2 ^ r.exponent := by
  unfold Holds at h
  split at h
  · exact h
  · exact ⟨h.1.le, h.2.le⟩

theorem Holds.lt {r : Rounding} (h : r.Holds x) (hopen : r.closed = false) :
    r.low * 2 ^ r.exponent < x ∧ x < r.high * 2 ^ r.exponent := by
  rwa [Holds, if_neg (by simp [hopen])] at h

/-- Where the interval of a greater double begins, that of a smaller one has ended; of two neighbours
one has an odd mantissa. -/
theorem high_le_low (h : Normal m q) (h' : Normal m' q') (hlt : q < q' ∨ q = q' ∧ m < m') :
    (of m q).high ≤ (of m' q').low * 2 ^ (q' - q).toNat ∧
      ((of m q).high = (of m' q').low * 2 ^ (q' - q).toNat → m % 2 = 1 ∨ m' % 2 = 1) := by
  have hpow : Nat.pow 2 52 = 2 ^ 52 := rfl
  have hm := h.lt
  have hfull := h.full
  have hfull' := h'.full
  have hleast := h.least
  simp only [of, hpow]
  rcases hlt with hlt | ⟨rfl, hlt⟩
  · have htwo : 2 ≤ 2 ^ (q' - q).toNat := by
      obtain ⟨n, hn⟩ : ∃ n, (q' - q).toNat = n + 1 := ⟨(q' - q).toNat - 1, by omega⟩
      rw [hn, Nat.pow_succ]
      have := Nat.one_le_two_pow (n := n)
      omega
    generalize hlow : (if m' = 2 ^ 52 ∧ -1074 < q' then 4 * m' - 1 else 4 * m' - 2) = low
    have hlow' : 2 ^ 54 - 1 ≤ low := by
      split at hlow <;> omega
    have hle : low * 2 ≤ low * 2 ^ (q' - q).toNat := Nat.mul_le_mul_left _ htwo
    omega
  · rw [if_neg (by omega), Int.sub_self, Int.toNat_zero, Nat.pow_zero, Nat.mul_one]
    omega

theorem not_holds_of_lt (h : Normal m q) (h' : Normal m' q') (hlt : q < q' ∨ q = q' ∧ m < m')
    (hx : (of m q).Holds x) : ¬ (of m' q').Holds x := by
  intro hx'
  obtain ⟨hle, hodd⟩ := high_le_low h h' hlt
  have hpos : (0 : ℚ) < 2 ^ (q - 2) := by positivity
  have hscale : (2 : ℚ) ^ (q' - 2) = 2 ^ (q' - q).toNat * 2 ^ (q - 2) := by
    rw [← zpow_natCast, ← zpow_add₀ (by norm_num)]
    congr 1
    omega
  have hhigh : x ≤ (of m q).high * 2 ^ (q - 2) := hx.le.2
  have hlow : ((of m' q').low * 2 ^ (q' - q).toNat : ℚ) * 2 ^ (q - 2) ≤ x := by
    rw [mul_assoc, ← hscale]
    exact hx'.le.1
  have hle' : ((of m q).high : ℚ) ≤ (of m' q').low * 2 ^ (q' - q).toNat := by exact_mod_cast hle
  have heq : ((of m q).high : ℚ) = (of m' q').low * 2 ^ (q' - q).toNat :=
    le_antisymm hle' (le_of_mul_le_mul_right (hlow.trans hhigh) hpos)
  -- the ends meet, so the one of the odd mantissa would have to be closed
  rcases hodd (by exact_mod_cast heq) with hm | hm
  · have hx : x < (of m q).high * 2 ^ (q - 2) := (hx.lt (by simp [of, hm])).2
    rw [heq] at hx
    exact absurd hx (not_lt.mpr hlow)
  · have hx' : (of m' q').low * 2 ^ (q' - 2) < x := (hx'.lt (by simp [of, hm])).1
    rw [hscale, ← mul_assoc, ← heq] at hx'
    exact absurd hx' (not_lt.mpr hhigh)

theorem holds_unique (h : Normal m q) (h' : Normal m' q') (hx : (of m q).Holds x)
    (hx' : (of m' q').Holds x) : m = m' ∧ q = q' := by
  by_cases hlt : q < q' ∨ q = q' ∧ m < m'
  · exact absurd hx' (not_holds_of_lt h h' hlt hx)
  · by_cases hgt : q' < q ∨ q' = q ∧ m' < m
    · exact absurd hx (not_holds_of_lt h' h hgt hx')
    · omega

end Rounding

/-! ### The search for a decimal -/

theorem zpow_mul_pow_toNat {b : ℚ} (hb : b ≠ 0) (e : Int) : b ^ e * b ^ (-e).toNat = b ^ e.toNat := by
  rw [← zpow_natCast, ← zpow_natCast, ← zpow_add₀ hb]
  congr 1
  omega

section Grid

variable {r : Rounding} {e shift : Int} {a b d : Nat}

/-- What quarters and grid points are multiplied with so that they are compared as whole numbers. -/
def scale (e shift : Int) : ℚ := 2 ^ (-e).toNat * 10 ^ (-shift).toNat

theorem scale_pos : 0 < scale e shift := by
  unfold scale
  positivity

theorem cast_quarter : ((a * (Nat.pow 2 e.toNat * Nat.pow 10 (-shift).toNat) : Nat) : ℚ) =
    a * 2 ^ e * scale e shift := by
  simp only [Nat.pow_eq, scale]
  push_cast
  rw [← zpow_mul_pow_toNat (by norm_num) e]
  ring

theorem cast_grid : ((d * (Nat.pow 10 shift.toNat * Nat.pow 2 (-e).toNat) : Nat) : ℚ) =
    d * 10 ^ shift * scale e shift := by
  simp only [Nat.pow_eq, scale]
  push_cast
  rw [← zpow_mul_pow_toNat (by norm_num) shift]
  ring

theorem quarter_le_grid_iff :
    a * (Nat.pow 2 e.toNat * Nat.pow 10 (-shift).toNat) ≤
        d * (Nat.pow 10 shift.toNat * Nat.pow 2 (-e).toNat) ↔
      (a : ℚ) * 2 ^ e ≤ d * 10 ^ shift := by
  rw [← Nat.cast_le (α := ℚ), cast_quarter, cast_grid, mul_le_mul_iff_of_pos_right scale_pos]

theorem grid_le_quarter_iff :
    d * (Nat.pow 10 shift.toNat * Nat.pow 2 (-e).toNat) ≤
        a * (Nat.pow 2 e.toNat * Nat.pow 10 (-shift).toNat) ↔
      (d : ℚ) * 10 ^ shift ≤ a * 2 ^ e := by
  rw [← Nat.cast_le (α := ℚ), cast_quarter, cast_grid, mul_le_mul_iff_of_pos_right scale_pos]

/-- Whether a grid point is in the interval. -/
def Rounding.inside (r : Rounding) (shift : Int) (d : Nat) : Bool :=
  let grid := Nat.pow 10 shift.toNat * Nat.pow 2 (-r.exponent).toNat
  let quarter := Nat.pow 2 r.exponent.toNat * Nat.pow 10 (-shift).toNat
  if r.closed then r.low * quarter ≤ d * grid && d * grid ≤ r.high * quarter
  else r.low * quarter < d * grid && d * grid < r.high * quarter

theorem Rounding.inside_iff : r.inside shift d = true ↔ r.Holds (d * 10 ^ shift) := by
  unfold inside Holds
  split
  · rw [Bool.and_eq_true, decide_eq_true_iff, decide_eq_true_iff, quarter_le_grid_iff,
      grid_le_quarter_iff]
  · rw [Bool.and_eq_true, decide_eq_true_iff, decide_eq_true_iff, ← Nat.not_le, ← Nat.not_le,
      quarter_le_grid_iff, grid_le_quarter_iff, not_le, not_le]

/-- The grid point below the middle of the interval. -/
def Rounding.below (r : Rounding) (shift : Int) : Nat :=
  r.middle * (Nat.pow 2 r.exponent.toNat * Nat.pow 10 (-shift).toNat) /
    (Nat.pow 10 shift.toNat * Nat.pow 2 (-r.exponent).toNat)

/-- The search tries the two grid points next to the middle. -/
theorem Rounding.decimal?_cases (r : Rounding) (k : Int) (n : Nat) :
    (∃ d, r.inside (k - n) d = true ∧ r.decimal? k n = some (.ofScaled d (k - n))) ∨
      (r.decimal? k n = none ∧ r.inside (k - n) (r.below (k - n)) = false ∧
        r.inside (k - n) (r.below (k - n) + 1) = false) := by
  have heq : ∃ (nearer : Prop) (_ : Decidable nearer), r.decimal? k n =
      if r.inside (k - n) (r.below (k - n)) ∧ (¬ r.inside (k - n) (r.below (k - n) + 1) ∨ nearer) then
        some (.ofScaled (r.below (k - n)) (k - n))
      else if r.inside (k - n) (r.below (k - n) + 1) then some (.ofScaled (r.below (k - n) + 1) (k - n))
      else none := ⟨_, _, rfl⟩
  obtain ⟨nearer, _, heq⟩ := heq
  rw [heq]
  split
  · next h => exact .inl ⟨_, h.1, rfl⟩
  · next h =>
      split
      · next hup => exact .inl ⟨_, hup, rfl⟩
      · next hup =>
          refine .inr ⟨rfl, ?_, Bool.eq_false_iff.mpr hup⟩
          exact Bool.eq_false_iff.mpr fun hdown => h ⟨hdown, .inl hup⟩

theorem Rounding.holds_of_decimal? {k : Int} {n : Nat} {dec : Decimal}
    (h : r.decimal? k n = some dec) : r.Holds dec.value := by
  rcases r.decimal?_cases k n with ⟨d, hd, hsome⟩ | ⟨hnone, -⟩
  · rw [h, Option.some.injEq] at hsome
    rw [hsome, Decimal.value_ofScaled]
    exact inside_iff.mp hd
  · rw [h] at hnone
    cases hnone

theorem Rounding.below_le (shift : Int) : (r.below shift : ℚ) * 10 ^ shift ≤ r.middle * 2 ^ r.exponent ∧
    r.middle * 2 ^ r.exponent < ((r.below shift + 1 : Nat) : ℚ) * 10 ^ shift := by
  have hgrid : 0 < Nat.pow 10 shift.toNat * Nat.pow 2 (-r.exponent).toNat :=
    Nat.mul_pos (Nat.pow_pos (by omega)) (Nat.pow_pos (by omega))
  constructor
  · exact grid_le_quarter_iff.mp (Nat.div_mul_le_self _ _)
  · rw [← not_le, ← grid_le_quarter_iff, not_le, Nat.mul_comm (_ + 1)]
    exact Nat.lt_mul_div_succ _ hgrid

/-- A grid with less space between its points than the interval is long has a point in it. -/
theorem Rounding.decimal?_ne_none {k : Int} {n : Nat} (hlow : r.low < r.middle) (hhigh : r.middle < r.high)
    (hfine : (10 : ℚ) ^ (k - n) < (r.high - r.low) * 2 ^ r.exponent) : r.decimal? k n ≠ none := by
  intro hnone
  rcases r.decimal?_cases k n with ⟨d, -, hsome⟩ | ⟨-, hdown, hup⟩
  · rw [hnone] at hsome
    cases hsome
  · obtain ⟨hle, hlt⟩ := r.below_le (k - n)
    have hpos : (0 : ℚ) < 2 ^ r.exponent := by positivity
    have hlow : (r.low : ℚ) * 2 ^ r.exponent < r.middle * 2 ^ r.exponent :=
      mul_lt_mul_of_pos_right (by exact_mod_cast hlow) hpos
    have hhigh : (r.middle : ℚ) * 2 ^ r.exponent < r.high * 2 ^ r.exponent :=
      mul_lt_mul_of_pos_right (by exact_mod_cast hhigh) hpos
    have hdown : (r.below (k - n) : ℚ) * 10 ^ (k - n) ≤ r.low * 2 ^ r.exponent := by
      by_contra hin
      refine Bool.eq_false_iff.mp hdown (inside_iff.mpr ?_)
      unfold Holds
      split
      · exact ⟨(not_le.mp hin).le, (hle.trans_lt hhigh).le⟩
      · exact ⟨not_le.mp hin, hle.trans_lt hhigh⟩
    have hup : r.high * 2 ^ r.exponent ≤ ((r.below (k - n) + 1 : Nat) : ℚ) * 10 ^ (k - n) := by
      by_contra hin
      refine Bool.eq_false_iff.mp hup (inside_iff.mpr ?_)
      unfold Holds
      split
      · exact ⟨(hlow.trans hlt).le, (not_le.mp hin).le⟩
      · exact ⟨hlow.trans hlt, not_le.mp hin⟩
    push_cast at hup
    linarith

end Grid

/-! ### Seventeen digits are enough -/

theorem length_digitsOf (n : Nat) : (Decimal.digitsOf n).length = (Nat.toDigits 10 n).length :=
  List.length_map _

theorem pow_length_digitsOf_le {n : Nat} (hn : 0 < n) : 10 ^ ((Decimal.digitsOf n).length - 1) ≤ n := by
  rw [length_digitsOf]
  by_contra h
  by_cases hl : (Nat.toDigits 10 n).length - 1 = 0
  · rw [hl] at h
    omega
  · have := (Nat.length_toDigits_le_iff (by omega : 1 < 10) (Nat.pos_of_ne_zero hl)).mpr (not_le.mp h)
    omega

theorem le_mul_pow_leadingZeros {num den : Nat} : ∀ {fuel : Nat}, den ≤ num * 10 ^ fuel →
    den ≤ num * 10 ^ leadingZeros num den fuel := by
  intro fuel
  induction fuel generalizing num with
  | zero => exact id
  | succ fuel ih =>
      intro h
      rw [leadingZeros]
      split
      · next hle => rwa [Nat.pow_zero, Nat.mul_one]
      · have h' : den ≤ num * 10 * 10 ^ fuel := by
          rwa [Nat.mul_assoc, ← Nat.pow_succ']
        have := ih h'
        rwa [Nat.mul_assoc, ← Nat.pow_succ'] at this

theorem two_pow_le_ten_pow {n k : Nat} (h : n ≤ 3 * k) : 2 ^ n ≤ 10 ^ k :=
  calc 2 ^ n ≤ 2 ^ (3 * k) := Nat.pow_le_pow_right (by decide) h
    _ = 8 ^ k := Nat.pow_mul 2 3 k
    _ ≤ 10 ^ k := Nat.pow_le_pow_left (by decide) k

theorem pow_decimalExponent_le {m : Nat} {q : Int} (h : Normal m q) :
    (10 : ℚ) ^ (decimalExponent (m * Nat.pow 2 q.toNat) (Nat.pow 2 (-q).toNat) - 1) ≤ m * 2 ^ q := by
  have hden : 0 < Nat.pow 2 (-q).toNat := Nat.pow_pos (by omega)
  have hden' : (0 : ℚ) < ((Nat.pow 2 (-q).toNat : Nat) : ℚ) := by exact_mod_cast hden
  have hq : ((m * Nat.pow 2 q.toNat : Nat) : ℚ) = m * 2 ^ q * (Nat.pow 2 (-q).toNat : Nat) := by
    simp only [Nat.pow_eq]
    push_cast
    rw [← zpow_mul_pow_toNat (by norm_num) q]
    ring
  rw [← mul_le_mul_iff_of_pos_right hden', ← hq]
  unfold decimalExponent
  split
  · next hle =>
      have hfloor : 0 < m * Nat.pow 2 q.toNat / Nat.pow 2 (-q).toNat := Nat.div_pos hle hden
      generalize hk : (Decimal.digitsOf (m * Nat.pow 2 q.toNat / Nat.pow 2 (-q).toNat)).length = k
      have hpow := pow_length_digitsOf_le hfloor
      rw [hk] at hpow
      have hk1 : 0 < k := by
        rw [← hk, length_digitsOf]
        exact List.length_pos_iff.mpr Nat.toDigits_ne_nil
      have hkk : ((k : Int) - 1) = ((k - 1 : Nat) : Int) := by omega
      rw [hkk, zpow_natCast]
      have := (Nat.mul_le_mul_right _ hpow).trans (Nat.div_mul_le_self _ _)
      exact_mod_cast this
  · have hfuel : Nat.pow 2 (-q).toNat ≤ m * Nat.pow 2 q.toNat * 10 ^ 400 := by
      have hq : (-q).toNat ≤ 3 * 400 := by
        have := h.least
        omega
      have hone : 1 ≤ m * Nat.pow 2 q.toNat := Nat.mul_pos h.pos (Nat.pow_pos (by omega))
      exact (two_pow_le_ten_pow hq).trans (Nat.le_mul_of_pos_left _ hone)
    have hzeros := le_mul_pow_leadingZeros hfuel
    generalize leadingZeros _ _ 400 = z at hzeros ⊢
    have hz : (1 : Int) - (z : Nat) - 1 = -(z : Nat) := by omega
    rw [hz, zpow_neg, zpow_natCast, inv_mul_le_iff₀ (by positivity), mul_comm]
    exact_mod_cast hzeros

theorem holds_shortest {m : Nat} {q : Int} (h : Normal m q) :
    (Rounding.of m q).Holds (shortest m q).value := by
  have hpos := h.pos
  have hm := h.lt
  have hpow : Nat.pow 2 52 = 2 ^ 52 := rfl
  generalize hk : decimalExponent (m * Nat.pow 2 q.toNat) (Nat.pow 2 (-q).toNat) = k
  have hle : (10 : ℚ) ^ (k - 1) ≤ m * 2 ^ q := hk ▸ pow_decimalExponent_le h
  have hwide : 4 * m + (Rounding.of m q).low * 10 ^ 16 < (Rounding.of m q).high * 10 ^ 16 := by
    simp only [Rounding.of, hpow]
    split <;> omega
  have hfine : (10 : ℚ) ^ (k - (16 + 1 : Nat)) <
      ((Rounding.of m q).high - (Rounding.of m q).low) * 2 ^ (Rounding.of m q).exponent := by
    have hquarter : (0 : ℚ) < 2 ^ (q - 2) := by positivity
    have hten : (10 : ℚ) ^ (k - (16 + 1 : Nat)) * 10 ^ 16 = 10 ^ (k - 1) := by
      rw [← zpow_natCast 10 16, ← zpow_add₀ (by norm_num)]
      congr 1
      omega
    have htwo : (2 : ℚ) ^ q = 4 * 2 ^ (q - 2) := by
      rw [zpow_sub₀ (by norm_num)]
      ring
    have hwide' : (4 * m + (Rounding.of m q).low * 10 ^ 16 : ℚ) < (Rounding.of m q).high * 10 ^ 16 := by
      exact_mod_cast hwide
    rw [← mul_lt_mul_iff_of_pos_right (show (0 : ℚ) < 10 ^ 16 by norm_num), hten]
    calc (10 : ℚ) ^ (k - 1) ≤ 4 * m * 2 ^ (q - 2) := by rw [htwo] at hle; linarith
      _ < ((Rounding.of m q).high * 10 ^ 16 - (Rounding.of m q).low * 10 ^ 16) * 2 ^ (q - 2) :=
          mul_lt_mul_of_pos_right (by linarith) hquarter
      _ = ((Rounding.of m q).high - (Rounding.of m q).low) * 2 ^ (q - 2) * 10 ^ 16 := by ring
  have hsome : (Rounding.of m q).decimal? k (16 + 1) ≠ none :=
    Rounding.decimal?_ne_none (by simp only [Rounding.of]; split <;> omega)
      (by simp only [Rounding.of]; omega) hfine
  have hshortest : shortest m q =
      ((List.range 17).findSome? fun i => (Rounding.of m q).decimal? k (i + 1)).getD (.ofScaled 0 0) := by
    rw [← hk]
    rfl
  rw [hshortest]
  cases hfound : (List.range 17).findSome? fun i => (Rounding.of m q).decimal? k (i + 1) with
  | none => exact absurd (List.findSome?_eq_none_iff.mp hfound 16 (by decide)) hsome
  | some dec =>
      obtain ⟨i, -, hi⟩ := List.exists_of_findSome?_eq_some hfound
      exact Rounding.holds_of_decimal? hi

theorem value_shortest_pos {m : Nat} {q : Int} (h : Normal m q) : 0 < (shortest m q).value := by
  have hlow : 0 < (Rounding.of m q).low := by
    have := h.pos
    simp only [Rounding.of]
    split <;> omega
  have hquarter : (0 : ℚ) < (Rounding.of m q).low * 2 ^ (Rounding.of m q).exponent := by positivity
  exact hquarter.trans_le (holds_shortest h).le.1

end Double

end TemplateCompiler
