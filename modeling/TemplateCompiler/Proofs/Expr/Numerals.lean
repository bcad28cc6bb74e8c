import TemplateCompiler.Proofs.Expr.Lexemes
import TemplateCompiler.Proofs.Expr.Spelling

/-!
# Which numerals are decimals

The reader of lexemes takes digits, points and exponents in any number and order for a numeral
(`Lexer.IsNumeral`), and the reader of numbers refuses some of them. It refuses exactly those that are no
decimals: with several points or exponents, or with a point behind the exponent (`Lexer.IsNumeral.isSome_read?`).
-/

namespace TemplateCompiler

/-! ### Numerals that are decimals -/

namespace Text

/-- A text with at most one point and at most one exponent, and with no point after the exponent. -/
structure IsDecimal (t : Text) : Prop where
  point : t.count '.'.toUInt8 ≤ 1
  exponent : t.countP isExponentMark ≤ 1
  order : '.'.toUInt8 ∉ t.dropWhile fun b => !isExponentMark b

/-- A digit is neither a point nor an exponent mark. -/
theorem ne_of_isDigitByte : ∀ b, isDigitByte b = true →
    b ≠ '.'.toUInt8 ∧ isExponentMark b = false ∧ isDigitOf 10 b = true :=
  forall_byte (by decide +kernel)

theorem isDigitOf_ten : isDigitOf 10 = isDigitByte :=
  funext (forall_byte (by decide +kernel))

theorem isDecimal_nil : IsDecimal [] := ⟨Nat.zero_le _, Nat.zero_le _, nofun⟩

theorem isDecimal_digits_append {ds t : Text} (h : AllDigits ds) : IsDecimal (ds ++ t) ↔ IsDecimal t := by
  have hpoint : (ds ++ t).count '.'.toUInt8 = t.count '.'.toUInt8 := by
    have hds : ds.count '.'.toUInt8 = 0 :=
      List.count_eq_zero.mpr fun hmem => (ne_of_isDigitByte _ (h _ hmem)).1 rfl
    rw [List.count_append, hds, Nat.zero_add]
  have hmark : (ds ++ t).countP isExponentMark = t.countP isExponentMark := by
    have hds : ds.countP isExponentMark = 0 :=
      List.countP_eq_zero.mpr fun b hb => by simp [(ne_of_isDigitByte b (h b hb)).2.1]
    rw [List.countP_append, hds, Nat.zero_add]
  have hdrop : (ds ++ t).dropWhile (fun b => !isExponentMark b) = t.dropWhile fun b => !isExponentMark b :=
    List.dropWhile_append_of_pos fun b hb => by simp [(ne_of_isDigitByte b (h b hb)).2.1]
  constructor
  · rintro ⟨h1, h2, h3⟩
    exact ⟨hpoint ▸ h1, hmark ▸ h2, hdrop ▸ h3⟩
  · rintro ⟨h1, h2, h3⟩
    exact ⟨hpoint ▸ h1, hmark ▸ h2, hdrop ▸ h3⟩

/-- Behind a point no further point may follow. -/
theorem isDecimal_point {t : Text} :
    IsDecimal ('.'.toUInt8 :: t) ↔ '.'.toUInt8 ∉ t ∧ t.countP isExponentMark ≤ 1 := by
  have hmark : isExponentMark '.'.toUInt8 = false := rfl
  constructor
  · rintro ⟨h1, h2, -⟩
    rw [List.count_cons_self] at h1
    rw [List.countP_cons_of_neg (by simp [hmark])] at h2
    exact ⟨List.count_eq_zero.mp (by omega), h2⟩
  · rintro ⟨h1, h2⟩
    refine ⟨by rw [List.count_cons_self, List.count_eq_zero.mpr h1], ?_, ?_⟩
    · rwa [List.countP_cons_of_neg (by simp [hmark])]
    · rw [List.dropWhile_cons_of_pos (by simp [hmark])]
      exact fun h => h1 ((List.dropWhile_sublist _).subset h)

/-- Behind an exponent mark neither a point nor a mark may follow. -/
theorem isDecimal_mark {m : UInt8} {t : Text} (hm : isExponentMark m = true) :
    IsDecimal (m :: t) ↔ '.'.toUInt8 ∉ t ∧ ∀ b ∈ t, isExponentMark b = false := by
  have hne : m ≠ '.'.toUInt8 := by
    rintro rfl
    cases hm
  constructor
  · rintro ⟨-, h2, h3⟩
    rw [List.dropWhile_cons_of_neg (by simp [hm])] at h3
    rw [List.countP_cons_of_pos hm] at h2
    have hnone : t.countP isExponentMark = 0 := by omega
    exact ⟨fun h => h3 (List.mem_cons_of_mem m h), fun b hb => by simpa using List.countP_eq_zero.mp hnone b hb⟩
  · rintro ⟨h1, h2⟩
    have hnone : t.countP isExponentMark = 0 := List.countP_eq_zero.mpr fun b hb => by simp [h2 b hb]
    refine ⟨?_, ?_, ?_⟩
    · rw [List.count_cons_of_ne hne, List.count_eq_zero.mpr h1]
      exact Nat.zero_le 1
    · rw [List.countP_cons_of_pos hm, hnone]
    · rw [List.dropWhile_cons_of_neg (by simp [hm]), List.mem_cons, not_or]
      exact ⟨hne.symm, h1⟩

end Text

namespace Lexer

open Text

/-- A numeral: it starts with a digit, or with a point and a digit. -/
inductive IsNumeral : Text → Prop
  | whole {b : UInt8} {r : Text} : isDigitByte b = true → NumeralRest r → IsNumeral (b :: r)
  | fraction {d : UInt8} {r : Text} : isDigitByte d = true → NumeralRest r →
      IsNumeral ('.'.toUInt8 :: d :: r)

def IsNumeralByte (b : UInt8) : Prop :=
  isDigitByte b = true ∨ isExponentMark b = true ∨ b ∈ (".+-" : Text)

instance (b : UInt8) : Decidable (IsNumeralByte b) := inferInstanceAs (Decidable (_ ∨ _ ∨ _))

namespace NumeralRest

variable {r : Text}

theorem split (h : NumeralRest r) : ∃ ds s, r = ds ++ s ∧ AllDigits ds ∧ NumeralRest s ∧
    ∀ b ∈ s.head?, isDigitByte b = false := by
  induction h with
  | nil => exact ⟨[], [], rfl, nofun, .nil, nofun⟩
  | digit hb _ ih =>
      obtain ⟨ds, s, rfl, hds, hs, hhead⟩ := ih
      exact ⟨_ :: ds, s, rfl, List.forall_mem_cons.mpr ⟨hb, hds⟩, hs, hhead⟩
  | point hr => exact ⟨[], _, rfl, nofun, .point hr, by rintro _ ⟨⟩; rfl⟩
  | @exponent m d r sign hm hsign hd hr =>
      refine ⟨[], _, rfl, nofun, .exponent sign hm hsign hd hr, ?_⟩
      rintro _ ⟨⟩
      cases hdigit : isDigitByte m with
      | true => rw [(ne_of_isDigitByte m hdigit).2.1] at hm; cases hm
      | false => rfl

/-- Without points and exponents only digits are left. -/
theorem allDigits_iff (h : NumeralRest r) :
    AllDigits r ↔ '.'.toUInt8 ∉ r ∧ ∀ b ∈ r, isExponentMark b = false := by
  constructor
  · intro hr
    exact ⟨fun hmem => (ne_of_isDigitByte _ (hr _ hmem)).1 rfl, fun b hb => (ne_of_isDigitByte b (hr b hb)).2.1⟩
  · rintro ⟨hpoint, hmark⟩
    induction h with
    | nil => exact nofun
    | digit hb _ ih =>
        exact List.forall_mem_cons.mpr
          ⟨hb, ih (fun h => hpoint (List.mem_cons_of_mem _ h)) fun b h => hmark b (List.mem_cons_of_mem _ h)⟩
    | point => exact absurd List.mem_cons_self hpoint
    | exponent _ hm =>
        rw [hmark _ List.mem_cons_self] at hm
        cases hm

theorem isNumeralByte (h : NumeralRest r) : ∀ b ∈ r, IsNumeralByte b := by
  induction h with
  | nil => exact nofun
  | digit hb _ ih => exact List.forall_mem_cons.mpr ⟨.inl hb, ih⟩
  | point _ ih => exact List.forall_mem_cons.mpr ⟨.inr (.inr (by decide)), ih⟩
  | exponent sign hm hsign hd _ ih =>
      have hsigns : ∀ sign ∈ ([[], "+", "-"] : List Text), ∀ b ∈ sign, b ∈ (".+-" : Text) := by
        decide +kernel
      refine List.forall_mem_cons.mpr ⟨.inr (.inl hm), List.forall_mem_append.mpr ⟨?_, ?_⟩⟩
      · exact fun b hb => .inr (.inr (hsigns _ hsign b hb))
      · exact List.forall_mem_cons.mpr ⟨.inl hd, ih⟩

end NumeralRest

/-! ### Reading a numeral -/

theorem isSome_readExponent? {m d : UInt8} {sign r : Text} (hm : isExponentMark m = true)
    (hsign : sign ∈ ([[], "+", "-"] : List Text)) (hd : isDigitByte d = true) :
    (Double.readExponent? 'e'.toUInt8 (m :: (sign ++ d :: r))).isSome = true ↔ AllDigits (d :: r) := by
  have hmark : ∀ m, isExponentMark m = true → lowerAscii [m] = ['e'.toUInt8] :=
    forall_byte (by decide +kernel)
  have hdigit : ∀ d, isDigitByte d = true → d ≠ '-'.toUInt8 ∧ d ≠ '+'.toUInt8 :=
    forall_byte (by decide +kernel)
  have hunsigned : ∃ negative, unsigned (sign ++ d :: r) = (negative, d :: r) := by
    simp only [List.mem_cons, List.not_mem_nil, or_false] at hsign
    rcases hsign with rfl | rfl | rfl
    · exact ⟨false, by simp [unsigned, hdigit d hd]⟩
    · exact ⟨false, rfl⟩
    · exact ⟨true, rfl⟩
  obtain ⟨negative, hunsigned⟩ := hunsigned
  simp only [Double.readExponent?, hunsigned, hmark m hm, isDigitOf_ten, AllDigits]
  simp [hd]

/-- What may stand behind the digits of a decimal. -/
def EndsDecimal (t : Text) : Prop := t = [] ∨ (Double.readExponent? 'e'.toUInt8 t).isSome = true

/-- Behind the digits, a decimal goes on with an exponent or not at all. -/
theorem NumeralRest.endsDecimal_iff {t : Text} (h : NumeralRest t) (hhead : ∀ b ∈ t.head?, isDigitByte b = false) :
    EndsDecimal t ↔ '.'.toUInt8 ∉ t ∧ IsDecimal t := by
  cases h with
  | nil => exact ⟨fun _ => ⟨nofun, isDecimal_nil⟩, fun _ => .inl rfl⟩
  | digit hb => exact absurd hb (by simp [hhead _ rfl])
  | point hr =>
      have hlower : lowerAscii ['.'.toUInt8] ≠ ['e'.toUInt8] := by decide
      constructor
      · rintro (h | h)
        · cases h
        · simp [Double.readExponent?, hlower] at h
      · exact fun h => absurd List.mem_cons_self h.1
  | @exponent m d r sign hm hsign hd hr =>
      have hne : '.'.toUInt8 ≠ m := by
        rintro rfl
        cases hm
      have hsigns : ∀ sign ∈ ([[], "+", "-"] : List Text), '.'.toUInt8 ∉ sign ∧
          ∀ b ∈ sign, isExponentMark b = false := by decide +kernel
      have hplain : ('.'.toUInt8 ∉ sign ++ d :: r ∧ ∀ b ∈ sign ++ d :: r, isExponentMark b = false) ↔
          AllDigits (d :: r) := by
        rw [(NumeralRest.digit hd hr).allDigits_iff, List.mem_append, List.forall_mem_append, not_or]
        obtain ⟨hpoint, hmark⟩ := hsigns sign hsign
        exact ⟨fun h => ⟨h.1.2, h.2.2⟩, fun h => ⟨⟨hpoint, h.1⟩, hmark, h.2⟩⟩
      rw [isDecimal_mark hm, hplain, EndsDecimal, isSome_readExponent? hm hsign hd, List.mem_cons, not_or]
      constructor
      · rintro (h | h)
        · cases h
        · exact ⟨⟨hne, (hplain.mpr h).1⟩, h⟩
      · exact fun h => .inr h.2

/-- Digits are read if there are any and a decimal may end behind them. -/
theorem isSome_readDigits? (negative : Bool) (t : Text) :
    (Double.readDigits? .decimal negative t).isSome = true ↔
      t.numeralParts.1 ++ t.numeralParts.2.1 ≠ [] ∧ EndsDecimal t.numeralParts.2.2 := by
  have hends : ∀ tail : Text, (if tail.isEmpty && !false then some (0 : Int)
      else Double.readExponent? 'e'.toUInt8 tail).isSome = true ↔ EndsDecimal tail := by
    intro tail
    cases tail with
    | nil => simp [EndsDecimal]
    | cons => simp [EndsDecimal]
  have hparts : ∀ digits tail : Text, ∀ f : Int → Double, (if digits.isEmpty then none
      else (if tail.isEmpty && !false then some (0 : Int)
        else Double.readExponent? 'e'.toUInt8 tail).map f).isSome = true ↔ digits ≠ [] ∧ EndsDecimal tail := by
    intro digits tail f
    rw [← hends tail]
    cases digits with
    | nil => simp
    | cons => simp
  rw [Double.readDigits?, numeralParts]
  simp only [Double.Base.decimal, isDigitOf_ten]
  cases t.dropWhile isDigitByte with
  | nil => exact hparts _ _ _
  | cons c r =>
      by_cases hc : c = '.'.toUInt8
      · simp only [hc, beq_self_eq_true, if_true]
        exact hparts _ _ _
      · simp only [beq_false_of_ne hc, Bool.false_eq_true, if_false, if_neg hc]
        exact hparts _ _ _

theorem separated_of_notMem (base : Nat) {t : Text} (h : '_'.toUInt8 ∉ t) (after : Bool) :
    separated base after t = true := by
  induction t generalizing after with
  | nil => rfl
  | cons b t ih =>
      obtain ⟨hb, ht⟩ := not_or.mp (mt List.mem_cons.mpr h)
      rw [separated, if_neg (by simpa using Ne.symm hb), ih ht]

namespace IsNumeral

variable {t : Text}

theorem isNumeralByte (h : IsNumeral t) : ∀ b ∈ t, IsNumeralByte b := by
  cases h with
  | whole hb hr => exact (NumeralRest.digit hb hr).isNumeralByte
  | fraction hd hr => exact (NumeralRest.point (.digit hd hr)).isNumeralByte

theorem head (h : IsNumeral t) : ∃ b r, t = b :: r ∧ (isDigitByte b = true ∨ b = '.'.toUInt8) := by
  cases h with
  | whole hb _ => exact ⟨_, _, rfl, .inl hb⟩
  | fraction => exact ⟨_, _, rfl, .inr rfl⟩

/-- A numeral is read as digits, in base ten. -/
theorem read?_eq (h : IsNumeral t) : Double.read? t = Double.readDigits? .decimal false t := by
  have hbytes : ∀ b ∈ t, b ≠ '_'.toUInt8 ∧ lowerAscii [b] ≠ ['x'.toUInt8] := by
    have hall : ∀ b, IsNumeralByte b → b ≠ '_'.toUInt8 ∧ lowerAscii [b] ≠ ['x'.toUInt8] :=
      forall_byte (by decide +kernel)
    exact fun b hb => hall b (h.isNumeralByte b hb)
  obtain ⟨hunsigned, hwords⟩ : t.unsigned = (false, t) ∧
      ∀ w ∈ (["inf", "infinity", "nan"] : List Text), t.lowerAscii ≠ w := by
    obtain ⟨b, r, rfl, hb⟩ := h.head
    have hall : ∀ b, isDigitByte b = true ∨ b = '.'.toUInt8 → b ≠ '-'.toUInt8 ∧ b ≠ '+'.toUInt8 ∧
        ∀ w ∈ (["inf", "infinity", "nan"] : List Text), (lowerAscii [b]).head? ≠ w.head? :=
      forall_byte (by decide +kernel)
    obtain ⟨hminus, hplus, hword⟩ := hall b hb
    exact ⟨by simp [unsigned, hminus, hplus], fun w hw heq => hword w hw (heq ▸ rfl)⟩
  have hhex : (lowerAscii (t.take 2) == ("0x" : Text)) = false := by
    refine beq_false_of_ne fun heq => ?_
    have hmem : 'x'.toUInt8 ∈ lowerAscii (t.take 2) := heq ▸ (by decide : 'x'.toUInt8 ∈ ("0x" : Text))
    obtain ⟨b, hb, hx⟩ := List.mem_map.mp hmem
    exact (hbytes b (List.mem_of_mem_take hb)).2 (congrArg ([·]) hx)
  have hseparated : separated Double.Base.decimal.base false t = true :=
    separated_of_notMem _ (fun hmem => (hbytes _ hmem).1 rfl) false
  have hfilter : t.filter (· != '_'.toUInt8) = t :=
    List.filter_eq_self.mpr fun b hb => bne_iff_ne.mpr (hbytes b hb).1
  rw [Double.read?, hunsigned]
  simp only [beq_false_of_ne (hwords "inf" (by decide)), beq_false_of_ne (hwords "infinity" (by decide)),
    beq_false_of_ne (hwords "nan" (by decide)), Bool.or_self, Bool.false_eq_true, if_false,
    Double.readUnsigned?, hhex]
  rw [if_pos hseparated, hfilter]

end IsNumeral

/-- Digits without a point behind them. -/
theorem isSome_readDigits?_whole {ds s : Text} (hds : AllDigits ds) (hne : ds ≠ []) (hs : NumeralRest s)
    (hstops : Stops s) :
    (Double.readDigits? .decimal false (ds ++ s)).isSome = true ↔ IsDecimal (ds ++ s) := by
  rw [isSome_readDigits?, numeralParts_whole hds hstops, isDecimal_digits_append hds,
    hs.endsDecimal_iff fun b hb => (hstops b hb).1]
  have hpoint : IsDecimal s → '.'.toUInt8 ∉ s := by
    intro h
    cases hs with
    | nil => exact nofun
    | digit hb => exact absurd hb (by simp [(hstops _ rfl).1])
    | point => exact absurd rfl (hstops _ rfl).2
    | exponent sign hm _ _ _ =>
        rw [List.mem_cons, not_or]
        exact ⟨(hstops _ rfl).2.symm, ((isDecimal_mark hm).mp h).1⟩
  constructor
  · exact fun h => h.2.2
  · exact fun h => ⟨by simpa using hne, hpoint h, h⟩

theorem isSome_readDigits?_point {ds fs s : Text} (hds : AllDigits ds) (hfs : AllDigits fs)
    (hne : ds ++ fs ≠ []) (hs : NumeralRest s) (hhead : ∀ b ∈ s.head?, isDigitByte b = false) :
    (Double.readDigits? .decimal false (ds ++ '.'.toUInt8 :: (fs ++ s))).isSome = true ↔
      IsDecimal (ds ++ '.'.toUInt8 :: (fs ++ s)) := by
  have hpoint : '.'.toUInt8 ∉ fs := fun h => (ne_of_isDigitByte _ (hfs _ h)).1 rfl
  have hmark : fs.countP isExponentMark = 0 :=
    List.countP_eq_zero.mpr fun b hb => by simp [(ne_of_isDigitByte b (hfs b hb)).2.1]
  rw [isSome_readDigits?, numeralParts_point hds hfs hhead, isDecimal_digits_append hds, isDecimal_point,
    hs.endsDecimal_iff hhead, List.mem_append, List.countP_append, hmark, Nat.zero_add]
  constructor
  · rintro ⟨-, h, hdecimal⟩
    exact ⟨not_or.mpr ⟨hpoint, h⟩, hdecimal.exponent⟩
  · rintro ⟨h, hexponent⟩
    have hs : '.'.toUInt8 ∉ s := (not_or.mp h).2
    refine ⟨hne, hs, ?_, hexponent, fun hmem => hs ((List.dropWhile_sublist _).subset hmem)⟩
    rw [List.count_eq_zero.mpr hs]
    exact Nat.zero_le 1

theorem IsNumeral.isSome_read? {t : Text} (h : IsNumeral t) :
    (Double.read? t).isSome = true ↔ IsDecimal t := by
  rw [h.read?_eq]
  cases h with
  | whole hb hr =>
      obtain ⟨ds, s, rfl, hds, hs, hhead⟩ := hr.split
      have hall : AllDigits (_ :: ds) := List.forall_mem_cons.mpr ⟨hb, hds⟩
      cases hs with
      | nil => exact isSome_readDigits?_whole hall (List.cons_ne_nil _ _) .nil nofun
      | digit hc => exact absurd hc (by simp [hhead _ rfl])
      | point hrest =>
          obtain ⟨fs, s, rfl, hfs, hs, hhead⟩ := hrest.split
          exact isSome_readDigits?_point hall hfs (List.cons_ne_nil _ _) hs hhead
      | exponent sign hm hsign hd hrest =>
          refine isSome_readDigits?_whole hall (List.cons_ne_nil _ _) (.exponent sign hm hsign hd hrest) ?_
          rintro m ⟨⟩
          refine ⟨hhead _ rfl, ?_⟩
          rintro rfl
          cases hm
  | fraction hd hr =>
      obtain ⟨fs, s, rfl, hfs, hs, hhead⟩ := hr.split
      have hempty : AllDigits [] := nofun
      exact isSome_readDigits?_point hempty (List.forall_mem_cons.mpr ⟨hd, hfs⟩) (List.cons_ne_nil _ _) hs hhead

end Lexer

end TemplateCompiler
