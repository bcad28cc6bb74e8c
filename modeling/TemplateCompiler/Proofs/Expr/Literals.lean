import TemplateCompiler.Proofs.Expr.Numerals
import TemplateCompiler.Proofs.Expr.Tiling

/-!
# Literals

What the number and string tokens of a text stand for, and how they have to be written.

* An escaped text is read back as one string literal, if it has no zero byte
  (`tokenize_escapeIdentifier_iff`).
* `Literal source l` : a literal is a numeral with its value, or a quotation with the text it stands for. The
  reader finds no other literals (`literal_scan`).
* `Token.WellFormed` : a numeral is a decimal and a whole number fits its word, an escape has four digits. Not
  every token is well-formed, since the conversions fall back to a value where they cannot convert. The tokens
  that are well-formed are those whose conversion succeeds, for strings those without a sign in an escape
  (`converted_of_mem_tokenize`).
-/

namespace TemplateCompiler

open Lexer

/-! ### Escaped strings -/

namespace Lexer

/-- A zero byte ends the text within a string literal. -/
theorem quoted_of_mem_zero (dollar : Bool) {t : Text} (ht : 0 ∈ t) (rest : Text) :
    ∃ p, quoted '\''.toUInt8 (t.flatMap (escapeByte dollar) ++ rest) = .failed "Unterminated quote" p := by
  induction t with
  | nil => cases ht
  | cons b t ih =>
      by_cases hb : b = 0
      · subst hb
        have hescape : escapeByte dollar 0 = [0] := by cases dollar <;> rfl
        refine ⟨0, ?_⟩
        have hquote : ¬ (0 : UInt8) = '\''.toUInt8 := by decide
        have hbackslash : ¬ (0 : UInt8) = '\\'.toUInt8 := by decide
        rw [List.flatMap_cons, hescape, List.append_assoc, List.singleton_append, quoted.eq_def]
        simp [hquote, hbackslash]
      · obtain ⟨p, hp⟩ := ih ((List.mem_cons.mp ht).resolve_left (Ne.symm hb))
        rw [List.flatMap_cons, List.append_assoc, quoted_escapeByte dollar hb, hp]
        exact ⟨_, rfl⟩

/-- A text that starts with a quote is one token if the literal takes all of it. -/
theorem tokenize_quote (r : Text) : tokenize ('\''.toUInt8 :: r) =
    match quoted '\''.toUInt8 r with
    | .closed value width =>
      ⟨0, width + 1, .string value⟩ :: tokensFrom ('\''.toUInt8 :: r) 1 width r
    | .failed reason position =>
      [errorToken ('\''.toUInt8 :: r) reason (position + 1) (position + 1)] := by
  have hscan : scan '\''.toUInt8 r = scanString '\''.toUInt8 r := rfl
  have hseparator : ¬ isSeparator '\''.toUInt8 = true := by decide
  rw [tokenize, tokensFrom, if_neg hseparator, hscan, scanString]
  cases quoted '\''.toUInt8 r <;> simp

end Lexer

/-- Exactly the texts without zero bytes are read back from their escaped form, as one string literal that
takes all of it. -/
theorem tokenize_escapeIdentifier_iff (t : Text) (dollar : Bool) :
    tokenize (escapeIdentifier t dollar true) =
      [⟨0, (escapeIdentifier t dollar true).length, .string t⟩] ↔ 0 ∉ t := by
  have htext : escapeIdentifier t dollar true =
      '\''.toUInt8 :: (t.flatMap (escapeByte dollar) ++ ['\''.toUInt8]) := rfl
  rw [htext, tokenize_quote]
  constructor
  · intro h hzero
    obtain ⟨p, hp⟩ := quoted_of_mem_zero dollar hzero ['\''.toUInt8]
    rw [hp] at h
    cases h
  · intro hzero
    rw [quoted_escaped dollar hzero]
    have hend := tokensFrom_taken ('\''.toUInt8 :: (t.flatMap (escapeByte dollar) ++ ['\''.toUInt8]))
      (t.flatMap (escapeByte dollar) ++ ['\''.toUInt8]) [] 1
    rw [List.append_nil, List.length_append, List.length_singleton] at hend
    dsimp only
    rw [hend, tokensFrom, List.length_cons, List.length_append, List.length_singleton]

/-! ### How literals are written -/

namespace Text

/-- The word that digits are converted to: a number that is too large becomes the largest word. -/
def wholeWord (t : Text) : Nat := min (t.number 10) Word.largest.toNat

/-- What stands behind each `\u`, up to four bytes. A backslash takes the byte behind it along. -/
def unicodeEscapes : Text → List Text
  | b :: c :: r =>
    if b = '\\'.toUInt8 then
      if c = 'u'.toUInt8 then r.take 4 :: unicodeEscapes r else unicodeEscapes r
    else unicodeEscapes (c :: r)
  | _ => []

theorem wholeWord_eq_iff (t : Text) : t.wholeWord = t.number 10 ↔ (t.number 10 : Int) ≤ Word.largest := by
  rw [wholeWord, min_eq_left_iff, Int.le_toNat (by decide)]

theorem isDecimal_of_allDigits {t : Text} (h : AllDigits t) : IsDecimal t := by
  have hdecimal := (isDecimal_digits_append (t := []) h).mpr isDecimal_nil
  rwa [List.append_nil] at hdecimal

theorem unicodeEscapes_cons_of_ne {b : UInt8} (hb : b ≠ '\\'.toUInt8) (t : Text) :
    unicodeEscapes (b :: t) = unicodeEscapes t := by
  cases t with
  | nil => rfl
  | cons c r => rw [unicodeEscapes, if_neg hb]

theorem unicodeEscapes_append_of_notMem {ds : Text} (hds : '\\'.toUInt8 ∉ ds) (t : Text) :
    unicodeEscapes (ds ++ t) = unicodeEscapes t := by
  induction ds with
  | nil => rfl
  | cons b ds ih =>
      obtain ⟨hb, hds⟩ := not_or.mp (mt List.mem_cons.mpr hds)
      rw [List.cons_append, unicodeEscapes_cons_of_ne (Ne.symm hb), ih hds]

def IsHexadecimal (t : Text) : Prop := ∀ b ∈ t, isDigitOf 16 b = true

theorem isDigitOf_sixteen : ∀ b, isDigitOf 16 b = (digit? b).isSome :=
  forall_byte (by decide +kernel)

end Text

/-- A numeral is a decimal, and the word of a whole number is the number it spells; an escape in a string has
four hexadecimal digits. -/
def Token.WellFormed (input : Text) (t : Token) : Prop :=
  match t.lexeme with
  | .number _ => (t.source input).IsDecimal ∧
      ((t.source input).AllDigits → (t.source input).wholeWord = (t.source input).number 10)
  | .string _ => ∀ e ∈ (t.source input).unicodeEscapes, e.length = 4 ∧ e.IsHexadecimal
  | _ => True

theorem Token.wellFormed_number {input : Text} {t : Token} {d : Double} (h : t.lexeme = .number d) :
    t.WellFormed input ↔ (t.source input).IsDecimal ∧
      ((t.source input).AllDigits → (t.source input).wholeWord = (t.source input).number 10) := by
  rw [Token.WellFormed, h]

theorem Token.wellFormed_string {input : Text} {t : Token} {v : Text} (h : t.lexeme = .string v) :
    t.WellFormed input ↔ ∀ e ∈ (t.source input).unicodeEscapes, e.length = 4 ∧ e.IsHexadecimal := by
  rw [Token.WellFormed, h]

namespace Lexer

open Text

/-! ### Code units -/

theorem isSome_hexValue? (ds : Text) : (hexValue? ds).isSome = true ↔ ds ≠ [] ∧ ds.IsHexadecimal := by
  have hfold : ∀ n : Nat, (ds.foldlM (fun n b => (digit? b).map fun d => n * 16 + d) n).isSome = true ↔
      ds.IsHexadecimal := by
    induction ds with
    | nil => exact fun n => ⟨fun _ => nofun, fun _ => rfl⟩
    | cons b ds ih =>
        intro n
        rw [List.foldlM_cons, IsHexadecimal, List.forall_mem_cons, isDigitOf_sixteen b]
        cases digit? b with
        | none => simp
        | some d => simpa [IsHexadecimal] using ih _
  rw [hexValue?]
  cases ds with
  | nil => simp
  | cons b ds => simpa using hfold 0

/-- Behind the first byte of a code unit all are hexadecimal digits, and the first is one unless it is a
sign. -/
theorem isHexadecimal_iff_of_codeUnit? {e : Text} (h : (codeUnit? e).isSome = true) :
    IsHexadecimal e.tail ∧ (e.IsHexadecimal ↔ ∀ b ∈ e.head?, b ≠ '+'.toUInt8 ∧ b ≠ '-'.toUInt8) := by
  have hsigns : isDigitOf 16 '+'.toUInt8 = false ∧ isDigitOf 16 '-'.toUInt8 = false := by decide
  cases e with
  | nil => cases h
  | cons s r =>
      rw [codeUnit?] at h
      by_cases hminus : s = '-'.toUInt8
      · subst hminus
        have hr : (hexValue? r).isSome = true := by
          cases hvalue : hexValue? r with
          | none => simp [hvalue] at h
          | some n => rfl
        refine ⟨((isSome_hexValue? r).mp hr).2, ?_⟩
        simp [IsHexadecimal, hsigns.2]
      by_cases hplus : s = '+'.toUInt8
      · subst hplus
        have hr : (hexValue? r).isSome = true := by simpa [hminus] using h
        refine ⟨((isSome_hexValue? r).mp hr).2, ?_⟩
        simp [IsHexadecimal, hsigns.1]
      · have hr : (hexValue? (s :: r)).isSome = true := by simpa [hminus, hplus] using h
        have hhex := ((isSome_hexValue? (s :: r)).mp hr).2
        exact ⟨(List.forall_mem_cons.mp hhex).2, fun _ => by simp [hminus, hplus], fun _ => hhex⟩

theorem notMem_backslash_of_codeUnit? {e : Text} (h : (codeUnit? e).isSome = true) : '\\'.toUInt8 ∉ e := by
  intro hmem
  obtain ⟨htail, hhead⟩ := isHexadecimal_iff_of_codeUnit? h
  have hdigit : ¬ isDigitOf 16 '\\'.toUInt8 = true := by decide
  cases e with
  | nil => cases hmem
  | cons s r =>
      rcases List.mem_cons.mp hmem with rfl | hmem
      · have hhex := hhead.mpr (by rintro _ ⟨⟩; decide)
        exact hdigit (hhex _ List.mem_cons_self)
      · exact hdigit (htail _ hmem)

/-! ### How literals are read -/

/-- A quotation that is accepted has four bytes behind each `\u`, which make a code unit. -/
theorem Quotation.escapes {quote : UInt8} {body value : Text} (h : Quotation quote body value) :
    ∀ e ∈ unicodeEscapes (body ++ [quote]), e.length = 4 ∧ (codeUnit? e).isSome = true := by
  induction h with
  | nil => exact nofun
  | plain _ hbackslash _ _ ih => rwa [List.cons_append, unicodeEscapes_cons_of_ne hbackslash]
  | escape hc _ ih => rwa [List.cons_append, List.cons_append, unicodeEscapes, if_pos rfl, if_neg hc]
  | unicode ds hlength hunit _ ih =>
      have hsome : (codeUnit? ds).isSome = true := by rw [hunit]; rfl
      have hbackslash : '\\'.toUInt8 ∉ ds := notMem_backslash_of_codeUnit? hsome
      rw [List.cons_append, List.cons_append, List.append_assoc, unicodeEscapes, if_pos rfl, if_pos rfl,
        unicodeEscapes_append_of_notMem hbackslash, List.take_left' hlength]
      exact List.forall_mem_cons.mpr ⟨⟨hlength, hsome⟩, ih⟩

/-- What a literal is read from, and what it stands for. -/
inductive Literal (source : Text) : Lexeme → Prop
  | number : IsNumeral source → Literal source (.number (numeralValue (source.all isDigitByte) source))
  | string {quote : UInt8} {body value : Text} : source = quote :: (body ++ [quote]) → quote ≠ '\\'.toUInt8 →
      Quotation quote body value → Literal source (.string value)

theorem numeralValue_whole (t : Text) : numeralValue true t = .ofNat t.wholeWord := by
  have hlargest : Nat.pow 2 63 - 1 = Word.largest.toNat := by decide
  rw [numeralValue, if_pos rfl, hlargest, wholeWord]

theorem numeralValue_decimal (t : Text) : numeralValue false t = (Double.read? t).getD .zero := rfl

theorem Literal.of_number {source : Text} {d : Double} (h : Literal source (.number d)) :
    IsNumeral source ∧ d = numeralValue (source.all isDigitByte) source := by
  cases h with
  | number h => exact ⟨h, rfl⟩

/-- The opening quote has no part in an escape. -/
theorem Literal.of_string {source v : Text} (h : Literal source (.string v)) :
    ∀ e ∈ source.unicodeEscapes, e.length = 4 ∧ (codeUnit? e).isSome = true := by
  cases h with
  | string hsource hquote hbody =>
      rw [hsource, unicodeEscapes_cons_of_ne hquote]
      exact hbody.escapes

variable {b : UInt8} {r : Text} {l : Lexeme} {width : Nat}

/-- A numeral with its first bytes. -/
theorem literal_number {front rest : Text} (hr : b :: r = front ++ rest)
    (hnumeral : ∀ s, NumeralRest s → IsNumeral (front ++ s))
    (h : scanNumber front (front.all isDigitByte) rest = .lexeme l width) : Literal (b :: r.take width) l := by
  rw [scanNumber] at h
  split at h
  · next w digits hends =>
      obtain ⟨-, hrest, rfl⟩ := numeral_ends hends
      have hfront : 0 < front.length := by
        obtain ⟨c, s, hcons, -⟩ := (hnumeral [] .nil).head
        rw [← List.append_nil front, hcons]
        exact Nat.succ_pos _
      have hwidth : w + front.length - 1 + 1 = front.length + w := by omega
      cases h
      rw [← List.take_succ_cons, hr, hwidth, List.take_length_add_append, ← List.all_append]
      exact .number (hnumeral _ hrest)
  · cases h

theorem literal_string (hb : b = '\''.toUInt8 ∨ b = '"'.toUInt8) (h : scanString b r = .lexeme l width) :
    Literal (b :: r.take width) l := by
  rw [scanString] at h
  split at h
  · next hclosed =>
      obtain ⟨body, rest, rfl, rfl, hbody⟩ := quoted_closed hclosed
      cases h
      have hquote : b ≠ '\\'.toUInt8 := by
        rcases hb with rfl | rfl <;> decide
      have hsource : b :: (body ++ b :: rest).take (body.length + 1) = b :: (body ++ [b]) := by
        rw [List.append_cons, List.take_left' (by simp)]
      exact .string hsource hquote hbody
  · cases h

/-- A lexeme that does not stand for its own bytes is a literal. -/
theorem literal_scan (h : scan b r = .lexeme l width) (hl : l.verbatim? = none) :
    Literal (b :: r.take width) l := by
  have hscanned := scanned_scan b r
  generalize scan b r = s at h hscanned
  cases hscanned with
  | word =>
      rw [scanWord] at h
      split at h <;> (cases h; cases hl)
  | whole hb =>
      have hall : [b].all isDigitByte = true := by rw [List.all_cons, hb, List.all_nil, Bool.and_self]
      exact literal_number rfl (fun s hs => .whole hb hs) (hall ▸ h)
  | fraction hb hr hd =>
      subst hb hr
      exact literal_number rfl (fun s hs => .fraction hd hs) h
  | character => cases h; cases hl
  | string hb => exact literal_string hb h
  | operator => cases h; cases hl
  | unexpected => cases h

end Lexer

theorem Token.Read.literal {input : Text} {t : Token} (h : t.Read input) (hl : t.lexeme.verbatim? = none) :
    Literal (t.source input) t.lexeme := by
  obtain ⟨b, r, width, hdrop, hscan, hstop⟩ := h
  rw [source_eq hdrop hstop]
  exact literal_scan hscan hl

/-- How a literal is converted, and when it is well-formed. -/
structure Token.Converted (input : Text) (t : Token) : Prop where
  numeral : ∀ d, t.lexeme = .number d → IsNumeral (t.source input)
  /-- Digits alone are converted by way of a word, and are well-formed if they fit. -/
  whole : ∀ d, t.lexeme = .number d → (t.source input).AllDigits →
    d = .ofNat (t.source input).wholeWord ∧
      (t.WellFormed input ↔ ((t.source input).number 10 : Int) ≤ Word.largest)
  /-- Other numerals are zero if they cannot be read, and well-formed if they can. -/
  decimal : ∀ d, t.lexeme = .number d → ¬ (t.source input).AllDigits →
    d = (Double.read? (t.source input)).getD .zero ∧
      (t.WellFormed input ↔ (Double.read? (t.source input)).isSome = true)
  /-- Behind each `\u` stand four bytes that are read as a number. -/
  escapes : ∀ v, t.lexeme = .string v → ∀ e ∈ (t.source input).unicodeEscapes,
    e.length = 4 ∧ (codeUnit? e).isSome = true
  /-- A string is well-formed if none of these numbers has a sign. -/
  string : ∀ v, t.lexeme = .string v → (t.WellFormed input ↔ ∀ e ∈ (t.source input).unicodeEscapes,
    ∀ b ∈ e.head?, b ≠ '+'.toUInt8 ∧ b ≠ '-'.toUInt8)

/-- Every token of a text is converted in this way. -/
theorem converted_of_mem_tokenize {input : Text} {t : Token} (ht : t ∈ tokenize input) :
    t.Converted input := by
  have hread : t.lexeme.isError = false → t.Read input := (tiling_tokenize input).read ht
  have hnumber : ∀ d, t.lexeme = .number d → IsNumeral (t.source input) ∧
      d = numeralValue ((t.source input).all Text.isDigitByte) (t.source input) := by
    intro d hd
    rw [hd] at hread
    have hliteral := (hread rfl).literal (by rw [hd]; rfl)
    rw [hd] at hliteral
    exact hliteral.of_number
  have hescapes : ∀ v, t.lexeme = .string v → ∀ e ∈ (t.source input).unicodeEscapes,
      e.length = 4 ∧ (codeUnit? e).isSome = true := by
    intro v hv
    rw [hv] at hread
    have hliteral := (hread rfl).literal (by rw [hv]; rfl)
    rw [hv] at hliteral
    exact hliteral.of_string
  constructor
  case numeral => exact fun d hd => (hnumber d hd).1
  case whole =>
    intro d hd hdigits
    rw [(hnumber d hd).2, List.all_eq_true.mpr hdigits, numeralValue_whole, Token.wellFormed_number hd,
      ← Text.wholeWord_eq_iff]
    exact ⟨rfl, fun h => h.2 hdigits, fun h => ⟨Text.isDecimal_of_allDigits hdigits, fun _ => h⟩⟩
  case decimal =>
    intro d hd hdigits
    have hall : (t.source input).all Text.isDigitByte = false :=
      Bool.eq_false_iff.mpr fun h => hdigits (List.all_eq_true.mp h)
    rw [(hnumber d hd).2, hall, numeralValue_decimal, Token.wellFormed_number hd,
      (hnumber d hd).1.isSome_read?]
    exact ⟨rfl, fun h => h.1, fun h => ⟨h, fun h => absurd h hdigits⟩⟩
  case escapes => exact hescapes
  case string =>
    intro v hv
    rw [Token.wellFormed_string hv]
    refine forall₂_congr fun e he => ?_
    obtain ⟨hlength, hunit⟩ := hescapes v hv e he
    rw [← (isHexadecimal_iff_of_codeUnit? hunit).2, and_iff_right hlength]

namespace Sample

/-- A numeral with two points is one token, of the value zero. -/
theorem converted_severalPoints : (⟨0, 5, .number .zero⟩ : Token) ∈ tokenize "1.2.3" ∧
    Token.Converted "1.2.3" ⟨0, 5, .number .zero⟩ := by
  have hmem : (⟨0, 5, .number .zero⟩ : Token) ∈ tokenize "1.2.3" := by decide +kernel
  exact ⟨hmem, converted_of_mem_tokenize hmem⟩

/-- Numerals with two points, numerals beyond the largest word and signs in an escape are accepted: each of
these texts is one token. -/
theorem malformed_literals :
    (tokenize "1.2.3" = [⟨0, 5, .number .zero⟩] ∧ ¬ Token.WellFormed "1.2.3" ⟨0, 5, .number .zero⟩) ∧
    (tokenize "10000000000000000000" = [⟨0, 20, .number (.ofNat 9223372036854775807)⟩] ∧
      ¬ Token.WellFormed "10000000000000000000" ⟨0, 20, .number (.ofNat 9223372036854775807)⟩) ∧
    (tokenize "'\\u+041'" = [⟨0, 8, .string "A"⟩] ∧ ¬ Token.WellFormed "'\\u+041'" ⟨0, 8, .string "A"⟩) := by
  refine ⟨⟨by decide +kernel, ?points⟩, ⟨by decide +kernel, ?word⟩, ⟨by decide +kernel, ?sign⟩⟩
  case points =>
    intro h
    exact absurd h.1.point (by decide +kernel)
  case word =>
    intro h
    have hdigits : Text.AllDigits "10000000000000000000" := by
      unfold Text.AllDigits
      decide +kernel
    exact absurd (h.2 hdigits) (by decide +kernel)
  case sign =>
    intro h
    have hescape : ("+041" : Text) ∈ Text.unicodeEscapes "'\\u+041'" := by decide +kernel
    exact absurd ((h "+041" hescape).2 '+'.toUInt8 (by decide +kernel)) (by decide +kernel)

end Sample

end TemplateCompiler
