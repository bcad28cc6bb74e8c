import TemplateCompiler.Expr.Lexer
import TemplateCompiler.Proofs.Number.Layout

/-!
# Reading one lexeme

What a lexeme is read from, said without the readers:

* `NumeralRest` : digits, points and exponents in any number and order, as a numeral goes on
  (`numeral_ends`);
* `Quotation quote body value` : what stands between quotes, and the text it stands for (`quoted_closed`);
* `Scanned b r s` : `s` comes from the reader that the first byte `b` chooses (`scanned_scan`).

From these follows what holds of every lexeme, whichever reader it comes from (`Reading`, `reading_scan`).
-/

namespace TemplateCompiler

namespace Lexeme

/-- Whether a lexeme says that the text cannot be read on. -/
def isError : Lexeme → Bool
  | error _ => true
  | _ => false

def isWord : Lexeme → Bool
  | identifier _ | keyword _ => true
  | _ => false

/-- The text that a lexeme stands for as it is written; literals and errors stand for something else. -/
def verbatim? : Lexeme → Option Text
  | character b => some [b]
  | identifier t | keyword t | operator t => some t
  | string _ | number _ | error _ => none

end Lexeme

def Text.isExponentMark (b : UInt8) : Bool := b == 'e'.toUInt8 || b == 'E'.toUInt8

namespace Lexer

/-! ### Numerals -/

/-- The rest of a numeral: digits, points and exponents in any number and order. -/
inductive NumeralRest : Text → Prop
  | nil : NumeralRest []
  | digit {b : UInt8} {r : Text} : Text.isDigitByte b = true → NumeralRest r → NumeralRest (b :: r)
  | point {r : Text} : NumeralRest r → NumeralRest ('.'.toUInt8 :: r)
  | exponent {m d : UInt8} {r : Text} (sign : Text) : Text.isExponentMark m = true →
      sign ∈ ([[], "+", "-"] : List Text) → Text.isDigitByte d = true → NumeralRest r →
      NumeralRest (m :: (sign ++ d :: r))

theorem Numeral.ends_of_after {n : Numeral} {k width : Nat} {plain simple : Bool}
    (h : n.after k plain = .ends width simple) :
    ∃ width' simple', n = .ends width' simple' ∧ width = width' + k ∧ simple = (simple' && plain) := by
  cases n with
  | ends width' simple' =>
      cases h
      exact ⟨width', simple', rfl, rfl, rfl⟩
  | badExponent position => cases h

/-- A numeral that ends has a rest of this form; it is simple if that has digits only. -/
theorem numeral_ends {r : Text} {width : Nat} {simple : Bool} (h : numeral r = .ends width simple) :
    width ≤ r.length ∧ NumeralRest (r.take width) ∧ simple = (r.take width).all Text.isDigitByte := by
  fun_induction numeral r generalizing width simple with
  | case1 =>
      cases h
      exact ⟨le_rfl, .nil, rfl⟩
  | case2 b r hb ih =>
      obtain ⟨w, s, hr, rfl, rfl⟩ := Numeral.ends_of_after h
      obtain ⟨hle, hrest, rfl⟩ := ih hr
      have hbyte : Text.isDigitByte b = true := hb
      refine ⟨Nat.succ_le_succ hle, .digit hbyte hrest, ?_⟩
      simp [hbyte]
  | case3 b r hb hpoint ih =>
      obtain ⟨w, s, hr, rfl, rfl⟩ := Numeral.ends_of_after h
      obtain ⟨hle, hrest, rfl⟩ := ih hr
      obtain rfl : b = '.'.toUInt8 := eq_of_beq hpoint
      have hbyte : Text.isDigitByte '.'.toUInt8 = false := rfl
      exact ⟨Nat.succ_le_succ hle, .point hrest, by simp [hbyte]⟩
  | case5 b hb hpoint hmark d r hd ih =>
      obtain ⟨w, s, hr, rfl, rfl⟩ := Numeral.ends_of_after h
      obtain ⟨hle, hrest, rfl⟩ := ih hr
      have hbyte : Text.isDigitByte b = false := Bool.eq_false_iff.mpr hb
      refine ⟨Nat.add_le_add_right hle 2, .exponent [] hmark (by decide) hd hrest, ?_⟩
      simp [hbyte]
  | case7 b hb hpoint hmark s hs hsign d r hd ih =>
      obtain ⟨w, _, hr, rfl, rfl⟩ := Numeral.ends_of_after h
      obtain ⟨hle, hrest, rfl⟩ := ih hr
      have hbyte : Text.isDigitByte b = false := Bool.eq_false_iff.mpr hb
      have hmem : [s] ∈ ([[], "+", "-"] : List Text) := by
        rcases (Bool.or_eq_true _ _).mp hsign with hs | hs <;> (obtain rfl := eq_of_beq hs; decide)
      refine ⟨Nat.add_le_add_right hle 3, .exponent [s] hmark hmem hd hrest, ?_⟩
      simp [hbyte]
  | case10 b r hb hpoint hmark =>
      cases h
      exact ⟨Nat.zero_le _, .nil, rfl⟩
  | _ => cases h

/-! ### String literals -/

/-- What stands between quotes, and the text that it stands for. -/
inductive Quotation (quote : UInt8) : Text → Text → Prop
  | nil : Quotation quote [] []
  | plain {b : UInt8} {body value : Text} : b ≠ quote → b ≠ '\\'.toUInt8 → b ≠ 0 →
      Quotation quote body value → Quotation quote (b :: body) (b :: value)
  | escape {c : UInt8} {body value : Text} : c ≠ 'u'.toUInt8 → Quotation quote body value →
      Quotation quote ('\\'.toUInt8 :: c :: body) (Text.ofCode (escaped c) ++ value)
  | unicode {body value : Text} {n : Int} (ds : Text) : ds.length = 4 → codeUnit? ds = some n →
      Quotation quote body value →
      Quotation quote ('\\'.toUInt8 :: 'u'.toUInt8 :: (ds ++ body)) (Text.ofCode n ++ value)

theorem Quoted.closed_of_after {q : Quoted} {k width : Nat} {front value : Text}
    (h : q.after k front = .closed value width) :
    ∃ value' width', q = .closed value' width' ∧ value = front ++ value' ∧ width = width' + k := by
  cases q with
  | closed value' width' =>
      cases h
      exact ⟨value', width', rfl, rfl, rfl⟩
  | failed reason position => cases h

/-- A literal that is closed has such a body before its closing quote. -/
theorem quoted_closed {quote : UInt8} {r value : Text} {width : Nat} (h : quoted quote r = .closed value width) :
    ∃ body rest, r = body ++ quote :: rest ∧ width = body.length + 1 ∧ Quotation quote body value := by
  fun_induction quoted quote r generalizing value width with
  | case2 b r hb =>
      cases h
      obtain rfl : b = quote := eq_of_beq hb
      exact ⟨[], r, rfl, rfl, .nil⟩
  | case4 b hb hbackslash c hc h₁ h₂ h₃ h₄ r n hn ih =>
      obtain ⟨v, w, hr, rfl, rfl⟩ := Quoted.closed_of_after h
      obtain ⟨body, rest, rfl, rfl, hbody⟩ := ih hr
      obtain rfl : b = '\\'.toUInt8 := eq_of_beq hbackslash
      obtain rfl : c = 'u'.toUInt8 := eq_of_beq hc
      exact ⟨_, rest, rfl, rfl, .unicode [h₁, h₂, h₃, h₄] rfl hn hbody⟩
  | case7 b hb hbackslash c r hc ih =>
      obtain ⟨v, w, hr, rfl, rfl⟩ := Quoted.closed_of_after h
      obtain ⟨body, rest, rfl, rfl, hbody⟩ := ih hr
      obtain rfl : b = '\\'.toUInt8 := eq_of_beq hbackslash
      exact ⟨_, rest, rfl, rfl, .escape (mt beq_iff_eq.mpr hc) hbody⟩
  | case9 b r hb hbackslash hzero ih =>
      obtain ⟨v, w, hr, rfl, rfl⟩ := Quoted.closed_of_after h
      obtain ⟨body, rest, rfl, rfl, hbody⟩ := ih hr
      refine ⟨_, rest, rfl, rfl, .plain ?_ ?_ ?_ hbody⟩
      · exact mt beq_iff_eq.mpr hb
      · exact mt beq_iff_eq.mpr hbackslash
      · exact mt beq_iff_eq.mpr hzero
  | _ => cases h

/-! ### Choosing a reader -/

/-- What is read comes from the reader that the first byte chooses. -/
inductive Scanned (b : UInt8) (r : Text) : Scan → Prop
  | word : Text.isNameStart b = true → Scanned b r (scanWord b r)
  | whole : Text.isDigitByte b = true → Scanned b r (scanNumber [b] true r)
  | fraction {d : UInt8} {r' : Text} : b = '.'.toUInt8 → r = d :: r' → Text.isDigitByte d = true →
      Scanned b r (scanNumber [b, d] false r')
  | character : Scanned b r (.lexeme (.character b) 0)
  | string : b = '\''.toUInt8 ∨ b = '"'.toUInt8 → Scanned b r (scanString b r)
  | operator (more : Text) : Scanned b r (scanOperator b more r)
  | unexpected (reason : Text) : Scanned b r (.failed reason 1 1)

theorem Scanned.ite {b : UInt8} {r : Text} {s s' : Scan} {c : Prop} [Decidable c] (hs : c → Scanned b r s)
    (hs' : Scanned b r s') : Scanned b r (if c then s else s') := by
  split
  · next h => exact hs h
  · exact hs'

theorem scanned_scan (b : UInt8) (r : Text) : Scanned b r (scan b r) := by
  rw [scan.eq_def]
  refine .ite .word ?_
  refine .ite .whole ?_
  refine .ite (fun hb => ?fraction) ?_
  case fraction =>
    cases r with
    | nil => exact .character
    | cons d r => exact .ite (fun hd => .fraction (eq_of_beq hb) rfl hd) .character
  refine .ite (fun _ => .character) ?_
  refine .ite (fun hb => .string (((Bool.or_eq_true _ _).mp hb).imp eq_of_beq eq_of_beq)) ?_
  refine .ite (fun _ => ?arithmetic) ?_
  case arithmetic =>
    -- no byte follows
    have hsingle : scanOperator b [] r = .lexeme (.operator [b]) 0 := by
      cases r <;> rfl
    exact hsingle ▸ .operator []
  refine .ite (fun _ => .operator _) ?_
  refine .ite (fun _ => .operator _) ?_
  refine .ite (fun _ => .operator _) ?_
  exact .ite (fun _ => .operator _) (.unexpected _)

/-! ### What is read -/

/-- What holds of a lexeme of `width + 1` bytes that starts with `b` before `r`. -/
structure Reading (b : UInt8) (r : Text) (l : Lexeme) (width : Nat) : Prop where
  not_error : l.isError = false
  width_le : width ≤ r.length
  /-- Names and signs stand for the bytes they are read from. -/
  verbatim : ∀ t, l.verbatim? = some t → b :: r.take width = t
  /-- A word ends where no byte of names follows. -/
  maximal : l.isWord = true → ∀ c, (r.drop width).head? = some c → Text.isNamePart c = false
  reserved : ∀ t, l = .keyword t → t ∈ keywords
  free : ∀ t, l = .identifier t → t ∉ keywords

variable {b : UInt8} {r : Text} {l : Lexeme} {width : Nat}

/-- Nothing is asked of the end of a lexeme that is no word. -/
theorem Reading.of_not_isWord (hl : l.isWord = false) (herror : l.isError = false) (hwidth : width ≤ r.length)
    (hverbatim : ∀ t, l.verbatim? = some t → b :: r.take width = t) : Reading b r l width where
  not_error := herror
  width_le := hwidth
  verbatim := hverbatim
  maximal hword := by
    rw [hl] at hword
    cases hword
  reserved := by
    rintro t rfl
    cases hl
  free := by
    rintro t rfl
    cases hl

theorem reading_word (h : scanWord b r = .lexeme l width) : Reading b r l width := by
  have hsplit : r.takeWhile Text.isNamePart ++ r.dropWhile Text.isNamePart = r :=
    List.takeWhile_append_dropWhile
  have hstop : ∀ c, (r.dropWhile Text.isNamePart).head? = some c → Text.isNamePart c = false := by
    intro c hc
    have hhead := List.head?_dropWhile_not Text.isNamePart r
    rw [hc] at hhead
    exact hhead
  rw [scanWord] at h
  generalize r.takeWhile Text.isNamePart = more at h hsplit
  generalize r.dropWhile Text.isNamePart = rest at hsplit hstop
  subst hsplit
  have hreading : ∀ {l : Lexeme}, l.isError = false → l.verbatim? = some (b :: more) →
      (∀ t, l = .keyword t → t ∈ keywords) → (∀ t, l = .identifier t → t ∉ keywords) →
      Reading b (more ++ rest) l more.length := by
    intro l herror hverbatim hreserved hfree
    exact ⟨herror, by simp, by simp [hverbatim], fun _ c hc => hstop c (by simpa using hc), hreserved, hfree⟩
  cases hword : keywords.contains (b :: more) with
  | true =>
      rw [hword] at h
      cases h
      refine hreading rfl rfl ?_ nofun
      rintro _ ⟨⟩
      exact List.contains_iff_mem.mp hword
  | false =>
      rw [hword] at h
      cases h
      refine hreading rfl rfl nofun ?_
      rintro _ ⟨⟩ hmem
      rw [List.contains_iff_mem.mpr hmem] at hword
      cases hword

/-- A numeral with its first bytes. -/
theorem reading_number {front : Text} {simple : Bool} {rest : Text} (hr : b :: r = front ++ rest)
    (h : scanNumber front simple rest = .lexeme l width) : Reading b r l width := by
  rw [scanNumber] at h
  split at h
  · next w digits hends =>
      obtain ⟨hle, -, -⟩ := numeral_ends hends
      have hlength : r.length + 1 = front.length + rest.length := by
        rw [← List.length_append, ← hr, List.length_cons]
      cases h
      exact .of_not_isWord rfl rfl (by omega) nofun
  · cases h

theorem reading_string (h : scanString b r = .lexeme l width) : Reading b r l width := by
  rw [scanString] at h
  split at h
  · next hclosed =>
      obtain ⟨body, rest, rfl, rfl, -⟩ := quoted_closed hclosed
      cases h
      exact .of_not_isWord rfl rfl (by simp) nofun
  · cases h

theorem agreement_prefix (more r : Text) : agreement more r <+: r := by
  induction more generalizing r with
  | nil => exact List.nil_prefix
  | cons m more ih =>
      cases r with
      | nil => exact List.nil_prefix
      | cons c r =>
          rw [agreement]
          split
          · exact (List.prefix_cons_inj c).mpr (ih r)
          · exact List.nil_prefix

theorem reading_operator {more : Text} (h : scanOperator b more r = .lexeme l width) : Reading b r l width := by
  obtain ⟨rest, hrest⟩ := agreement_prefix more r
  rw [scanOperator] at h
  generalize agreement more r = taken at h hrest
  subst hrest
  cases h
  exact .of_not_isWord rfl rfl (by simp) (by simp [Lexeme.verbatim?])

/-- What is read is a lexeme of its bytes, whichever reader it comes from. -/
theorem reading_scan (h : scan b r = .lexeme l width) : Reading b r l width := by
  have hscanned := scanned_scan b r
  generalize scan b r = s at h hscanned
  cases hscanned with
  | word => exact reading_word h
  | whole =>
      have hfront : b :: r = [b] ++ r := rfl
      exact reading_number hfront h
  | fraction hb hr =>
      subst hr
      exact reading_number rfl h
  | character =>
      cases h
      exact .of_not_isWord rfl rfl (Nat.zero_le _) (by simp [Lexeme.verbatim?])
  | string => exact reading_string h
  | operator => exact reading_operator h
  | unexpected => cases h

end Lexer

end TemplateCompiler
