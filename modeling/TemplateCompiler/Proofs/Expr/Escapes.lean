import TemplateCompiler.Proofs.Expr.Literals
import TemplateCompiler.Proofs.Text.Utf8

/-!
# Escapes and characters

The tokens of a valid text carry valid text, unless an escape tears a character apart. An escape is read
byte by byte: a backslash takes the first byte of the character behind it, and `\u` the four bytes behind it.

* `Lexeme.carried` : the text that a token carries, the message of an error among them;
* `Token.Torn` : an escape of a string takes a byte of a character with several bytes, or the four bytes that
  an error shows are no text of their own;
* `Quotation.isUtf8_iff` : what is between quotes stands for valid text if all escaped bytes are of ASCII. The
  induction is on the quotation behind any bytes of a character that has not ended yet;
* `Scan.Shown` : what lexemes other than strings carry, and what a reason shows. It holds of everything that is
  read (`shown_scan`).
-/

namespace TemplateCompiler

open Lexer

/-- The text that a token carries; a number carries none. -/
def Lexeme.carried : Lexeme → Text
  | number _ => []
  | l => l.text

/-- The bytes behind backslashes. A backslash takes the byte behind it along. -/
def Text.escapedBytes : Text → Text
  | b :: c :: r => if b = '\\'.toUInt8 then c :: escapedBytes r else escapedBytes (c :: r)
  | _ => []

/-- The reason that shows the bytes behind `\u`. -/
def Lexer.escapeReason (ds : Text) : Text := "Invalid unicode escape [\\u" ++ ds ++ "]"

/-- An escape tears a character of the text apart. -/
def Token.Torn (input : Text) (t : Token) : Prop :=
  match t.lexeme with
  | .string _ => ¬ (t.source input).escapedBytes.IsAscii
  | .error _ => ∃ ds : Text, ¬ ds.IsUtf8 ∧ input.slice (t.start - 1) (t.start + 5) = "\\u" ++ ds ∧
      t = errorToken input (escapeReason ds) t.start t.stop
  | _ => False

/-! ### String literals -/

namespace Text

theorem escapedBytes_cons_of_ne {b : UInt8} (hb : b ≠ '\\'.toUInt8) (t : Text) :
    escapedBytes (b :: t) = escapedBytes t := by
  cases t with
  | nil => rfl
  | cons c r => rw [escapedBytes, if_neg hb]

theorem escapedBytes_append_of_notMem {ds : Text} (hds : '\\'.toUInt8 ∉ ds) (t : Text) :
    escapedBytes (ds ++ t) = escapedBytes t := by
  induction ds with
  | nil => rfl
  | cons b ds ih =>
      obtain ⟨hb, hds⟩ := not_or.mp (mt List.mem_cons.mpr hds)
      rw [List.cons_append, escapedBytes_cons_of_ne (Ne.symm hb), ih hds]

theorem escapedBytes_escape (c : UInt8) (t : Text) :
    escapedBytes ('\\'.toUInt8 :: c :: t) = c :: escapedBytes t := by
  rw [escapedBytes, if_pos rfl]

theorem isAscii_cons {b : UInt8} (hb : b < 0x80) {t : Text} : IsAscii (b :: t) ↔ t.IsAscii := by
  rw [IsAscii, List.forall_mem_cons]
  exact and_iff_right hb

theorem isAscii_ofNat (n : Nat) : (ofNat n).IsAscii := by
  have hall : ∀ b : UInt8, isDigit b.toNat = true → b < 0x80 := forall_byte (by decide +kernel)
  exact fun b hb => hall b (isDigit_of_mem_ofNat hb)

end Text

namespace Lexer

open Text

theorem isAscii_of_codeUnit? {ds : Text} (h : (codeUnit? ds).isSome = true) : ds.IsAscii := by
  have hall : ∀ b, isDigitOf 16 b = true → b < 0x80 := forall_byte (by decide +kernel)
  obtain ⟨htail, hhead⟩ := isHexadecimal_iff_of_codeUnit? h
  cases ds with
  | nil => exact List.forall_mem_nil _
  | cons s r =>
      refine List.forall_mem_cons.mpr ⟨?_, fun b hb => hall b (htail b hb)⟩
      by_cases hplus : s = '+'.toUInt8
      · subst hplus
        decide
      by_cases hminus : s = '-'.toUInt8
      · subst hminus
        decide
      refine hall s (hhead.mpr ?_ s List.mem_cons_self)
      rintro _ ⟨⟩
      exact ⟨hplus, hminus⟩

/-- A byte that is not of ASCII stands for itself. -/
theorem Quotation.head_eq {quote b : UInt8} (hb : 0x80 ≤ b) {body value : Text}
    (h : Quotation quote (b :: body) value) : ∃ rest, value = b :: rest := by
  cases h with
  | plain => exact ⟨_, rfl⟩
  | escape => exact absurd hb (by decide)
  | unicode => exact absurd hb (by decide)

theorem Quotation.isUtf8_iff {quote : UInt8} {body value : Text} (h : Quotation quote body value) :
    ∀ {u : Text}, IsUtf8 (u ++ body) →
      (IsUtf8 (u ++ value) ↔ (escapedBytes (body ++ [quote])).IsAscii) := by
  have hbackslash : '\\'.toUInt8 < 0x80 := by decide
  induction h with
  | nil =>
      intro u hu
      exact iff_of_true hu (List.forall_mem_nil _)
  | @plain b body value _ hb _ _ ih =>
      intro u hu
      rw [List.append_cons] at hu ⊢
      rw [List.cons_append, escapedBytes_cons_of_ne hb]
      exact ih hu
  | @escape c body value _ hbody ih =>
      intro u hu
      obtain ⟨hu, hrest⟩ := (isUtf8_append_cons hbackslash).mp hu
      rw [isUtf8_append_iff hu, isUtf8_append_iff (isUtf8_ofCode _), List.cons_append, List.cons_append,
        escapedBytes_escape]
      by_cases hc : c < 0x80
      · rw [isAscii_cons hc]
        exact ih (u := []) ((isUtf8_cons hc).mp hrest)
      -- the value goes on inside the character that was torn apart
      · obtain hlt | ⟨-, d, r, rfl, hd, hd'⟩ := hrest.head
        · exact absurd hlt hc
        · obtain ⟨rest, rfl⟩ := hbody.head_eq hd
          exact iff_of_false (not_isUtf8_cons hd hd' rest) fun h => hc (h c List.mem_cons_self)
  | @unicode body value n ds _ hunit _ ih =>
      intro u hu
      have hsome : (codeUnit? ds).isSome = true := by rw [hunit]; rfl
      have hascii := isAscii_of_codeUnit? hsome
      obtain ⟨hu, hrest⟩ := (isUtf8_append_cons hbackslash).mp hu
      have hbody := (isUtf8_append_iff hascii.isUtf8).mp ((isUtf8_cons (by decide)).mp hrest)
      rw [isUtf8_append_iff hu, isUtf8_append_iff (isUtf8_ofCode _), List.cons_append, List.cons_append,
        escapedBytes_escape, isAscii_cons (by decide), List.append_assoc,
        escapedBytes_append_of_notMem (notMem_backslash_of_codeUnit? hsome)]
      exact ih (u := []) hbody

/-! ### What is shown -/

/-- A lexeme that stands for its own bytes stands for bytes of ASCII. A reason is valid, or it shows the bytes
behind a `\u` of the text. -/
def Scan.Shown (text : Text) : Scan → Prop
  | .lexeme l _ => ∀ t, l.verbatim? = some t → t.IsAscii
  | .failed reason start _ => reason.IsUtf8 ∨
      ∃ (i : Nat) (ds : Text), reason = escapeReason ds ∧ start = i + 1 ∧ (text.drop i).take 6 = "\\u" ++ ds

theorem Quoted.failed_of_after {q : Quoted} {k position : Nat} {front reason : Text}
    (h : q.after k front = .failed reason position) :
    ∃ position', q = .failed reason position' ∧ position = position' + k := by
  cases q with
  | closed => cases h
  | failed reason' position' =>
      cases h
      exact ⟨position', rfl, rfl⟩

/-- An escape is shown behind more of the text as well. -/
theorem Scan.Shown.behind (front : Text) {t reason : Text} {start stop : Nat}
    (h : (Scan.failed reason start stop).Shown t) (stop' : Nat) :
    (Scan.failed reason (start + front.length) stop').Shown (front ++ t) := by
  rcases h with hutf8 | ⟨i, ds, hreason, rfl, hds⟩
  · exact .inl hutf8
  · refine .inr ⟨front.length + i, ds, hreason, by omega, ?_⟩
    rwa [List.drop_length_add_append]

/-- A literal that is not closed has a reason that is valid or shows an escape. -/
theorem quoted_failed {quote : UInt8} {r reason : Text} {position : Nat}
    (h : quoted quote r = .failed reason position) : (Scan.failed reason position position).Shown r := by
  have hclosing : IsUtf8 "Unterminated quote" := IsAscii.isUtf8 (by decide)
  have hshort : IsUtf8 "Invalid unicode escape" := IsAscii.isUtf8 (by decide)
  fun_induction quoted quote r generalizing reason position with
  | case1 | case3 | case8 =>
      cases h
      exact .inl hclosing
  | case6 =>
      cases h
      exact .inl hshort
  | case2 => cases h
  | case4 b _ hb c hc h₁ h₂ h₃ h₄ rest n hn ih =>
      obtain ⟨p, hp, rfl⟩ := Quoted.failed_of_after h
      exact (ih hp).behind [b, c, h₁, h₂, h₃, h₄] _
  | case5 b _ hb c hc h₁ h₂ h₃ h₄ rest hn =>
      cases h
      obtain rfl : b = '\\'.toUInt8 := eq_of_beq hb
      obtain rfl : c = 'u'.toUInt8 := eq_of_beq hc
      exact .inr ⟨0, [h₁, h₂, h₃, h₄], rfl, rfl, rfl⟩
  | case7 b _ hb c r hc ih =>
      obtain ⟨p, hp, rfl⟩ := Quoted.failed_of_after h
      exact (ih hp).behind [b, c] _
  | case9 b r _ _ _ ih =>
      obtain ⟨p, hp, rfl⟩ := Quoted.failed_of_after h
      exact (ih hp).behind [b] _

theorem Scan.Shown.ite {t : Text} {s s' : Scan} {c : Prop} [Decidable c] (hs : c → s.Shown t)
    (hs' : s'.Shown t) : (if c then s else s').Shown t := by
  split
  · next h => exact hs h
  · exact hs'

theorem shown_operator {b : UInt8} (hb : b < 0x80) {more : Text} (hmore : more.IsAscii) (r : Text) :
    (scanOperator b more r).Shown (b :: r) := by
  have htaken : ∀ {more r : Text}, more.IsAscii → (agreement more r).IsAscii := by
    intro more r hmore
    fun_induction agreement more r with
    | case1 m ms c r hmc ih =>
        obtain rfl : m = c := eq_of_beq hmc
        obtain ⟨hm, hms⟩ := List.forall_mem_cons.mp hmore
        exact List.forall_mem_cons.mpr ⟨hm, ih hms⟩
    | case2 => exact List.forall_mem_nil _
    | case3 => exact List.forall_mem_nil _
  rintro t ⟨⟩
  exact List.forall_mem_cons.mpr ⟨hb, htaken hmore⟩

theorem shown_word {b : UInt8} (hb : Text.isNameStart b = true) (r : Text) :
    (scanWord b r).Shown (b :: r) := by
  have hall : ∀ b, isNamePart b = true → b < 0x80 := forall_byte (by decide +kernel)
  have hword : IsAscii (b :: r.takeWhile isNamePart) := by
    refine List.forall_mem_cons.mpr ⟨hall b ?_, fun c hc => hall c ?_⟩
    · rw [isNamePart, hb, Bool.true_or]
    · exact List.all_eq_true.mp List.all_takeWhile c hc
  rw [scanWord]
  intro t ht
  split at ht
  · cases ht
    exact hword
  · cases ht
    exact hword

theorem shown_number (front : Text) (simple : Bool) (r t : Text) : (scanNumber front simple r).Shown t := by
  rw [scanNumber]
  split
  · rintro t ⟨⟩
  · exact .inl (IsAscii.isUtf8 (by decide))

theorem shown_string (b : UInt8) (r : Text) : (scanString b r).Shown (b :: r) := by
  rw [scanString]
  split
  · rintro t ⟨⟩
  · next h => exact (quoted_failed h).behind [b] _

/-- No lexeme starts with a byte that is not of ASCII. -/
theorem scan_beyond {b : UInt8} (hb : ¬ b < 0x80) (r : Text) :
    scan b r = .failed ("Unexpected character [" ++ ofCode b.toNat ++ "]") 1 1 := by
  have hall : ∀ b : UInt8, ¬ b < 0x80 → isNameStart b = false ∧ isDigit b.toNat = false ∧
      (b == '.'.toUInt8) = false ∧ isPunctuation b = false ∧ (b == '\''.toUInt8 || b == '"'.toUInt8) = false ∧
      isArithmetic b = false ∧ (b == '?'.toUInt8) = false ∧ (b == '<'.toUInt8 || b == '>'.toUInt8) = false ∧
      (b == '!'.toUInt8 || b == '='.toUInt8) = false ∧ (b == '&'.toUInt8 || b == '|'.toUInt8) = false :=
    forall_byte (by decide +kernel)
  obtain ⟨h₁, h₂, h₃, h₄, h₅, h₆, h₇, h₈, h₉, h₁₀⟩ := hall b hb
  simp only [scan.eq_def, h₁, h₂, h₃, h₄, h₅, h₆, h₇, h₈, h₉, h₁₀, Bool.false_eq_true, if_false]

theorem lt_of_scan {b : UInt8} {r : Text} {l : Lexeme} {width : Nat} (h : scan b r = .lexeme l width) :
    b < 0x80 := by
  by_contra hb
  rw [scan_beyond hb] at h
  cases h

theorem shown_unexpected (b : UInt8) (t : Text) :
    (Scan.failed ("Unexpected character [" ++ ofCode b.toNat ++ "]") 1 1).Shown t := by
  refine .inl (IsUtf8.append (IsUtf8.append (IsAscii.isUtf8 (by decide)) (isUtf8_ofCode _)) ?_)
  exact IsAscii.isUtf8 (by decide)

/-- What is read is shown in this way, whichever reader it comes from. -/
theorem shown_scan (b : UInt8) (r : Text) : (scan b r).Shown (b :: r) := by
  by_cases hb : b < 0x80
  · have hsingle : IsAscii [b] := List.forall_mem_singleton.mpr hb
    have hcharacter : (Scan.lexeme (.character b) 0).Shown (b :: r) := by
      rintro t ⟨⟩
      exact hsingle
    have hoperator : ∀ more : Text, more.IsAscii → (scanOperator b more r).Shown (b :: r) :=
      fun more hmore => shown_operator hb hmore r
    rw [scan.eq_def]
    refine .ite (fun hname => shown_word hname r) ?_
    refine .ite (fun _ => shown_number _ _ _ _) ?_
    refine .ite (fun _ => ?point) ?_
    case point =>
      cases r with
      | nil => exact hcharacter
      | cons d r => exact .ite (fun _ => shown_number _ _ _ _) hcharacter
    refine .ite (fun _ => hcharacter) ?_
    refine .ite (fun _ => shown_string b r) ?_
    refine .ite (fun _ => ?arithmetic) ?_
    case arithmetic =>
      rintro t ⟨⟩
      exact hsingle
    refine .ite (fun _ => hoperator _ (by decide)) ?_
    refine .ite (fun _ => hoperator _ (by decide)) ?_
    refine .ite (fun _ => hoperator _ (by decide)) ?_
    exact .ite (fun _ => hoperator _ hsingle) (shown_unexpected b _)
  · rw [scan_beyond hb]
    exact shown_unexpected b _

/-- An error comes from a byte where reading fails. -/
theorem failed_of_mem_tokensFrom {input : Text} {position skip : Nat} {rest : Text}
    (hrest : input.drop position = rest) {t : Token} (ht : t ∈ tokensFrom input position skip rest)
    (herror : t.lexeme.isError = true) : ∃ i b r reason start stop, input.drop i = b :: r ∧
      scan b r = .failed reason start stop ∧ t = errorToken input reason (i + start) (i + stop) := by
  have htail : ∀ {position : Nat} {b : UInt8} {r : Text}, input.drop position = b :: r →
      input.drop (position + 1) = r := by
    intro position b r h
    rw [← List.drop_drop, h]
    rfl
  fun_induction tokensFrom input position skip rest with
  | case1 => cases ht
  | case2 position skip b r ih => exact ih (htail hrest) ht
  | case3 position b r _ ih => exact ih (htail hrest) ht
  | case4 position b r _ l width hscan ih =>
      rcases List.mem_cons.mp ht with rfl | ht
      · rw [(reading_scan hscan).not_error] at herror
        cases herror
      · exact ih (htail hrest) ht
  | case5 position b r _ reason start stop hscan =>
      exact ⟨position, b, r, reason, start, stop, hrest, hscan, List.mem_singleton.mp ht⟩

/-- The message of an error is valid if its reason is. -/
theorem isUtf8_errorToken {input : Text} (h : input.IsUtf8) (reason : Text) (start stop : Nat) :
    (errorToken input reason start stop).lexeme.carried.IsUtf8 ↔ reason.IsUtf8 := by
  have hfront : IsUtf8 "Lexer Error: " := IsAscii.isUtf8 (by decide)
  have hcolumn : (" at column " : Text) = ' '.toUInt8 :: "at column " := rfl
  have hcolumn' : IsUtf8 "at column " := IsAscii.isUtf8 (by decide)
  have hback : IsUtf8 " in expression [" := IsAscii.isUtf8 (by decide)
  have hclose : IsUtf8 "]" := IsAscii.isUtf8 (by decide)
  have hrest : IsUtf8 (("at column " : Text) ++ (Text.ofNat start ++ (" in expression [" ++ (input ++ "]")))) :=
    hcolumn'.append ((isAscii_ofNat start).isUtf8.append (hback.append (h.append hclose)))
  change IsUtf8 (_ ++ _ ++ _ ++ _ ++ _ ++ _ ++ _) ↔ _
  simp only [List.append_assoc]
  rw [isUtf8_append_iff hfront, hcolumn, List.cons_append, isUtf8_append_cons (by decide)]
  exact and_iff_left hrest

theorem isUtf8_escapeReason {ds : Text} : (escapeReason ds).IsUtf8 ↔ ds.IsUtf8 := by
  rw [escapeReason, List.append_assoc, isUtf8_append_iff (IsAscii.isUtf8 (by decide)),
    show ds ++ ("]" : Text) = ds ++ ']'.toUInt8 :: [] from rfl, isUtf8_append_cons (by decide)]
  exact and_iff_left isUtf8_nil

end Lexer

/-! ### Tokens -/

/-- A string token is a quotation between two quotes of ASCII. -/
theorem Token.Read.quotation {input v : Text} {t : Token} (h : t.Read input) (hv : t.lexeme = .string v) :
    ∃ quote body, quote < 0x80 ∧ quote ≠ '\\'.toUInt8 ∧ t.source input = quote :: (body ++ [quote]) ∧
      Quotation quote body v := by
  have hliteral := h.literal (by rw [hv]; rfl)
  rw [hv] at hliteral
  obtain ⟨b, r, width, hdrop, hscan, hstop⟩ := h
  cases hliteral with
  | @string quote body _ hsource hquote hbody =>
      have hfirst := hsource
      rw [source_eq hdrop hstop] at hfirst
      obtain ⟨rfl, -⟩ := List.cons.inj hfirst
      exact ⟨_, body, lt_of_scan hscan, hquote, hsource, hbody⟩

/-- The text is the source of a token, with what stands before and behind it. -/
theorem Token.exists_append_source (input : Text) (t : Token) :
    ∃ front back, input = front ++ (t.source input ++ back) := by
  refine ⟨input.take t.start, (input.drop t.start).drop (t.stop - t.start), ?_⟩
  rw [Token.source, Text.slice, List.take_append_drop, List.take_append_drop]

/-- A string token carries valid text if it escapes bytes of ASCII only. -/
theorem Token.Read.isUtf8_iff {input v : Text} (h : input.IsUtf8) {t : Token} (ht : t.Read input)
    (hv : t.lexeme = .string v) : v.IsUtf8 ↔ (t.source input).escapedBytes.IsAscii := by
  obtain ⟨quote, body, hascii, hbackslash, hsource, hbody⟩ := ht.quotation hv
  obtain ⟨front, back, hinput⟩ := t.exists_append_source input
  rw [hsource] at hinput ⊢
  rw [hinput, List.cons_append, Text.isUtf8_append_cons hascii, List.append_assoc, List.singleton_append,
    Text.isUtf8_append_cons hascii] at h
  rw [Text.escapedBytes_cons_of_ne hbackslash]
  exact hbody.isUtf8_iff (u := []) h.2.1

/-- An error has a message that is valid, or shows the bytes behind a `\u` before which reading stopped. -/
theorem errorToken_cases {input : Text} (h : input.IsUtf8) {t : Token} (ht : t ∈ tokenize input)
    (herror : t.lexeme.isError = true) : t.lexeme.carried.IsUtf8 ∨
      ∃ ds : Text, input.slice (t.start - 1) (t.start + 5) = "\\u" ++ ds ∧
        t = errorToken input (escapeReason ds) t.start t.stop := by
  obtain ⟨i, b, r, reason, start, stop, hdrop, hscan, rfl⟩ := failed_of_mem_tokensFrom rfl ht herror
  have hshown := shown_scan b r
  rw [hscan] at hshown
  rcases hshown with hutf8 | ⟨k, ds, rfl, rfl, hds⟩
  · exact .inl ((isUtf8_errorToken h reason _ _).mpr hutf8)
  · refine .inr ⟨ds, ?_, rfl⟩
    rw [← hdrop, List.drop_drop] at hds
    have hlength : i + (k + 1) + 5 - (i + (k + 1) - 1) = 6 := by omega
    change (input.drop (i + (k + 1) - 1)).take (i + (k + 1) + 5 - (i + (k + 1) - 1)) = _
    rw [hlength]
    exact hds

/-- The tokens of a valid text carry valid text, exactly if no escape tears a character apart. -/
theorem isUtf8_carried_iff {input : Text} (h : input.IsUtf8) {t : Token} (ht : t ∈ tokenize input) :
    t.lexeme.carried.IsUtf8 ↔ ¬ t.Torn input := by
  have hread : t.lexeme.isError = false → t.Read input := (tiling_tokenize input).read ht
  have hverbatim : ∀ text, t.lexeme.verbatim? = some text → text.IsUtf8 := by
    intro text htext
    obtain ⟨b, r, width, -, hscan, -⟩ := hread (Lexeme.isError_of_verbatim? htext)
    have hshown := shown_scan b r
    rw [hscan] at hshown
    exact (hshown text htext).isUtf8
  cases hl : t.lexeme with
  | number d => exact iff_of_true Text.isUtf8_nil (by simp [Token.Torn, hl])
  | character b => exact iff_of_true (hverbatim [b] (by rw [hl]; rfl)) (by simp [Token.Torn, hl])
  | identifier name => exact iff_of_true (hverbatim name (by rw [hl]; rfl)) (by simp [Token.Torn, hl])
  | keyword word => exact iff_of_true (hverbatim word (by rw [hl]; rfl)) (by simp [Token.Torn, hl])
  | operator symbol => exact iff_of_true (hverbatim symbol (by rw [hl]; rfl)) (by simp [Token.Torn, hl])
  | string v =>
      rw [Token.Torn, hl, not_not]
      exact (hread (by rw [hl]; rfl)).isUtf8_iff h hl
  | error message =>
      have hcases := errorToken_cases h ht (by rw [hl]; rfl)
      have hiff : ∀ ds, t = errorToken input (escapeReason ds) t.start t.stop →
          (t.lexeme.carried.IsUtf8 ↔ ds.IsUtf8) := by
        intro ds heq
        rw [heq, isUtf8_errorToken h, isUtf8_escapeReason]
      rw [hl] at hiff hcases
      rw [Token.Torn, hl]
      constructor
      · rintro hutf8 ⟨ds, hds, -, heq⟩
        exact hds ((hiff ds heq).mp hutf8)
      · intro htorn
        rcases hcases with hutf8 | ⟨ds, hslice, heq⟩
        · exact hutf8
        · exact (hiff ds heq).mpr (Classical.byContradiction fun hds => htorn ⟨ds, hds, hslice, heq⟩)

namespace Sample

/-- The tokens of a string with an escaped quote carry valid text. -/
theorem isUtf8_carried_quoted : Text.IsUtf8 "'é\\'€'" ∧ (⟨0, 9, .string "é'€"⟩ : Token) ∈ tokenize "'é\\'€'" ∧
    (Text.IsUtf8 "é'€" ↔ ¬ Token.Torn "'é\\'€'" ⟨0, 9, .string "é'€"⟩) := by
  have hutf8 : Text.IsUtf8 "'é\\'€'" := by decide +kernel
  have hmem : (⟨0, 9, .string "é'€"⟩ : Token) ∈ tokenize "'é\\'€'" := by decide +kernel
  exact ⟨hutf8, hmem, isUtf8_carried_iff hutf8 hmem⟩

/-- A backslash tears the character behind it apart, and so does a `\u` whose fourth byte lies inside a
character: the texts are valid, and what their tokens carry is not. -/
theorem carried_torn :
    (Text.IsUtf8 "'\\é'" ∧ tokenize "'\\é'" = [⟨0, 5, .string [0xC3, 0x83, 0xA9]⟩] ∧
      ¬ Text.IsUtf8 [0xC3, 0x83, 0xA9]) ∧
    (Text.IsUtf8 "'\\u000é'" ∧
      tokenize "'\\u000é'" = [errorToken "'\\u000é'" (escapeReason (("000" : Text) ++ [0xC3])) 2 2] ∧
      ¬ (errorToken "'\\u000é'" (escapeReason (("000" : Text) ++ [0xC3])) 2 2).lexeme.carried.IsUtf8) := by
  refine ⟨⟨by decide +kernel, by decide +kernel, by decide +kernel⟩, ⟨by decide +kernel, by decide +kernel, ?_⟩⟩
  decide +kernel

end Sample

end TemplateCompiler
