import TemplateCompiler.Expr.Parser
import TemplateCompiler.Proofs.Code.Glyphs
import TemplateCompiler.Proofs.Text.Numeral

/-!
# Spelling lexemes

`Lexeme.spelling` is the text of a lexeme, and `spread gaps ws` that of several, with gaps between them.
The text is read back as the lexemes (`lexemes_spread`), if the gaps are separators and no lexeme runs on
into the next one where there is no gap (`Joined`).
-/

namespace TemplateCompiler

namespace Lexeme

def symbols : List Text :=
  ["||", "&&", "==", "===", "!=", "!==", "<", ">", "<=", ">=", "+", "-", "*", "%", "/", "!", "?", "?.", "="]

def spelling : Lexeme → Text
  | character b => [b]
  | identifier t | keyword t | operator t => t
  | string t => escapeIdentifier t false true
  | number _ | error _ => []

def Spellable : Lexeme → Prop
  | character b => b ∈ (".(){}[],:;" : Text)
  | identifier t => Text.isName t = true ∧ t ∉ keywords
  | keyword t => t ∈ keywords
  | string t => 0 ∉ t
  | operator o => o ∈ symbols
  | number _ | error _ => False

def endsBefore : Lexeme → UInt8 → Bool
  | identifier _, b | keyword _, b => !Text.isNamePart b
  | character _, b => !Text.isDigit b.toNat
  | operator _, b => !("=.&|" : Text).contains b
  | _, _ => true

/-- Whether a lexeme ends before another one that follows it without a gap. -/
def fits : Lexeme → Lexeme → Bool
  | identifier _, identifier _ | identifier _, keyword _ | keyword _, identifier _
  | keyword _, keyword _ | operator _, operator _ => false
  | operator _, character b => b != '.'.toUInt8
  | _, _ => true

end Lexeme

/-- No lexeme runs on into the next one. -/
def Joined : List Lexeme → Prop
  | w :: w' :: ws => w.fits w' = true ∧ Joined (w' :: ws)
  | _ => True

/-- Lexemes as they are written, each behind the next of the gaps, if there is one. -/
def spread : (gaps : List Text) → List Lexeme → Text
  | _, [] => []
  | gaps, w :: ws => gaps.headD [] ++ w.spelling ++ spread gaps.tail ws

/-! ### Bytes -/

/-- What holds of the numbers of all bytes holds of all bytes. -/
theorem forall_byte {P : UInt8 → Prop} (h : ∀ n < 256, P (UInt8.ofNat n)) (b : UInt8) : P b := by
  have hb := h b.toNat b.toNat_lt
  rwa [UInt8.ofNat_toNat] at hb

/-- The bytes that lexemes start with: ASCII without the separators. -/
def isGraphic (b : UInt8) : Bool := 32 < b && b < 0x80

theorem isGraphic_of_isNameStart : ∀ b, Text.isNameStart b = true → isGraphic b = true :=
  forall_byte (by decide +kernel)

theorem not_isSeparator_of_isGraphic : ∀ b, isGraphic b = true → Lexer.isSeparator b = false :=
  forall_byte (by decide +kernel)

theorem Lexeme.endsBefore_of_isSeparator (w : Lexeme) {b : UInt8} (h : Lexer.isSeparator b = true) :
    w.endsBefore b = true := by
  have hall : ∀ b, Lexer.isSeparator b = true → (!Text.isNamePart b) = true ∧
      (!Text.isDigit b.toNat) = true ∧ (!("=.&|" : Text).contains b) = true :=
    forall_byte (by decide +kernel)
  obtain ⟨hname, hdigit, hoperator⟩ := hall b h
  cases w with
  | identifier => exact hname
  | keyword => exact hname
  | character => exact hdigit
  | operator => exact hoperator
  | _ => rfl

/-- Before the first byte of a name, everything but words ends. -/
theorem Lexeme.endsBefore_of_isNameStart {w : Lexeme} {b : UInt8} (h : Text.isNameStart b = true)
    (hi : ∀ t, w ≠ .identifier t) (hk : ∀ t, w ≠ .keyword t) : w.endsBefore b = true := by
  have hall : ∀ b, Text.isNameStart b = true →
      (!Text.isDigit b.toNat) = true ∧ (!("=.&|" : Text).contains b) = true :=
    forall_byte (by decide +kernel)
  cases w with
  | identifier t => exact absurd rfl (hi t)
  | keyword t => exact absurd rfl (hk t)
  | character => exact (hall b h).1
  | operator => exact (hall b h).2
  | _ => rfl

/-! ### Reading one lexeme -/

namespace Lexer

/-- A word ends where the bytes of names end. -/
theorem scan_word {b : UInt8} {t rest : Text} (h : Text.isName (b :: t) = true)
    (hrest : ∀ c, rest.head? = some c → Text.isNamePart c = false) :
    scan b (t ++ rest) = .lexeme
      (if keywords.contains (b :: t) then .keyword (b :: t) else .identifier (b :: t)) t.length := by
  have hname : Text.isNameStart b = true ∧ t.all Text.isNamePart = true := by
    simpa [Text.isName] using h
  obtain ⟨htake, -⟩ := Glyph.takeWhile_isNamePart_append (List.all_eq_true.mp hname.2) hrest
  rw [scan.eq_def, if_pos hname.1, scanWord, htake]

theorem quoted_backslash {c : UInt8} (hc : c ≠ 'u'.toUInt8) (r : Text) :
    quoted '\''.toUInt8 ('\\'.toUInt8 :: c :: r) =
      (quoted '\''.toUInt8 r).after 2 (Text.ofCode (escaped c)) := by
  have hquote : ¬ '\\'.toUInt8 = '\''.toUInt8 := by decide
  rw [quoted.eq_def]
  simp [hc, hquote]

/-- An escaped byte of a string literal is read back. -/
theorem quoted_escapeByte (dollar : Bool) {b : UInt8} (hb : b ≠ 0) (r : Text) :
    quoted '\''.toUInt8 (escapeByte dollar b ++ r) =
      (quoted '\''.toUInt8 r).after (escapeByte dollar b).length [b] := by
  unfold escapeByte
  split
  · next h =>
      have hb : (b = '\''.toUInt8 ∨ b = '\\'.toUInt8) ∨ dollar = true ∧ b = '$'.toUInt8 := by simpa using h
      rcases hb with (rfl | rfl) | ⟨-, rfl⟩ <;> exact quoted_backslash (by decide) r
  · next h =>
      have hplain : (¬ b = '\''.toUInt8 ∧ ¬ b = '\\'.toUInt8) ∧ (dollar = true → ¬ b = '$'.toUInt8) := by
        simpa using h
      split
      · next hn =>
          obtain rfl : b = '\n'.toUInt8 := by simpa using hn
          exact quoted_backslash (c := 'n'.toUInt8) (by decide) r
      · split
        · next hr =>
            obtain rfl : b = '\r'.toUInt8 := by simpa using hr
            exact quoted_backslash (c := 'r'.toUInt8) (by decide) r
        · rw [List.singleton_append, quoted.eq_def]
          simp [hplain.1, hb]

theorem quoted_escaped (dollar : Bool) {t : Text} (ht : 0 ∉ t) (rest : Text) :
    quoted '\''.toUInt8 (t.flatMap (escapeByte dollar) ++ '\''.toUInt8 :: rest) =
      .closed t ((t.flatMap (escapeByte dollar)).length + 1) := by
  induction t with
  | nil => simp [quoted.eq_def]
  | cons b t ih =>
      obtain ⟨hb, ht⟩ := not_or.mp (mt List.mem_cons.mpr ht)
      rw [List.flatMap_cons, List.append_assoc, quoted_escapeByte dollar (Ne.symm hb), ih ht, Quoted.after,
        List.length_append]
      congr 1
      omega

/-- An operator takes as many of the bytes it can go on with as follow. -/
theorem scanOperator_append (b : UInt8) (taken more : Text) {rest : Text}
    (hrest : ∀ c, rest.head? = some c → c ∉ more) :
    scanOperator b (taken ++ more) (taken ++ rest) = .lexeme (.operator (b :: taken)) taken.length := by
  have hstop : agreement more rest = [] := by
    cases more with
    | nil => cases rest <;> rfl
    | cons m ms =>
        cases rest with
        | nil => rfl
        | cons c r =>
            have hc : ¬ m = c := fun h => hrest c rfl (h ▸ List.mem_cons_self)
            simp [agreement, hc]
  have htaken : ∀ taken : Text, agreement (taken ++ more) (taken ++ rest) = taken := by
    intro taken
    induction taken with
    | nil => exact hstop
    | cons c taken ih => simp [agreement, ih]
  rw [scanOperator, htaken]

end Lexer

open Lexer

theorem Lexeme.scan_operator {o rest : Text} (ho : o ∈ symbols)
    (hrest : ∀ c, rest.head? = some c → c ∉ ("=.&|" : Text)) :
    ∃ b r, o = b :: r ∧ isGraphic b = true ∧ scan b (r ++ rest) = .lexeme (.operator o) r.length := by
  have hmore : ∀ {more : Text}, more ⊆ ("=.&|" : Text) → ∀ c, rest.head? = some c → c ∉ more :=
    fun hsub c hc hmem => hrest c hc (hsub hmem)
  simp only [symbols, List.mem_cons, List.not_mem_nil, or_false] at ho
  rcases ho with rfl | rfl | rfl | rfl | rfl | rfl | rfl | rfl | rfl | rfl | rfl | rfl | rfl | rfl | rfl |
    rfl | rfl | rfl | rfl
  · exact ⟨_, _, rfl, rfl, scanOperator_append '|'.toUInt8 "|" "" (hmore (by decide))⟩
  · exact ⟨_, _, rfl, rfl, scanOperator_append '&'.toUInt8 "&" "" (hmore (by decide))⟩
  · exact ⟨_, _, rfl, rfl, scanOperator_append '='.toUInt8 "=" "=" (hmore (by decide))⟩
  · exact ⟨_, _, rfl, rfl, scanOperator_append '='.toUInt8 "==" "" (hmore (by decide))⟩
  · exact ⟨_, _, rfl, rfl, scanOperator_append '!'.toUInt8 "=" "=" (hmore (by decide))⟩
  · exact ⟨_, _, rfl, rfl, scanOperator_append '!'.toUInt8 "==" "" (hmore (by decide))⟩
  · exact ⟨_, _, rfl, rfl, scanOperator_append '<'.toUInt8 "" "=" (hmore (by decide))⟩
  · exact ⟨_, _, rfl, rfl, scanOperator_append '>'.toUInt8 "" "=" (hmore (by decide))⟩
  · exact ⟨_, _, rfl, rfl, scanOperator_append '<'.toUInt8 "=" "" (hmore (by decide))⟩
  · exact ⟨_, _, rfl, rfl, scanOperator_append '>'.toUInt8 "=" "" (hmore (by decide))⟩
  · exact ⟨_, _, rfl, rfl, rfl⟩
  · exact ⟨_, _, rfl, rfl, rfl⟩
  · exact ⟨_, _, rfl, rfl, rfl⟩
  · exact ⟨_, _, rfl, rfl, rfl⟩
  · exact ⟨_, _, rfl, rfl, rfl⟩
  · exact ⟨_, _, rfl, rfl, scanOperator_append '!'.toUInt8 "" "==" (hmore (by decide))⟩
  · exact ⟨_, _, rfl, rfl, scanOperator_append '?'.toUInt8 "" "." (hmore (by decide))⟩
  · exact ⟨_, _, rfl, rfl, scanOperator_append '?'.toUInt8 "." "" (hmore (by decide))⟩
  · exact ⟨_, _, rfl, rfl, scanOperator_append '='.toUInt8 "" "==" (hmore (by decide))⟩

/-- A lexeme that was written is read back, if it ends before what follows. -/
theorem Lexeme.scan_spelling {w : Lexeme} {rest : Text} (hw : w.Spellable)
    (hrest : ∀ c, rest.head? = some c → w.endsBefore c = true) :
    ∃ b r, w.spelling = b :: r ∧ isGraphic b = true ∧ scan b (r ++ rest) = .lexeme w r.length := by
  cases w with
  | identifier t =>
      cases t with
      | nil => cases hw.1
      | cons b t =>
          have hstart : Text.isNameStart b = true := (Bool.and_eq_true_iff.mp hw.1).1
          refine ⟨b, t, rfl, isGraphic_of_isNameStart b hstart, ?_⟩
          rw [scan_word hw.1 fun c hc => by simpa [endsBefore] using hrest c hc, if_neg]
          simpa using hw.2
  | keyword t =>
      have hname : Text.isName t = true := by
        have hall : ∀ t ∈ keywords, Text.isName t = true := by decide
        exact hall t hw
      cases t with
      | nil => cases hname
      | cons b t =>
          have hstart : Text.isNameStart b = true := (Bool.and_eq_true_iff.mp hname).1
          refine ⟨b, t, rfl, isGraphic_of_isNameStart b hstart, ?_⟩
          rw [scan_word hname fun c hc => by simpa [endsBefore] using hrest c hc, if_pos]
          exact List.contains_iff_mem.mpr hw
  | character b =>
      refine ⟨b, [], rfl, ?_, ?_⟩
      · have hall : ∀ b ∈ (".(){}[],:;" : Text), isGraphic b = true :=
          Text.forall_mem_of_all (by decide)
        exact hall b hw
      · by_cases hpoint : b = '.'.toUInt8
        · subst hpoint
          cases rest with
          | nil => rfl
          | cons c rest =>
              have hc : Text.isDigit c.toNat = false := by simpa [endsBefore] using hrest c rfl
              change (if Text.isDigit c.toNat then _ else _) = _
              rw [hc]
              rfl
        · have hall : ∀ b ∈ (".(){}[],:;" : Text), b ≠ '.'.toUInt8 → Text.isNameStart b = false ∧
              Text.isDigit b.toNat = false ∧ isPunctuation b = true :=
            Text.forall_mem_of_all (by decide)
          obtain ⟨hname, hdigit, hpunctuation⟩ := hall b hw hpoint
          rw [scan.eq_def]
          simp [hname, hdigit, hpoint, hpunctuation]
  | string t =>
      refine ⟨'\''.toUInt8, t.flatMap (escapeByte false) ++ ['\''.toUInt8], ?_, rfl, ?_⟩
      · rfl
      · change scanString '\''.toUInt8 _ = _
        rw [scanString, List.append_assoc, List.singleton_append, quoted_escaped false hw]
        simp
  | operator o => exact scan_operator hw fun c hc => by simpa [endsBefore] using hrest c hc
  | _ => cases hw

/-! ### Reading rows of lexemes -/

namespace Lexer

theorem tokensFrom_taken (input : Text) (taken rest : Text) (position : Nat) :
    tokensFrom input position taken.length (taken ++ rest) =
      tokensFrom input (position + taken.length) 0 rest := by
  induction taken generalizing position with
  | nil => rfl
  | cons b taken ih =>
      have hmove : position + (taken.length + 1) = position + 1 + taken.length := by omega
      rw [List.length_cons, List.cons_append, tokensFrom, ih, hmove]

theorem tokensFrom_gap (input : Text) {gap : Text} (hgap : gap.all isSeparator = true) (rest : Text)
    (position : Nat) :
    tokensFrom input position 0 (gap ++ rest) = tokensFrom input (position + gap.length) 0 rest := by
  induction gap generalizing position with
  | nil => rfl
  | cons b gap ih =>
      obtain ⟨hb, hgap⟩ := Bool.and_eq_true_iff.mp hgap
      have hmove : position + (gap.length + 1) = position + 1 + gap.length := by omega
      rw [List.cons_append, tokensFrom, if_pos hb, ih hgap, List.length_cons, hmove]

/-- A lexeme behind a gap is the first token. -/
theorem tokensFrom_spelling (input : Text) {w : Lexeme} {gap rest : Text} (hw : w.Spellable)
    (hgap : gap.all isSeparator = true) (hrest : ∀ c, rest.head? = some c → w.endsBefore c = true)
    (position : Nat) : ∃ start stop position', tokensFrom input position 0 (gap ++ w.spelling ++ rest) =
      ⟨start, stop, w⟩ :: tokensFrom input position' 0 rest := by
  obtain ⟨b, r, hspelling, hb, hscan⟩ := Lexeme.scan_spelling hw hrest
  have hseparator : isSeparator b = false := not_isSeparator_of_isGraphic b hb
  refine ⟨position + gap.length, position + gap.length + r.length + 1,
    position + gap.length + 1 + r.length, ?_⟩
  rw [List.append_assoc, tokensFrom_gap input hgap, hspelling, List.cons_append, tokensFrom, hseparator,
    if_neg Bool.false_ne_true, hscan]
  dsimp only
  rw [tokensFrom_taken]

end Lexer

theorem Lexeme.endsBefore_spelling {w w' : Lexeme} {rest : Text} {c : UInt8} (hw' : w'.Spellable)
    (hfits : w.fits w' = true) (hc : (w'.spelling ++ rest).head? = some c) : w.endsBefore c = true := by
  cases w' with
  | identifier t =>
      cases t with
      | nil => cases hw'.1
      | cons b t =>
          obtain rfl := Option.some.inj hc
          refine endsBefore_of_isNameStart (Bool.and_eq_true_iff.mp hw'.1).1 ?_ ?_
          all_goals
            rintro t rfl
            cases hfits
  | keyword t =>
      have hall : ∀ t ∈ keywords, t.head?.all Text.isNameStart = true := by decide
      cases t with
      | nil => exact absurd hw' (by decide : [] ∉ keywords)
      | cons b t =>
          obtain rfl := Option.some.inj hc
          refine endsBefore_of_isNameStart (hall _ hw') ?_ ?_
          all_goals
            rintro t rfl
            cases hfits
  | character b =>
      have hall : ∀ b ∈ (".(){}[],:;" : Text), (!Text.isNamePart b) = true ∧
          (!Text.isDigit b.toNat) = true ∧ (b ≠ '.'.toUInt8 → (!("=.&|" : Text).contains b) = true) :=
        Text.forall_mem_of_all (by decide)
      obtain rfl := Option.some.inj hc
      cases w with
      | identifier => exact (hall b hw').1
      | keyword => exact (hall b hw').1
      | character => exact (hall b hw').2.1
      | operator => exact (hall b hw').2.2 (bne_iff_ne.mp hfits)
      | _ => rfl
  | string t =>
      obtain rfl := Option.some.inj hc
      cases w <;> rfl
  | operator o =>
      have hall : ∀ o ∈ symbols, o.head?.all (fun b => !Text.isNamePart b && !Text.isDigit b.toNat) = true := by
        decide
      cases o with
      | nil => exact absurd hw' (by decide : [] ∉ symbols)
      | cons b o =>
          obtain rfl := Option.some.inj hc
          have hb := Bool.and_eq_true_iff.mp (hall _ hw')
          cases w with
          | identifier => exact hb.1
          | keyword => exact hb.1
          | character => exact hb.2
          | operator => cases hfits
          | _ => rfl
  | _ => cases hw'

theorem Lexeme.endsBefore_spread {gaps : List Text} {w w' : Lexeme} {ws : List Lexeme}
    (hgap : (gaps.headD []).all isSeparator = true) (hw' : w'.Spellable) (hfits : w.fits w' = true)
    (c : UInt8) (hc : (spread gaps (w' :: ws)).head? = some c) : w.endsBefore c = true := by
  rw [spread, List.append_assoc] at hc
  cases hg : gaps.headD [] with
  | nil =>
      rw [hg] at hc
      exact endsBefore_spelling hw' hfits hc
  | cons b g =>
      rw [hg] at hc hgap
      obtain rfl := Option.some.inj hc
      exact w.endsBefore_of_isSeparator (Bool.and_eq_true_iff.mp hgap).1

/-- Lexemes that were written are read back. -/
theorem lexemes_spread (input : Text) {ws : List Lexeme} : ∀ {gaps : List Text} (position : Nat),
    (∀ g ∈ gaps, g.all isSeparator = true) → (∀ w ∈ ws, w.Spellable) → Joined ws →
    (tokensFrom input position 0 (spread gaps ws)).map Token.lexeme = ws := by
  have hfirst : ∀ {gaps : List Text}, (∀ g ∈ gaps, g.all isSeparator = true) →
      (gaps.headD []).all isSeparator = true := by
    intro gaps hgaps
    cases gaps with
    | nil => rfl
    | cons g gaps => exact hgaps g List.mem_cons_self
  induction ws with
  | nil =>
      intro gaps position _ _ _
      rw [spread]
      rfl
  | cons w ws ih =>
      intro gaps position hgaps hws hjoined
      obtain ⟨hw, hws⟩ := List.forall_mem_cons.mp hws
      have htail : ∀ g ∈ gaps.tail, g.all isSeparator = true := fun g hg => hgaps g (List.mem_of_mem_tail hg)
      have hends : ∀ c, (spread gaps.tail ws).head? = some c → w.endsBefore c = true := by
        intro c hc
        cases ws with
        | nil =>
            rw [spread] at hc
            cases hc
        | cons w' ws =>
            exact Lexeme.endsBefore_spread (hfirst htail) (hws w' List.mem_cons_self) hjoined.1 c hc
      have hrest : Joined ws := by
        cases ws with
        | nil => trivial
        | cons => exact hjoined.2
      obtain ⟨start, stop, position', htokens⟩ :=
        tokensFrom_spelling input hw (hfirst hgaps) hends position
      rw [spread, htokens, List.map_cons, ih position' htail hws hrest]

/-! ### Blank texts -/

/-- Each byte of ASCII is a character. -/
theorem Text.points_cons {b : UInt8} (hb : b < 0x80) (r : Text) :
    Text.points (b :: r) = .char (Char.ofNat b.toNat) :: Text.points r := by
  have hpoint : Text.point b r = (.char (Char.ofNat b.toNat), 0) := by
    unfold Text.point
    rw [if_pos hb]
  rw [Text.points, Text.pointsAfter, hpoint]
  rfl

/-- A text with a graphic byte behind separators is not blank. -/
theorem Text.isBlank_gap {gap rest : Text} {b : UInt8} (hgap : gap.all isSeparator = true)
    (hb : isGraphic b = true) : Text.isBlank (gap ++ b :: rest) = false := by
  induction gap with
  | nil =>
      have hall : ∀ b, isGraphic b = true → Point.isBlank (.char (Char.ofNat b.toNat)) = false ∧ b < 0x80 :=
        forall_byte (by decide +kernel)
      rw [List.nil_append, Text.isBlank, Text.points_cons (hall b hb).2, List.all_cons, (hall b hb).1,
        Bool.false_and]
  | cons c gap ih =>
      obtain ⟨hc, hgap⟩ := Bool.and_eq_true_iff.mp hgap
      rw [List.cons_append]
      -- the non-breaking space is no character of its own
      by_cases hascii : c < 0x80
      · rw [Text.isBlank, Text.points_cons hascii, List.all_cons]
        exact Bool.and_eq_false_iff.mpr (.inr (ih hgap))
      · have hall : ∀ c, isSeparator c = true → ¬ c < 0x80 → c = 160 := forall_byte (by decide +kernel)
        obtain rfl := hall c hc hascii
        rfl

theorem isBlank_spread {gaps : List Text} (hgap : (gaps.headD []).all isSeparator = true) {w : Lexeme}
    (hw : w.Spellable) (ws : List Lexeme) : Text.isBlank (spread gaps (w :: ws)) = false := by
  have hend : ∀ c, ([] : Text).head? = some c → w.endsBefore c = true := fun _ h => nomatch h
  obtain ⟨b, r, hspelling, hb, -⟩ := Lexeme.scan_spelling hw hend
  rw [spread, hspelling, List.append_assoc, List.cons_append]
  exact Text.isBlank_gap hgap hb

end TemplateCompiler
