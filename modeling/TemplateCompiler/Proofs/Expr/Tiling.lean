import TemplateCompiler.Proofs.Expr.Lexemes

/-!
# Tokens tile their text

The tokens of a text and the separators between them are the whole text, up to where reading stops with an
error (`tokens_tile`).

* `Token.Read` : a token is the lexeme that the reader finds at its place;
* `Gap input i j` : only separators stand from `i` up to `j`;
* `Tiling input position ts` : from a position on, gaps and tokens follow each other up to the end or to a
  byte that no lexeme starts with. The loop that reads tokens yields such a tiling (`tiling_tokensFrom`), and
  what holds of the tokens together follows by induction on it.
-/

namespace TemplateCompiler

open Lexer

/-- The bytes that a token was read from. -/
def Token.source (input : Text) (t : Token) : Text := input.slice t.start t.stop

/-- A token is the lexeme that the reader finds at its place. -/
def Token.Read (input : Text) (t : Token) : Prop :=
  ∃ b r width, input.drop t.start = b :: r ∧ scan b r = .lexeme t.lexeme width ∧ t.stop = t.start + width + 1

def endFrom (position : Nat) : List Token → Nat
  | [] => position
  | t :: ts => endFrom t.stop ts

/-- Whether only separators stand from `i` up to `j`. -/
def Gap (input : Text) (i j : Nat) : Prop :=
  i ≤ j ∧ ∀ k, i ≤ k → k < j → ∀ b, input[k]? = some b → b ≤ 0x20 ∨ b = 0xA0

/-! ### Single tokens -/

namespace Token.Read

variable {input : Text} {t : Token}

theorem reading (h : t.Read input) : ∃ b r width, input.drop t.start = b :: r ∧
    t.stop = t.start + width + 1 ∧ Reading b r t.lexeme width := by
  obtain ⟨b, r, width, hdrop, hscan, hstop⟩ := h
  exact ⟨b, r, width, hdrop, hstop, reading_scan hscan⟩

theorem not_error (h : t.Read input) : t.lexeme.isError = false := by
  obtain ⟨b, r, width, -, -, hreading⟩ := h.reading
  exact hreading.not_error

theorem inside (h : t.Read input) : t.start < t.stop ∧ t.stop ≤ input.length := by
  obtain ⟨b, r, width, hdrop, hstop, hreading⟩ := h.reading
  have hlength := congrArg List.length hdrop
  have hwidth := hreading.width_le
  rw [List.length_drop, List.length_cons] at hlength
  omega

/-- The source of a token is its first byte and as many more as the reader took. -/
theorem source_eq {b : UInt8} {r : Text} {width : Nat} (hdrop : input.drop t.start = b :: r)
    (hstop : t.stop = t.start + width + 1) : t.source input = b :: r.take width := by
  have hwidth : t.stop - t.start = width + 1 := by omega
  rw [Token.source, Text.slice, hdrop, hwidth, List.take_succ_cons]

theorem source_eq_of_verbatim (h : t.Read input) {text : Text} (ht : t.lexeme.verbatim? = some text) :
    t.source input = text := by
  obtain ⟨b, r, width, hdrop, hstop, hreading⟩ := h.reading
  rw [source_eq hdrop hstop]
  exact hreading.verbatim text ht

theorem maximal (h : t.Read input) (hword : t.lexeme.isWord = true) {b : UInt8}
    (hb : input[t.stop]? = some b) : Text.isNamePart b = false := by
  obtain ⟨c, r, width, hdrop, hstop, hreading⟩ := h.reading
  refine hreading.maximal hword b ?_
  have hnext : (input.drop t.start)[width + 1]? = input[t.stop]? := by
    rw [List.getElem?_drop, hstop, Nat.add_assoc]
  rw [hdrop, List.getElem?_cons_succ] at hnext
  rw [List.head?_drop, hnext, hb]

end Token.Read

/-! ### Gaps -/

theorem isSeparator_iff {b : UInt8} : isSeparator b = true ↔ b ≤ 32 ∨ b = 160 := by
  simp only [isSeparator, Text.isSpace, Bool.or_eq_true, Bool.and_eq_true, decide_eq_true_eq, beq_iff_eq,
    UInt8.le_iff_toNat_le, ← UInt8.toNat_inj, UInt8.reduceToNat]
  omega

namespace Gap

variable {input : Text} {i j : Nat}

theorem refl (input : Text) (i : Nat) : Gap input i i := ⟨le_rfl, fun _ h h' => by omega⟩

theorem snoc (h : Gap input i j) {b : UInt8} (hb : input[j]? = some b) (hsep : isSeparator b = true) :
    Gap input i (j + 1) := by
  refine ⟨Nat.le_succ_of_le h.1, fun k hi hk c hc => ?_⟩
  rcases Nat.lt_succ_iff_lt_or_eq.mp hk with hk | rfl
  · exact h.2 k hi hk c hc
  · obtain rfl : b = c := Option.some.inj (hb.symm.trans hc)
    exact isSeparator_iff.mp hsep

end Gap

/-! ### Rows of tokens -/

/-- From a position on, gaps and tokens follow each other, up to the end of the text or to a byte where
reading stops with an error. -/
inductive Tiling (input : Text) : Nat → List Token → Prop
  | done {position : Nat} : Gap input position input.length → Tiling input position []
  | token {position : Nat} {t : Token} {ts : List Token} : Gap input position t.start → t.Read input →
      Tiling input t.stop ts → Tiling input position (t :: ts)
  | stuck {position i : Nat} {t : Token} {b : UInt8} : Gap input position i → input[i]? = some b →
      isSeparator b = false → i ≤ t.start → t.lexeme.isError = true → Tiling input position [t]

/-- The loop tiles the rest of the text behind what it skips. -/
theorem tiling_tokensFrom (input : Text) {position skip : Nat} {rest : Text}
    (hrest : input.drop position = rest) (hlength : position + rest.length = input.length)
    (hskip : skip ≤ rest.length) {start : Nat} (hgap : Gap input start (position + skip)) :
    Tiling input start (tokensFrom input position skip rest) := by
  have htail : ∀ {position : Nat} {b : UInt8} {r : Text}, input.drop position = b :: r →
      input.drop (position + 1) = r ∧ input[position]? = some b := by
    intro position b r h
    exact ⟨by rw [← List.drop_drop, h]; rfl, by rw [← List.head?_drop, h]; rfl⟩
  fun_induction tokensFrom input position skip rest generalizing start with
  | case1 position skip =>
      have hend : position + skip = input.length := by
        rw [List.length_nil] at hlength hskip
        omega
      exact .done (hend ▸ hgap)
  | case2 position skip b r ih =>
      have hmove : position + (skip + 1) = position + 1 + skip := by omega
      rw [List.length_cons] at hlength hskip
      exact ih (htail hrest).1 (by omega) (by omega) (hmove ▸ hgap)
  | case3 position b r hsep ih =>
      rw [List.length_cons] at hlength
      exact ih (htail hrest).1 (by omega) (Nat.zero_le _) (hgap.snoc (htail hrest).2 hsep)
  | case4 position b r hsep l width hscan ih =>
      have hmove : position + 1 + width = position + width + 1 := by omega
      rw [List.length_cons] at hlength
      refine .token hgap ⟨b, r, width, hrest, hscan, rfl⟩ ?_
      exact ih (htail hrest).1 (by omega) (reading_scan hscan).width_le (hmove ▸ Gap.refl input _)
  | case5 position b r hsep reason from' stop hscan =>
      exact .stuck hgap (htail hrest).2 (Bool.eq_false_iff.mpr hsep) (Nat.le_add_right _ _) rfl

theorem tiling_tokenize (input : Text) : Tiling input 0 (tokenize input) :=
  tiling_tokensFrom input rfl (Nat.zero_add _) (Nat.zero_le _) (Gap.refl input 0)

namespace Tiling

variable {input : Text} {position : Nat} {ts front back : List Token} {t : Token}

/-- Every token but an error is the lexeme at its place. -/
theorem read (h : Tiling input position ts) (ht : t ∈ ts) (herror : t.lexeme.isError = false) :
    t.Read input := by
  induction h with
  | done => cases ht
  | token _ hread _ ih =>
      rcases List.mem_cons.mp ht with rfl | ht
      · exact hread
      · exact ih ht
  | stuck _ _ _ _ hstuck =>
      obtain rfl := List.mem_singleton.mp ht
      rw [herror] at hstuck
      cases hstuck

/-- The tokens behind others are a tiling of what those leave. -/
theorem split (h : Tiling input position (front ++ t :: back)) :
    Tiling input (endFrom position front) (t :: back) := by
  induction front generalizing position with
  | nil => exact h
  | cons u front ih =>
      cases hts : front ++ t :: back with
      | nil => exact absurd hts (by simp)
      | cons v vs =>
          rw [List.cons_append, hts] at h
          cases h with
          | token _ _ hrest => exact ih (hts ▸ hrest)

theorem error_last (h : Tiling input position (t :: back)) (herror : t.lexeme.isError = true) : back = [] := by
  cases h with
  | token _ hread _ =>
      rw [hread.not_error] at herror
      cases herror
  | stuck => rfl

theorem behind (h : Tiling input position (t :: back)) : position ≤ t.start := by
  cases h with
  | token hgap _ _ => exact hgap.1
  | stuck hgap _ _ hle _ => exact hgap.1.trans hle

theorem gap (h : Tiling input position (t :: back)) (herror : t.lexeme.isError = false) :
    Gap input position t.start := by
  cases h with
  | token hgap _ _ => exact hgap
  | stuck _ _ _ _ hstuck =>
      rw [herror] at hstuck
      cases hstuck

/-- Only separators stand before the byte where reading gets stuck. -/
theorem gap_error (h : Tiling input position (t :: back)) (herror : t.lexeme.isError = true) :
    ∃ i ≤ t.start, Gap input position i ∧ ∃ b, input[i]? = some b ∧ isSeparator b = false := by
  cases h with
  | token _ hread _ =>
      rw [hread.not_error] at herror
      cases herror
  | stuck hgap hb hsep hle _ => exact ⟨_, hle, hgap, _, hb, hsep⟩

/-- Without an error, only separators are left. -/
theorem rest (h : Tiling input position ts) (herror : ∀ t ∈ ts, t.lexeme.isError = false) :
    Gap input (endFrom position ts) input.length := by
  induction h with
  | done hgap => exact hgap
  | token _ _ _ ih => exact ih fun t ht => herror t (List.mem_cons_of_mem _ ht)
  | stuck _ _ _ _ hstuck =>
      rw [herror _ List.mem_cons_self] at hstuck
      cases hstuck

/-- Every token takes a byte. -/
theorem length_le (h : Tiling input position ts) : position + ts.length ≤ input.length := by
  induction h with
  | done hgap => exact hgap.1
  | token hgap hread _ ih =>
      have hinside := hread.inside
      have hle := hgap.1
      rw [List.length_cons]
      omega
  | stuck hgap hb _ _ _ =>
      have hle := hgap.1
      obtain ⟨hlt, -⟩ := List.getElem?_eq_some_iff.mp hb
      rw [List.length_singleton]
      omega

end Tiling

/-- The tokens and the separators around them are the text. -/
structure Tiled (input : Text) (ts : List Token) : Prop where
  /-- Reading ends: there are no more tokens than bytes. -/
  length_le : ts.length ≤ input.length
  /-- Only the last token can be an error. -/
  error_last : ∀ front t back, ts = front ++ t :: back → t.lexeme.isError = true → back = []
  inside : ∀ t ∈ ts, t.lexeme.isError = false → t.start < t.stop ∧ t.stop ≤ input.length
  /-- A token starts where those before it have ended, or later. -/
  behind : ∀ front t back, ts = front ++ t :: back → endFrom 0 front ≤ t.start
  /-- Before a token, from the end of the one before it or from the start of the text, separators stand. -/
  gap : ∀ front t back, ts = front ++ t :: back → t.lexeme.isError = false →
    Gap input (endFrom 0 front) t.start
  /-- Before an error, separators stand up to the byte where reading got stuck. -/
  stuck : ∀ front t back, ts = front ++ t :: back → t.lexeme.isError = true →
    ∃ i ≤ t.start, Gap input (endFrom 0 front) i ∧ ∃ b, input[i]? = some b ∧ isSeparator b = false
  /-- Without an error, separators stand behind the last token. -/
  rest : (∀ t ∈ ts, t.lexeme.isError = false) → Gap input (endFrom 0 ts) input.length
  /-- Names, keywords, operators and punctuation are the bytes that they cover. -/
  source_eq : ∀ t ∈ ts, ∀ text, t.lexeme.verbatim? = some text → t.source input = text
  maximal : ∀ t ∈ ts, t.lexeme.isWord = true → ∀ b, input[t.stop]? = some b → Text.isNamePart b = false
  keyword : ∀ t ∈ ts, ∀ word, t.lexeme = .keyword word → word ∈ keywords
  identifier : ∀ t ∈ ts, ∀ name, t.lexeme = .identifier name → name ∉ keywords

theorem Lexeme.isError_of_isWord {l : Lexeme} (h : l.isWord = true) : l.isError = false := by
  cases l with
  | error => cases h
  | _ => rfl

theorem Lexeme.isError_of_verbatim? {l : Lexeme} {text : Text} (h : l.verbatim? = some text) :
    l.isError = false := by
  cases l with
  | error => cases h
  | _ => rfl

/-- The tokens of every text tile it. -/
theorem tokens_tile (input : Text) : Tiled input (tokenize input) := by
  have htiling := tiling_tokenize input
  have hread : ∀ t ∈ tokenize input, t.lexeme.isError = false → t.Read input := fun t ht => htiling.read ht
  have hsplit : ∀ front t back, tokenize input = front ++ t :: back →
      Tiling input (endFrom 0 front) (t :: back) := by
    intro front t back h
    rw [h] at htiling
    exact htiling.split
  constructor
  case length_le => simpa using htiling.length_le
  case error_last => exact fun front t back h => (hsplit front t back h).error_last
  case inside => exact fun t ht herror => (hread t ht herror).inside
  case behind => exact fun front t back h => (hsplit front t back h).behind
  case gap => exact fun front t back h => (hsplit front t back h).gap
  case stuck => exact fun front t back h => (hsplit front t back h).gap_error
  case rest => exact htiling.rest
  case source_eq =>
    intro t ht text htext
    exact (hread t ht (Lexeme.isError_of_verbatim? htext)).source_eq_of_verbatim htext
  case maximal =>
    intro t ht hword b hb
    exact (hread t ht (Lexeme.isError_of_isWord hword)).maximal hword hb
  case keyword =>
    intro t ht word hl
    obtain ⟨b, r, width, -, -, hreading⟩ := (hread t ht (by rw [hl]; rfl)).reading
    exact hreading.reserved word hl
  case identifier =>
    intro t ht name hl
    obtain ⟨b, r, width, -, -, hreading⟩ := (hread t ht (by rw [hl]; rfl)).reading
    exact hreading.free name hl

/-- The error names the byte behind the unfinished string, and the space before the string is a gap. -/
example : tokenize "a 'b" =
    [⟨0, 1, .identifier "a"⟩, Lexer.errorToken "a 'b" "Unterminated quote" 4 4] := by
  decide

end TemplateCompiler
