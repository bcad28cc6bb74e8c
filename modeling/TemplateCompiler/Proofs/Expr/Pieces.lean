import Mathlib.Data.List.Forall2
import TemplateCompiler.Expr.Binding

/-!
# Cutting text at its braces

Text is cut at the first double braces that open and the first ones behind them that close, and again behind
these (`splitInterpolation_iff`).

* `Text.Occurs needle text i`, `Text.First needle text i` : a text stands at an index of another, and nowhere
  before it. The search finds just this (`find?_eq_some_iff`, `cut?_eq_some_iff`);
* `Text.Interpolates` : some braces open, and behind them some close;
* `t.CutFrom offset text` : the pieces and the rest of `t` are the text, which starts at `offset`, and each cut
  is the first possible one. There is exactly one such `t` (`cutPieces_eq_iff`): by induction on the pieces,
  the first of which is the next one (`nextPiece?_eq_some_iff`);
* `t.Splits text` : `t` is the text cut at its braces, with an error for each blank expression.
-/

namespace TemplateCompiler

/-! ### Searching -/

namespace Text

/-- A text stands at an index of another. -/
def Occurs (needle text : Text) (i : Nat) : Prop := needle <+: text.drop i

/-- A text stands at an index of another, and nowhere before it. -/
def First (needle text : Text) (i : Nat) : Prop := Occurs needle text i ∧ ∀ j < i, ¬ Occurs needle text j

variable {needle text u v : Text} {i : Nat}

theorem Occurs.append (h : Occurs needle text i) (u : Text) : Occurs needle (text ++ u) i := by
  rw [Occurs, List.drop_append]
  exact h.trans (List.prefix_append _ _)

/-- What stands in a text is no longer than what is left of it. -/
theorem Occurs.of_append (h : Occurs needle (text ++ u) i) (hle : i + needle.length ≤ text.length) :
    Occurs needle text i := by
  rw [Occurs, List.drop_append_of_le_length (by omega)] at h
  refine List.prefix_of_prefix_length_le h (List.prefix_append _ _) ?_
  rw [List.length_drop]
  omega

theorem occurs_drop {k : Nat} : Occurs needle (text.drop k) i ↔ Occurs needle text (k + i) := by
  rw [Occurs, List.drop_drop, Occurs]

theorem occurs_length_append (needle u v : Text) : Occurs needle (u ++ (needle ++ v)) u.length := by
  rw [Occurs, List.drop_left]
  exact List.prefix_append _ _

theorem find?_eq_none_iff : find? needle text = none ↔ ∀ i, ¬ Occurs needle text i := by
  induction text with
  | nil =>
      have hnil : ∀ i, Occurs needle [] i ↔ needle = [] := by
        intro i
        rw [Occurs, List.drop_nil, List.prefix_nil]
      cases needle <;> simp [find?, hnil]
  | cons b r ih =>
      have hsplit : (∀ i, ¬ Occurs needle (b :: r) i) ↔
          ¬ needle <+: b :: r ∧ ∀ i, ¬ Occurs needle r i := by
        refine ⟨fun h => ⟨h 0, fun i => h (i + 1)⟩, fun h i => ?_⟩
        cases i with
        | zero => exact h.1
        | succ i => exact h.2 i
      rw [hsplit, ← ih, find?, ← List.isPrefixOf_iff_prefix]
      split
      · simp_all
      · simp_all

theorem find?_eq_some_iff : find? needle text = some i ↔ First needle text i := by
  induction text generalizing i with
  | nil =>
      have hnil : ∀ i, Occurs needle [] i ↔ needle = [] := by
        intro i
        rw [Occurs, List.drop_nil, List.prefix_nil]
      cases needle with
      | nil =>
          simp only [find?, First, hnil, List.isEmpty_nil, if_true, Option.some.injEq]
          constructor
          · rintro rfl
            exact ⟨trivial, fun j hj => by omega⟩
          · rintro ⟨-, h⟩
            by_contra hne
            exact h 0 (by omega) trivial
      | cons c needle => simp [find?, First, hnil]
  | cons b r ih =>
      rw [find?]
      split
      · next h =>
          have hzero : Occurs needle (b :: r) 0 := List.isPrefixOf_iff_prefix.mp h
          constructor
          · rintro ⟨⟩
            exact ⟨hzero, fun j hj => by omega⟩
          · rintro ⟨-, hfirst⟩
            by_contra hne
            refine hfirst 0 ?_ hzero
            by_contra hle
            exact hne (by rw [show i = 0 by omega])
      · next h =>
          have hzero : ¬ Occurs needle (b :: r) 0 := fun hp => h (List.isPrefixOf_iff_prefix.mpr hp)
          cases i with
          | zero => exact ⟨fun h => by simp at h, fun hfirst => absurd hfirst.1 hzero⟩
          | succ i =>
              rw [Option.map_eq_some_iff]
              simp only [Nat.add_right_cancel_iff, exists_eq_right, ih]
              constructor
              · rintro ⟨hoccurs, hbefore⟩
                refine ⟨hoccurs, fun j hj => ?_⟩
                cases j with
                | zero => exact hzero
                | succ j => exact hbefore j (by omega)
              · rintro ⟨hoccurs, hbefore⟩
                exact ⟨hoccurs, fun j hj => hbefore (j + 1) (by omega)⟩

/-- Cutting at a text leaves what stands before its first occurrence and what stands behind it. -/
theorem cut?_eq_some_iff : cut? text needle = some (u, v) ↔
    text = u ++ (needle ++ v) ∧ First needle (u ++ needle) u.length := by
  simp only [cut?, Option.map_eq_some_iff, find?_eq_some_iff, Prod.mk.injEq]
  constructor
  · rintro ⟨i, ⟨hoccurs, hbefore⟩, rfl, rfl⟩
    obtain ⟨v, hv⟩ := hoccurs
    have hdrop : text.drop (i + needle.length) = v := by
      rw [← List.drop_drop, ← hv, List.drop_left]
    have htext : text = text.take i ++ (needle ++ v) := by rw [hv, List.take_append_drop]
    have hlength : (text.take i).length ≤ i := List.length_take_le _ _
    refine ⟨by rw [hdrop]; exact htext, ?_, fun j hj hj' => hbefore j (by omega) ?_⟩
    · have hself := occurs_length_append needle (text.take i) []
      rwa [List.append_nil] at hself
    · rw [htext, ← List.append_assoc]
      exact hj'.append v
  · rintro ⟨rfl, hoccurs, hbefore⟩
    refine ⟨u.length, ⟨occurs_length_append needle u v, fun j hj hj' => hbefore j hj ?_⟩, ?_, ?_⟩
    · rw [← List.append_assoc] at hj'
      exact hj'.of_append (by rw [List.length_append]; omega)
    · exact List.take_left
    · rw [← List.drop_drop, List.drop_left, List.drop_left]

/-- No occurrence stands before the one a text is cut at. -/
theorem le_of_cut? {j : Nat} (h : cut? text needle = some (u, v)) (hj : Occurs needle text j) :
    u.length ≤ j := by
  obtain ⟨htext, -, hbefore⟩ := cut?_eq_some_iff.mp h
  by_contra hlt
  rw [htext, ← List.append_assoc] at hj
  exact hbefore j (by omega) (hj.of_append (by rw [List.length_append]; omega))

theorem cut?_eq_none_iff : cut? text needle = none ↔ ∀ i, ¬ Occurs needle text i := by
  rw [cut?, Option.map_eq_none_iff, find?_eq_none_iff]

end Text

/-! ### Pieces -/

/-- Some braces open in a text, and behind them some close. -/
def Text.Interpolates (text : Text) : Prop :=
  ∃ i j, Text.Occurs openBraces text i ∧ i + 2 ≤ j ∧ Text.Occurs closeBraces text j

def Piece.text (p : Piece) : Text := p.before ++ (openBraces ++ (p.expression ++ closeBraces))

/-- The first braces that open end the stretch before an expression, and the first ones that close end the
expression. -/
structure Piece.Leftmost (p : Piece) : Prop where
  opening : Text.First openBraces (p.before ++ openBraces) p.before.length
  closing : Text.First closeBraces (p.expression ++ closeBraces) p.expression.length

theorem Piece.length_text (p : Piece) : p.text.length = p.before.length + 2 + p.expression.length + 2 := by
  have hopen : openBraces.length = 2 := rfl
  have hclose : closeBraces.length = 2 := rfl
  simp only [Piece.text, List.length_append, hopen, hclose]
  omega

/-- The next piece is the first one with braces that close. -/
theorem nextPiece?_eq_some_iff {offset : Nat} {text after : Text} {p : Piece} :
    nextPiece? offset text = some (p, after) ↔
      text = p.text ++ after ∧ p.Leftmost ∧ p.offset = offset + p.before.length + 2 := by
  simp only [nextPiece?, Option.bind_eq_bind, Option.bind_eq_some_iff, Prod.exists, Text.cut?_eq_some_iff,
    Option.pure_def, Option.some.injEq, Prod.mk.injEq]
  constructor
  · rintro ⟨before, inside, ⟨rfl, hopening⟩, expression, _, ⟨rfl, hclosing⟩, rfl, rfl⟩
    exact ⟨by simp only [Piece.text, List.append_assoc], ⟨hopening, hclosing⟩, rfl⟩
  · rintro ⟨rfl, hleftmost, hoffset⟩
    refine ⟨p.before, p.expression ++ (closeBraces ++ after), ⟨?_, hleftmost.opening⟩,
      p.expression, after, ⟨rfl, hleftmost.closing⟩, ?_, rfl⟩
    · simp only [Piece.text, List.append_assoc]
    · rw [← hoffset]

/-- There is no next piece if no braces close behind others that open. -/
theorem nextPiece?_eq_none_iff {offset : Nat} {text : Text} :
    nextPiece? offset text = none ↔ ¬ text.Interpolates := by
  cases hopen : text.cut? openBraces with
  | none =>
      have hnone := Text.cut?_eq_none_iff.mp hopen
      simp only [nextPiece?, hopen, Option.bind_eq_bind, Option.bind_none, true_iff]
      rintro ⟨i, -, hi, -⟩
      exact hnone i hi
  | some cut =>
      obtain ⟨before, inside⟩ := cut
      obtain ⟨htext, -⟩ := Text.cut?_eq_some_iff.mp hopen
      have hdrop : text.drop (before.length + 2) = inside := by
        rw [htext, ← List.drop_drop, List.drop_left]
        exact List.drop_left' (rfl : openBraces.length = 2)
      cases hclose : inside.cut? closeBraces with
      | none =>
          have hnone := Text.cut?_eq_none_iff.mp hclose
          simp only [nextPiece?, hopen, hclose, Option.bind_eq_bind, Option.bind_some, Option.bind_none, true_iff]
          rintro ⟨i, j, hi, hij, hj⟩
          have hle := Text.le_of_cut? hopen hi
          refine hnone (j - (before.length + 2)) ?_
          rw [← hdrop, Text.occurs_drop]
          rwa [show before.length + 2 + (j - (before.length + 2)) = j by omega]
      | some cut =>
          obtain ⟨expression, after⟩ := cut
          obtain ⟨hinside, -⟩ := Text.cut?_eq_some_iff.mp hclose
          simp only [nextPiece?, hopen, hclose, Option.bind_eq_bind, Option.bind_some, Option.pure_def,
            reduceCtorEq, false_iff, not_not]
          refine ⟨before.length, before.length + 2 + expression.length, ?_, by omega, ?_⟩
          · rw [htext]
            exact Text.occurs_length_append _ _ _
          · rw [← Text.occurs_drop, hdrop, hinside]
            exact Text.occurs_length_append _ _ _

/-! ### All pieces -/

/-- The pieces and the rest make up a text that starts at `offset`; every piece is the first one possible, and
none is possible in the rest. -/
structure Interpolated.CutFrom (offset : Nat) (text : Text) (t : Interpolated) : Prop where
  text_eq : text = t.pieces.flatMap Piece.text ++ t.rest
  /-- An expression starts behind the pieces before it, the stretch before it and its braces. -/
  offset_eq : ∀ front p back, t.pieces = front ++ p :: back →
    p.offset = offset + (front.flatMap Piece.text).length + p.before.length + 2
  leftmost : ∀ p ∈ t.pieces, p.Leftmost
  rest : ¬ t.rest.Interpolates

namespace Interpolated

variable {offset n : Nat} {text rest : Text} {p : Piece} {ps : List Piece} {t : Interpolated}

theorem cutFrom_nil : CutFrom offset text ⟨[], rest⟩ ↔ text = rest ∧ ¬ rest.Interpolates := by
  constructor
  · rintro ⟨htext, -, -, hrest⟩
    exact ⟨htext, hrest⟩
  · rintro ⟨htext, hrest⟩
    exact ⟨htext, by simp, by simp, hrest⟩

theorem cutFrom_cons : CutFrom offset text ⟨p :: ps, rest⟩ ↔ ∃ after, text = p.text ++ after ∧ p.Leftmost ∧
    p.offset = offset + p.before.length + 2 ∧ CutFrom (p.offset + p.expression.length + 2) after ⟨ps, rest⟩ := by
  constructor
  · rintro ⟨htext, hoffset, hleftmost, hrest⟩
    have hp : p.offset = offset + p.before.length + 2 := hoffset [] p ps rfl
    refine ⟨ps.flatMap Piece.text ++ rest, ?_, hleftmost p List.mem_cons_self, hp,
      rfl, fun front q back hps => ?_, fun q hq => hleftmost q (List.mem_cons_of_mem p hq), hrest⟩
    · rw [htext, List.flatMap_cons, List.append_assoc]
    · have hq := hoffset (p :: front) q back (congrArg (p :: ·) hps)
      rw [List.flatMap_cons, List.length_append, Piece.length_text] at hq
      omega
  · rintro ⟨after, rfl, hp, hpoffset, hafter, hoffset, hleftmost, hrest⟩
    refine ⟨?_, fun front q back hall => ?_, List.forall_mem_cons.mpr ⟨hp, hleftmost⟩, hrest⟩
    · rw [List.flatMap_cons, List.append_assoc, ← hafter]
    · cases front with
      | nil =>
          obtain ⟨rfl, -⟩ := List.cons.inj hall
          exact hpoffset
      | cons p' front =>
          obtain ⟨rfl, hps⟩ := List.cons.inj hall
          have hq := hoffset front q back hps
          rw [List.flatMap_cons, List.length_append, Piece.length_text]
          omega

/-- A text without braces that open and close stays whole. -/
theorem cutFrom_iff_of_not_interpolates (h : ¬ text.Interpolates) : t.CutFrom offset text ↔ ⟨[], text⟩ = t := by
  obtain ⟨_ | ⟨p, ps⟩, rest⟩ := t
  · rw [cutFrom_nil, mk.injEq]
    constructor
    · rintro ⟨rfl, -⟩
      exact ⟨rfl, rfl⟩
    · rintro ⟨-, rfl⟩
      exact ⟨rfl, h⟩
  · rw [cutFrom_cons, mk.injEq]
    constructor
    · rintro ⟨after, htext, hp, hoffset, -⟩
      have hnext := nextPiece?_eq_some_iff.mpr ⟨htext, hp, hoffset⟩
      rw [nextPiece?_eq_none_iff.mpr h] at hnext
      cases hnext
    · rintro ⟨hnil, -⟩
      cases hnil

/-- Enough cuts leave the one way in which every cut is the first possible one. -/
theorem cutPieces_eq_iff (hn : text.length ≤ n) : cutPieces n offset text = t ↔ t.CutFrom offset text := by
  induction n generalizing offset text t with
  | zero =>
      obtain rfl : text = [] := List.length_eq_zero_iff.mp (Nat.le_zero.mp hn)
      have hnone : ¬ Text.Interpolates [] := by
        rintro ⟨i, -, hi, -⟩
        rw [Text.Occurs, List.drop_nil, List.prefix_nil] at hi
        cases hi
      exact (cutFrom_iff_of_not_interpolates hnone).symm
  | succ n ih =>
      rw [cutPieces]
      split
      · next h => exact (cutFrom_iff_of_not_interpolates (nextPiece?_eq_none_iff.mp h)).symm
      · next p after h =>
          obtain ⟨htext, hp, hoffset⟩ := nextPiece?_eq_some_iff.mp h
          have hafter : after.length ≤ n := by
            have hlength := congrArg List.length htext
            rw [List.length_append, Piece.length_text] at hlength
            omega
          constructor
          · rintro rfl
            exact cutFrom_cons.mpr ⟨after, htext, hp, hoffset, (ih hafter).mp rfl⟩
          · obtain ⟨_ | ⟨q, ps⟩, rest⟩ := t
            · rw [cutFrom_nil]
              rintro ⟨rfl, hrest⟩
              rw [nextPiece?_eq_none_iff.mpr hrest] at h
              cases h
            · rw [cutFrom_cons]
              rintro ⟨after', htext', hq, hoffset', hcut⟩
              rw [nextPiece?_eq_some_iff.mpr ⟨htext', hq, hoffset'⟩] at h
              cases h
              rw [(ih hafter).mpr hcut]

/-- An expression stands between its braces, which start two bytes before it. -/
theorem CutFrom.around (h : t.CutFrom offset text) (hp : p ∈ t.pieces) :
    ∃ u v, text = u ++ (openBraces ++ (p.expression ++ (closeBraces ++ v))) ∧
      p.offset = offset + u.length + 2 := by
  obtain ⟨front, back, hps⟩ := List.append_of_mem hp
  refine ⟨front.flatMap Piece.text ++ p.before, back.flatMap Piece.text ++ t.rest, ?_, ?_⟩
  · rw [h.text_eq, hps, List.flatMap_append, List.flatMap_cons, Piece.text]
    simp only [List.append_assoc]
  · rw [h.offset_eq front p back hps, List.length_append]
    omega

/-- An expression ends before its text. -/
theorem CutFrom.inside (h : t.CutFrom offset text) (hp : p ∈ t.pieces) :
    p.offset + p.expression.length ≤ offset + text.length := by
  obtain ⟨u, v, htext, hoffset⟩ := h.around hp
  have hopen : openBraces.length = 2 := rfl
  rw [htext, hoffset]
  simp only [List.length_append, hopen]
  omega

theorem of_splitInterpolation (h : splitInterpolation text = some t) : t.CutFrom 0 text ∧ t.pieces ≠ [] := by
  rw [splitInterpolation] at h
  split at h
  · cases h
  · next hne =>
      cases h
      exact ⟨(cutPieces_eq_iff (Nat.le_refl _)).mp rfl, fun hnil => hne (List.isEmpty_iff.mpr hnil)⟩

theorem splitInterpolation_of_cutFrom (h : t.CutFrom 0 text) (hne : t.pieces ≠ []) :
    splitInterpolation text = some t := by
  rw [splitInterpolation, (cutPieces_eq_iff (Nat.le_refl _)).mpr h]
  exact if_neg fun hnil => hne (List.isEmpty_iff.mp hnil)

theorem splitInterpolation_eq_none_iff : splitInterpolation text = none ↔ ¬ text.Interpolates := by
  constructor
  · intro h hinterpolates
    have hcut : (cutPieces text.length 0 text).CutFrom 0 text := (cutPieces_eq_iff (Nat.le_refl _)).mp rfl
    rw [splitInterpolation] at h
    split at h
    · next hnil =>
        generalize cutPieces text.length 0 text = t at hcut hnil
        obtain ⟨ps, rest⟩ := t
        obtain rfl := List.isEmpty_iff.mp hnil
        obtain ⟨rfl, hrest⟩ := cutFrom_nil.mp hcut
        exact hrest hinterpolates
    · cases h
  · intro h
    rw [splitInterpolation, (cutPieces_eq_iff (Nat.le_refl _)).mpr ((cutFrom_iff_of_not_interpolates h).mpr rfl)]
    rfl

end Interpolated

/-! ### The text cut at its braces -/

/-- A text cut at its braces, with an error at the braces before each blank expression. -/
structure Interpolated.Splits (text : Text) (t : Interpolated) : Prop extends t.CutFrom 0 text where
  nonempty : t.pieces ≠ []
  expression_at : ∀ p ∈ t.pieces, text.slice p.offset (p.offset + p.expression.length) = p.expression
  errors : ∀ location, List.Forall₂
    (fun p e => ∃ column, text.slice column p.offset = openBraces ∧
      e = ⟨.blankInterpolation, .column column, text, location⟩)
    (t.pieces.filter fun p => Text.isBlank p.expression) (t.errors text location)

/-- What cutting leaves is found in the text again. -/
theorem Interpolated.CutFrom.splits {text : Text} {t : Interpolated} (h : t.CutFrom 0 text)
    (hne : t.pieces ≠ []) : t.Splits text := by
  refine ⟨h, hne, fun p hp => ?_, fun location => ?_⟩
  · obtain ⟨u, v, htext, hoffset⟩ := h.around hp
    have hstart : p.offset = (u ++ openBraces).length := by
      rw [hoffset, List.length_append, Nat.zero_add]
      rfl
    rw [Text.slice, htext, ← List.append_assoc, hstart, List.drop_left, Nat.add_sub_cancel_left]
    exact List.take_left
  · rw [Interpolated.errors, List.forall₂_map_right_iff, List.forall₂_same]
    intro p hp
    obtain ⟨u, v, htext, hoffset⟩ := h.around (List.mem_of_mem_filter hp)
    rw [Nat.zero_add] at hoffset
    refine ⟨p.offset - 2, ?_, rfl⟩
    rw [Text.slice, htext, hoffset, Nat.add_sub_cancel, List.drop_left, Nat.add_sub_cancel_left]
    exact List.take_left' (rfl : openBraces.length = 2)

/-- A text is cut exactly if some of its braces open and others close behind them, and there is one way in
which every cut is the first possible one. -/
theorem splitInterpolation_iff (text : Text) :
    (splitInterpolation text = none ↔ ¬ text.Interpolates) ∧
      ∀ t, splitInterpolation text = some t ↔ t.Splits text := by
  refine ⟨Interpolated.splitInterpolation_eq_none_iff, fun t => ⟨fun h => ?_, fun h => ?_⟩⟩
  · obtain ⟨hcut, hne⟩ := Interpolated.of_splitInterpolation h
    exact hcut.splits hne
  · exact Interpolated.splitInterpolation_of_cutFrom h.toCutFrom h.nonempty

/-- The braces of an expression are the first ones, also where more follow. -/
example : splitInterpolation "\x7b\x7b\x7ba\x7d\x7d\x7d" =
    some ⟨[⟨"", "\x7ba", 2⟩], "\x7d"⟩ := by decide

end TemplateCompiler
