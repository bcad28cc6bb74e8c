import TemplateCompiler.Selector.Runtime

/-!
# Flat selectors can be read back

A flat selector is one list without brackets: texts, and flags that say what the texts after them are.
It is read back from its end (`RuntimeEntry.read`): texts are collected until the flags before them tell
what they are, and classes are kept for the compound that they stand behind.

* `Compound.read_positive`, `Compound.read_negative` : what the entries of a compound are read as;
* `Selector.ofFlat_flat` : a flat selector is read as the selector it was made of, but for the star that
  stands for any element, and for negations that ask for nothing;
* `Selector.flat_eq_iff` : so these are all that two selectors with the same flat form can differ in.
-/

namespace TemplateCompiler

open RuntimeEntry

/-! ### Reading entries -/

/-- What is known of a flat selector from its entries behind some place. -/
structure RuntimeReading where
  /-- The texts up to the next flags. -/
  texts : List Text := []
  /-- The classes of the compound that the place is in. -/
  classes : List Text := []
  /-- The negations behind the place. -/
  nots : List Compound := []

/-- Names and values in turn, two by two. -/
def pairs : List Text → List (Text × Text)
  | name :: value :: rest => (name, value) :: pairs rest
  | _ => []

/-- A compound of an element and attributes, as texts, and of classes. -/
def Compound.ofTexts (classes : List Text) : List Text → Compound
  | [] => { classes }
  | element :: attrs => { element, classes, attrs := pairs attrs }

/-- One more entry before those that were read. -/
def RuntimeEntry.read : RuntimeEntry → RuntimeReading → RuntimeReading
  | .text t, r => { r with texts := t :: r.texts }
  | .flags n, r =>
    if n = classFlag then { classes := r.texts, nots := r.nots }
    else if n = notFlag + classFlag then { nots := { classes := r.texts } :: r.nots }
    else if n = notFlag + attributeFlag then
      { nots := { classes := r.classes, attrs := pairs r.texts } :: r.nots }
    else { nots := .ofTexts r.classes r.texts :: r.nots }

def Selector.ofFlat (entries : List RuntimeEntry) : Selector :=
  let r := entries.foldr RuntimeEntry.read {}
  { toCompound := .ofTexts r.classes r.texts, nots := r.nots }

theorem pairs_flatMap (attrs : List (Text × Text)) : pairs (attrs.flatMap fun a => [a.1, a.2]) = attrs := by
  induction attrs with
  | nil => rfl
  | cons a as ih =>
      rw [List.flatMap_cons]
      exact congrArg (a :: ·) ih

theorem foldr_read_texts (ts : List Text) (r : RuntimeReading) :
    (ts.map RuntimeEntry.text).foldr read r = { r with texts := ts ++ r.texts } := by
  induction ts with
  | nil => rfl
  | cons t ts ih =>
      rw [List.map_cons, List.foldr_cons, ih]
      rfl

namespace Compound

variable (c : Compound)

theorem flatAttrs_eq : c.flatAttrs = (c.attrs.flatMap fun a => [a.1, a.2]).map RuntimeEntry.text := by
  rw [flatAttrs, List.map_flatMap]
  rfl

theorem foldr_read_flatAttrs (r : RuntimeReading) :
    c.flatAttrs.foldr read r = { r with texts := (c.attrs.flatMap fun a => [a.1, a.2]) ++ r.texts } := by
  rw [flatAttrs_eq, foldr_read_texts]

theorem foldr_read_flaggedClasses (ns : List Compound) :
    c.flaggedClasses.foldr read { nots := ns } = { classes := c.classes, nots := ns } := by
  unfold flaggedClasses
  split
  · next hnone =>
      rw [List.isEmpty_iff.mp hnone]
      rfl
  · rw [List.foldr_cons, flatClasses, foldr_read_texts, List.append_nil]
    rfl

/-- Attributes and classes, as they stand at the end of a compound. -/
theorem foldr_read_parts (ns : List Compound) :
    (c.flatAttrs ++ c.flaggedClasses).foldr read { nots := ns } =
      { texts := c.attrs.flatMap fun a => [a.1, a.2], classes := c.classes, nots := ns } := by
  rw [List.foldr_append, foldr_read_flaggedClasses, foldr_read_flatAttrs, List.append_nil]

/-- The element that a compound asks for; a star asks for none. -/
def named : Text := if c.element == "*" then [] else c.element

theorem read_positive (ns : List Compound) :
    c.positive.foldr read { nots := ns } =
      { texts := c.named :: c.attrs.flatMap fun a => [a.1, a.2], classes := c.classes, nots := ns } := by
  rw [positive, List.cons_append, List.foldr_cons, foldr_read_parts]
  rfl

/-- A negation is read as itself, unless it asks for nothing. -/
theorem read_negative (ns : List Compound) :
    c.negative.foldr read { nots := ns } = { nots := if c = {} then ns else c :: ns } := by
  obtain ⟨element, classes, attrs⟩ := c
  unfold negative
  split
  · next helement =>
      have hne : (⟨element, classes, attrs⟩ : Compound) ≠ {} := by
        rintro ⟨⟩
        cases helement
      rw [if_neg hne, List.cons_append, List.cons_append, List.foldr_cons, List.foldr_cons, foldr_read_parts]
      change ({ nots := { element, classes, attrs := pairs _ } :: ns } : RuntimeReading) = _
      rw [pairs_flatMap]
  · next helement =>
      obtain rfl : element = [] := by simpa using helement
      split
      · next hattrs =>
          have hne : (⟨[], classes, attrs⟩ : Compound) ≠ {} := by
            rintro ⟨⟩
            cases hattrs
          rw [if_neg hne, List.cons_append, List.foldr_cons, foldr_read_parts]
          change ({ nots := { classes, attrs := pairs _ } :: ns } : RuntimeReading) = _
          rw [pairs_flatMap]
      · next hattrs =>
          obtain rfl : attrs = [] := by simpa using hattrs
          split
          · next hclasses =>
              have hne : (⟨[], classes, []⟩ : Compound) ≠ {} := by
                rintro ⟨⟩
                cases hclasses
              rw [if_neg hne, List.foldr_cons, flatClasses, foldr_read_texts, List.append_nil]
              rfl
          · next hclasses =>
              obtain rfl : classes = [] := by simpa using hclasses
              rfl

end Compound

namespace Selector

def asking (s : Selector) : List Compound := s.nots.filter (· ≠ {})

theorem read_nots (nots : List Compound) :
    (nots.flatMap Compound.negative).foldr read {} = { nots := nots.filter (· ≠ {}) } := by
  induction nots with
  | nil => rfl
  | cons c cs ih =>
      rw [List.flatMap_cons, List.foldr_append, ih, Compound.read_negative, List.filter_cons]
      by_cases h : c = {} <;> simp [h]

/-- A flat selector is read as the selector it was made of. -/
theorem ofFlat_flat (s : Selector) :
    ofFlat s.flat = { element := s.named, classes := s.classes, attrs := s.attrs, nots := s.asking } := by
  rw [ofFlat, flat, List.foldr_append, read_nots, Compound.read_positive]
  change ({ element := s.named, classes := s.classes, attrs := pairs _, nots := s.asking } : Selector) = _
  rw [pairs_flatMap]

/-- The flat form of a selector is that of what is read back. -/
theorem flat_ofFlat_flat (s : Selector) : (ofFlat s.flat).flat = s.flat := by
  have hnots : s.asking.flatMap Compound.negative = s.nots.flatMap Compound.negative := by
    unfold asking
    induction s.nots with
    | nil => rfl
    | cons c cs ih =>
        by_cases h : c = {}
        · subst h
          exact ih
        · rw [List.filter_cons_of_pos (by simpa using h), List.flatMap_cons, List.flatMap_cons, ih]
  have hnamed : (if s.named == "*" then [] else s.named) = s.named := by
    unfold Compound.named
    split <;> rfl
  rw [ofFlat_flat, flat, flat]
  dsimp only
  rw [hnots]
  refine congrArg (· ++ _) ?_
  rw [Compound.positive, Compound.positive, hnamed]
  rfl

/-- Two selectors have the same flat form if and only if they ask for the same element, have the same
attributes and classes in the same order, and the same negations, those apart that ask for nothing. -/
theorem flat_eq_iff (a b : Selector) : a.flat = b.flat ↔
    a.named = b.named ∧ a.attrs = b.attrs ∧ a.classes = b.classes ∧ a.asking = b.asking := by
  constructor
  · intro h
    have hread := ofFlat_flat a
    rw [h, ofFlat_flat b] at hread
    injection hread with hcompound hnots
    injection hcompound with helement hclasses hattrs
    exact ⟨helement.symm, hattrs.symm, hclasses.symm, hnots.symm⟩
  · rintro ⟨helement, hattrs, hclasses, hnots⟩
    rw [← flat_ofFlat_flat a, ← flat_ofFlat_flat b, ofFlat_flat a, ofFlat_flat b, helement, hattrs, hclasses,
      hnots]

/-- The order of classes and attributes among each other is not kept. -/
example : parseRuntimeSelectors "a.x[y]:not():not(b.z)" = parseRuntimeSelectors "a[y].x:not(b.z)" := by
  rfl

end Selector

end TemplateCompiler
