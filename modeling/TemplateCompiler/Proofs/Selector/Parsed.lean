import TemplateCompiler.Proofs.Run
import TemplateCompiler.Selector.Parser

/-!
# The shape of selectors that were read

A selector can be read with any attributes, but the names of its elements and classes are made of
letters, digits, underscores and hyphens. So no element or class is called `*`, with one exception: a
selector of negations only is given the element `*`, and then it asks for nothing else
(`Selector.Shaped`, `shaped_of_parseSelectors`).
-/

namespace TemplateCompiler

/-- Neither the element nor a class is a wildcard. -/
structure Compound.Plain (c : Compound) : Prop where
  element : c.element ≠ "*"
  classes : ("*" : Text) ∉ c.classes

/-- Only a selector that asks for nothing else has a wildcard for an element. -/
structure Selector.Shaped (s : Selector) : Prop where
  compound : s.toCompound.Plain ∨ s.element = "*" ∧ s.classes = [] ∧ s.attrs = []
  nots : ∀ c ∈ s.nots, c.Plain

/-! ### Pieces -/

namespace SelectorPiece

/-- The names of elements and classes are made of name bytes, at least one. -/
def Plain : SelectorPiece → Prop
  | element name | className name => name ≠ [] ∧ ∀ b ∈ name, isNameByte b = true
  | _ => True

theorem plain_marked? (piece : Text → SelectorPiece) {r : Text} {p : SelectorPiece} {width : Nat}
    (hpiece : ∀ name, name ≠ [] → (∀ b ∈ name, isNameByte b = true) → (piece name).Plain)
    (h : marked? piece r = some (p, width)) : p.Plain := by
  unfold marked? at h
  dsimp only at h
  split at h
  · cases h
  · next hne =>
      cases h
      exact hpiece _ (mt List.isEmpty_iff.mpr hne) (List.all_eq_true.mp List.all_takeWhile)

theorem plain_attr? {r : Text} {p : SelectorPiece} {width : Nat} (h : attr? r = some (p, width)) :
    p.Plain := by
  unfold attr? at h
  dsimp only at h
  split at h
  · cases h
  · split at h
    · split at h
      · cases h
        trivial
      · split at h
        · obtain ⟨⟨v, n⟩, -, h⟩ := Option.map_eq_some_iff.mp h
          cases h
          trivial
        · cases h
    · cases h

theorem plain_comma? {r : Text} {p : SelectorPiece} {width : Nat} (h : comma? r = some (p, width)) :
    p.Plain := by
  unfold comma? at h
  dsimp only at h
  split at h
  · split at h
    · cases h
      trivial
    · cases h
  · cases h

theorem plain_next? {b : UInt8} {r : Text} {p : SelectorPiece} {width : Nat}
    (h : next? b r = some (p, width)) : p.Plain := by
  unfold next? at h
  split at h
  · next hb =>
      cases h
      exact ⟨List.cons_ne_nil _ _,
        List.forall_mem_cons.mpr ⟨hb, List.all_eq_true.mp List.all_takeWhile⟩⟩
  · split at h
    · exact plain_marked? className (fun _ hne hname => ⟨hne, hname⟩) h
    · split at h
      · exact plain_marked? id (fun _ _ _ => trivial) h
      · split at h
        · exact plain_attr? h
        · split at h
          · cases h
            trivial
          · split at h
            · split at h
              · cases h
                trivial
              · cases h
            · exact plain_comma? h

theorem plain_of_mem_scanFrom {skip : Nat} {text : Text} :
    ∀ p ∈ scanFrom skip text, p.Plain := by
  fun_induction scanFrom skip text with
  | case1 => exact fun _ h => nomatch h
  | case2 skip _ r ih => exact ih
  | case3 b r p width hnext ih => exact List.forall_mem_cons.mpr ⟨plain_next? hnext, ih⟩
  | case4 b r _ ih => exact ih

end SelectorPiece

/-! ### Names -/

theorem lower_nameByte_ne (b : UInt8) (h : SelectorPiece.isNameByte b = true) :
    b < 0x80 ∧ (String.utf8EncodeChar (lowerChar (Char.ofNat b.toNat))).head? ≠ some '*'.toUInt8 := by
  have hall : ∀ n < 256, SelectorPiece.isNameByte (UInt8.ofNat n) = true →
      UInt8.ofNat n < 0x80 ∧
        (String.utf8EncodeChar (lowerChar (Char.ofNat n))).head? ≠ some '*'.toUInt8 := by
    decide +kernel
  have := hall b.toNat b.toNat_lt (by rwa [UInt8.ofNat_toNat])
  rwa [UInt8.ofNat_toNat] at this

theorem name_ne_star {name : Text} (h : ∀ b ∈ name, SelectorPiece.isNameByte b = true) :
    name ≠ "*" := by
  rintro rfl
  exact absurd (h '*'.toUInt8 (by decide)) (by decide)

theorem lower_name_ne_star {name : Text} (hne : name ≠ [])
    (h : ∀ b ∈ name, SelectorPiece.isNameByte b = true) : name.lower ≠ "*" := by
  obtain ⟨b, r, rfl⟩ := List.exists_cons_of_ne_nil hne
  obtain ⟨hb, hhead⟩ := lower_nameByte_ne b (h b List.mem_cons_self)
  intro heq
  apply hhead
  have hpoint : Text.point b r = (.char (Char.ofNat b.toNat), 0) := if_pos hb
  have hlower : Text.lower (b :: r) =
      String.utf8EncodeChar (lowerChar (Char.ofNat b.toNat)) ++ Text.lower r := by
    simp only [Text.lower, Text.points, Text.pointsAfter, hpoint, List.flatMap_cons, Point.toChar]
  rw [hlower] at heq
  cases hc : String.utf8EncodeChar (lowerChar (Char.ofNat b.toNat)) with
  | nil => exact absurd hc String.utf8EncodeChar_ne_nil
  | cons c cs =>
      rw [hc] at heq
      exact congrArg some (List.cons.inj heq).1

/-! ### Drafts -/

namespace SelectorDraft

/-- What holds of a draft at every piece. -/
structure Shaped (d : SelectorDraft) : Prop where
  finished : ∀ s ∈ d.finished, s.Shaped
  current : d.current.toCompound.Plain
  nots : ∀ c ∈ d.current.nots, c.Plain
  negated : ∀ c, d.negated = some c → c.Plain

variable {d d' : SelectorDraft}

theorem Shaped.of_finished {finished : List Selector} (h : ∀ s ∈ finished, s.Shaped) :
    Shaped { finished } :=
  ⟨h, ⟨(by decide : ([] : Text) ≠ "*"), List.not_mem_nil⟩, (fun _ h => nomatch h), (fun _ h => nomatch h)⟩

theorem Shaped.change (h : d.Shaped) {f : Compound → Compound}
    (hf : ∀ c : Compound, c.Plain → (f c).Plain) : (d.change f).Shaped := by
  unfold SelectorDraft.change
  split
  · next c hc =>
      refine ⟨h.finished, h.current, h.nots, ?_⟩
      rintro _ ⟨⟩
      exact hf c (h.negated c hc)
  · exact ⟨h.finished, hf _ h.current, h.nots, h.negated⟩

theorem Shaped.endNot (h : d.Shaped) : d.endNot.Shaped := by
  unfold SelectorDraft.endNot
  split
  · next c hc =>
      refine ⟨h.finished, h.current, fun c' hc' => ?_, (fun _ h => nomatch h)⟩
      rcases List.mem_append.mp hc' with hc' | hc'
      · exact h.nots c' hc'
      · rw [List.mem_singleton.mp hc']
        exact h.negated c hc
  · exact h

/-- A selector of negations is completed with a wildcard, others stay plain. -/
theorem Shaped.completed (h : d.Shaped) : (completed d.current).Shaped := by
  unfold SelectorDraft.completed
  split
  · next hempty =>
      simp only [Bool.and_eq_true, List.isEmpty_iff] at hempty
      exact ⟨.inr ⟨rfl, hempty.1.2, hempty.2⟩, h.nots⟩
  · exact ⟨.inl h.current, h.nots⟩

theorem Shaped.add (h : d.Shaped) {p : SelectorPiece} (hp : p.Plain) (hadd : d.add p = .ok d') :
    d'.Shaped := by
  cases p with
  | openNot =>
      simp only [SelectorDraft.add] at hadd
      split at hadd
      · cases hadd
      · cases hadd
        refine ⟨h.finished, h.current, h.nots, ?_⟩
        rintro _ ⟨⟩
        exact ⟨by decide, List.not_mem_nil⟩
  | element n =>
      cases hadd
      exact h.change fun c hc => ⟨name_ne_star hp.2, hc.classes⟩
  | className n =>
      cases hadd
      refine h.change fun c hc => ⟨hc.element, fun hmem => ?_⟩
      rcases List.mem_append.mp hmem with hmem | hmem
      · exact hc.classes hmem
      · exact lower_name_ne_star hp.1 hp.2 (List.mem_singleton.mp hmem).symm
  | id n =>
      cases hadd
      exact h.change fun c hc => ⟨hc.element, hc.classes⟩
  | attr n v =>
      obtain ⟨name, -, hadd⟩ := except_bind_ok.mp hadd
      cases hadd
      exact h.change fun c hc => ⟨hc.element, hc.classes⟩
  | close =>
      cases hadd
      exact h.endNot
  | comma =>
      simp only [SelectorDraft.add] at hadd
      split at hadd
      · cases hadd
      · cases hadd
        refine .of_finished fun s hs => ?_
        rcases List.mem_append.mp hs with hs | hs
        · exact h.finished s hs
        · rw [List.mem_singleton.mp hs]
          exact h.completed

theorem Shaped.addAll {pieces : List SelectorPiece} : ∀ {d d' : SelectorDraft}, d.Shaped →
    (∀ p ∈ pieces, p.Plain) → pieces.foldlM SelectorDraft.add d = .ok d' → d'.Shaped := by
  induction pieces with
  | nil =>
      rintro d d' h - ⟨⟩
      exact h
  | cons p ps ih =>
      intro d d' h hp hrun
      obtain ⟨hp, hps⟩ := List.forall_mem_cons.mp hp
      rw [List.foldlM_cons] at hrun
      obtain ⟨d₁, hadd, hrun⟩ := except_bind_ok.mp hrun
      exact ih (h.add hp hadd) hps hrun

end SelectorDraft

/-- Selectors that were read are well shaped. -/
theorem shaped_of_parseSelectors {text : Text} {ss : List Selector} (h : parseSelectors text = .ok ss) :
    ∀ s ∈ ss, s.Shaped := by
  obtain ⟨d, hrun, h⟩ := except_bind_ok.mp h
  cases h
  have hd := SelectorDraft.Shaped.addAll (.of_finished (List.forall_mem_nil _))
    SelectorPiece.plain_of_mem_scanFrom hrun
  intro s hs
  rcases List.mem_append.mp hs with hs | hs
  · exact hd.finished s hs
  · rw [List.mem_singleton.mp hs]
    exact hd.endNot.completed

end TemplateCompiler
