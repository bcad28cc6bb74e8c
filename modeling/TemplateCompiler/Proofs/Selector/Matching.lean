import TemplateCompiler.Proofs.Selector.Parsed
import TemplateCompiler.Proofs.Selector.Trie

/-!
# Matching means what selectors say

`Selector.Matches` says when a selector matches a subject, in terms of its element, classes,
attributes and negations. A matcher finds the same selectors by its trie, whatever it was asked
before (`Matcher.run_iff_matches`).

The argument has three parts: the features that a well shaped compound asks for are answered if the
compound matches (`answeredPath_features_iff`); every registered selector is kept under its features
(`Matcher.Keeps`), and a list of several selectors has a number of its own; and judging the hits one
by one reports a value for each selector that matches (`foldl_judge`), since a list that is passed over
was reported with the same value.
-/

namespace TemplateCompiler

/-! ### The definition of matching -/

/-- A compound asks for something, and a subject has all it asks for. -/
structure Compound.Matches (c subject : Compound) : Prop where
  asks : c.element ≠ [] ∨ c.classes ≠ [] ∨ c.attrs ≠ []
  element : c.element = [] ∨ c.element = "*" ∨ c.element = subject.element
  classes : ∀ k ∈ c.classes, k ∈ subject.classes
  attrs : ∀ a ∈ c.attrs, ∃ b ∈ subject.attrs, b.1 = a.1 ∧ (a.2 = [] ∨ a.2 = b.2)

/-- A subject has what the selector asks for, and none of what it negates. -/
def Selector.Matches (s : Selector) (subject : Compound) : Prop :=
  s.toCompound.Matches subject ∧ ∀ c ∈ s.nots, ¬ c.Matches subject

instance (c subject : Compound) : Decidable (c.Matches subject) :=
  decidable_of_iff ((c.element ≠ [] ∨ c.classes ≠ [] ∨ c.attrs ≠ []) ∧
      (c.element = [] ∨ c.element = "*" ∨ c.element = subject.element) ∧
      (∀ k ∈ c.classes, k ∈ subject.classes) ∧
      ∀ a ∈ c.attrs, ∃ b ∈ subject.attrs, b.1 = a.1 ∧ (a.2 = [] ∨ a.2 = b.2))
    ⟨fun ⟨h₁, h₂, h₃, h₄⟩ => ⟨h₁, h₂, h₃, h₄⟩, fun ⟨h₁, h₂, h₃, h₄⟩ => ⟨h₁, h₂, h₃, h₄⟩⟩

instance (s : Selector) (subject : Compound) : Decidable (s.Matches subject) :=
  inferInstanceAs (Decidable (_ ∧ _))

/-- The name of an element and nothing else matches the elements of that name. -/
theorem Selector.matches_iff_of_isElement {s : Selector} (h : s.isElement = true) (hstar : s.element ≠ "*")
    (subject : Compound) : s.Matches subject ↔ s.element = subject.element := by
  simp only [isElement, hasElement, Bool.and_eq_true, Bool.not_eq_true', List.isEmpty_iff,
    List.isEmpty_eq_false_iff] at h
  obtain ⟨⟨⟨hne, hclasses⟩, hattrs⟩, hnots⟩ := h
  constructor
  · rintro ⟨hmatches, -⟩
    exact (hmatches.element.resolve_left hne).resolve_left hstar
  · intro heq
    refine ⟨⟨.inl hne, .inr (.inr heq), ?_, ?_⟩, ?_⟩
    · simp [hclasses]
    · simp [hattrs]
    · simp [hnots]

/-- No attribute of a compound has a star for a value. -/
def Compound.Starless (c : Compound) : Prop := ∀ a ∈ c.attrs, a.2 ≠ "*"

/-- No attribute of a selector or of its negations has a star for a value. -/
def Selector.Starless (s : Selector) : Prop := s.toCompound.Starless ∧ ∀ c ∈ s.nots, c.Starless

instance (c : Compound) : Decidable c.Starless := inferInstanceAs (Decidable (∀ a ∈ c.attrs, _))

instance (s : Selector) : Decidable s.Starless := inferInstanceAs (Decidable (_ ∧ _))

/-! ### Features of compounds -/

open Feature

variable {c subject : Compound}

theorem mem_features {f : Feature} :
    f ∈ c.features ↔ (c.element ≠ [] ∧ f = .element c.element) ∨ (∃ k ∈ c.classes, f = .className k) ∨
      ∃ a ∈ c.attrs, f = .attr a.1 a.2 := by
  simp only [Compound.features, List.mem_append, List.mem_map, or_assoc, eq_comm (a := f)]
  by_cases h : c.element = []
  · simp [h]
  · simp [h, eq_comm (a := f)]

theorem features_ne_nil_iff :
    c.features ≠ [] ↔ c.element ≠ [] ∨ c.classes ≠ [] ∨ c.attrs ≠ [] := by
  by_cases h : c.element = []
  · simp [Compound.features, h, Decidable.imp_iff_not_or]
  · simp [Compound.features, h]

theorem answered_element_iff {name : Text} :
    Answered subject.features (.element name) ↔ name ≠ [] ∧ name = subject.element := by
  simp only [Answered, mem_features]
  constructor
  · rintro ⟨f, ⟨hne, rfl⟩ | ⟨k, -, rfl⟩ | ⟨a, -, rfl⟩, hf⟩
    · simp only [answers, List.mem_singleton, element.injEq] at hf
      exact ⟨hf ▸ hne, hf⟩
    · simp [answers] at hf
    · simp only [answers] at hf
      split at hf <;> simp at hf
  · rintro ⟨hne, rfl⟩
    exact ⟨_, .inl ⟨hne, rfl⟩, List.mem_singleton_self _⟩

theorem answered_className_iff {name : Text} :
    Answered subject.features (.className name) ↔ name ∈ subject.classes := by
  simp only [Answered, mem_features]
  constructor
  · rintro ⟨f, ⟨-, rfl⟩ | ⟨k, hk, rfl⟩ | ⟨a, -, rfl⟩, hf⟩
    · simp [answers] at hf
    · simp only [answers, List.mem_singleton, className.injEq] at hf
      exact hf ▸ hk
    · simp only [answers] at hf
      split at hf <;> simp at hf
  · intro h
    exact ⟨_, .inr (.inl ⟨name, h, rfl⟩), List.mem_singleton_self _⟩

theorem answered_attr_iff {name value : Text} :
    Answered subject.features (.attr name value) ↔
      ∃ b ∈ subject.attrs, b.1 = name ∧ (value = [] ∨ value = b.2) := by
  have hanswers : ∀ n v, Feature.attr name value ∈ (Feature.attr n v).answers ↔
      n = name ∧ (value = [] ∨ value = v) := by
    intro n v
    rw [answers]
    by_cases hv : v = []
    · simp [hv, eq_comm (a := name)]
    · simp [hv, eq_comm (a := name), ← and_or_left]
  simp only [Answered, mem_features]
  constructor
  · rintro ⟨f, ⟨-, rfl⟩ | ⟨k, -, rfl⟩ | ⟨b, hb, rfl⟩, hf⟩
    · simp [answers] at hf
    · simp [answers] at hf
    · exact ⟨b, hb, (hanswers _ _).mp hf⟩
  · rintro ⟨b, hb, h⟩
    exact ⟨_, .inr (.inr ⟨b, hb, rfl⟩), (hanswers _ _).mpr h⟩

/-- A wildcard is asked for with a star only. -/
theorem answered_of_answeredLast {f : Feature} (h : AnsweredLast subject.features f)
    (hstar : f.wildcard ≠ f) : Answered subject.features f := by
  obtain ⟨g, hg, hf | rfl⟩ := h
  · exact ⟨g, hg, hf⟩
  · cases g <;> exact absurd rfl hstar

theorem answeredPath_iff {path : List Feature} (hstar : ∀ f ∈ path, f.wildcard ≠ f) :
    AnsweredPath subject.features path ↔ path ≠ [] ∧ ∀ f ∈ path, Answered subject.features f := by
  induction path with
  | nil => simp [AnsweredPath]
  | cons f fs ih =>
      obtain ⟨hf, hfs⟩ := List.forall_mem_cons.mp hstar
      match fs with
      | [] =>
          simp only [AnsweredPath, ne_eq, List.cons_ne_nil, not_false_eq_true, true_and,
            List.forall_mem_singleton]
          exact ⟨fun h => answered_of_answeredLast h hf, fun ⟨g, hg, h⟩ => ⟨g, hg, .inl h⟩⟩
      | f' :: fs =>
          rw [AnsweredPath, ih hfs]
          · simp
          · simp

/-- A plain compound asks for no wildcard. -/
theorem wildcard_ne_of_mem_features (hplain : c.Plain) (hstarless : c.Starless) :
    ∀ f ∈ c.features, f.wildcard ≠ f := by
  intro f hf
  rcases mem_features.mp hf with ⟨-, rfl⟩ | ⟨k, hk, rfl⟩ | ⟨a, ha, rfl⟩
  · exact fun h => hplain.element (Feature.element.inj h).symm
  · rintro ⟨⟩
    exact hplain.classes hk
  · exact fun h => hstarless a ha (Feature.attr.inj h).2.symm

/-- The features that a plain compound asks for are answered if it matches. -/
theorem answeredPath_features_of_plain (hplain : c.Plain) (hstarless : c.Starless) :
    AnsweredPath subject.features c.features ↔ c.Matches subject := by
  have hstar := wildcard_ne_of_mem_features hplain hstarless
  have hall : (∀ f ∈ c.features, Answered subject.features f) ↔
      (c.element ≠ [] → c.element = subject.element) ∧ (∀ k ∈ c.classes, k ∈ subject.classes) ∧
        ∀ a ∈ c.attrs, ∃ b ∈ subject.attrs, b.1 = a.1 ∧ (a.2 = [] ∨ a.2 = b.2) := by
    simp only [mem_features]
    constructor
    · intro h
      refine ⟨fun hne => (answered_element_iff.mp (h _ (.inl ⟨hne, rfl⟩))).2,
        fun k hk => answered_className_iff.mp (h _ (.inr (.inl ⟨k, hk, rfl⟩))),
        fun a ha => answered_attr_iff.mp (h _ (.inr (.inr ⟨a, ha, rfl⟩)))⟩
    · rintro ⟨helement, hclasses, hattrs⟩ f (⟨hne, rfl⟩ | ⟨k, hk, rfl⟩ | ⟨a, ha, rfl⟩)
      · exact answered_element_iff.mpr ⟨hne, helement hne⟩
      · exact answered_className_iff.mpr (hclasses k hk)
      · exact answered_attr_iff.mpr (hattrs a ha)
  rw [answeredPath_iff hstar, hall, features_ne_nil_iff]
  constructor
  · rintro ⟨hasks, helement, hclasses, hattrs⟩
    refine ⟨hasks, ?_, hclasses, hattrs⟩
    by_cases hne : c.element = []
    · exact .inl hne
    · exact .inr (.inr (helement hne))
  · intro h
    refine ⟨h.asks, fun hne => ?_, h.classes, h.attrs⟩
    rcases h.element with hnil | hall | heq
    · exact absurd hnil hne
    · exact absurd hall hplain.element
    · exact heq

/-- The features that a selector asks for are answered if its compound matches. -/
theorem answeredPath_features_iff {s : Selector} (hshaped : s.Shaped) (hstarless : s.Starless)
    (hname : subject.element ≠ []) :
    AnsweredPath subject.features s.features ↔ s.toCompound.Matches subject := by
  rcases hshaped.compound with hplain | ⟨helement, hclasses, hattrs⟩
  · exact answeredPath_features_of_plain hplain hstarless.1
  · have hfeatures : s.features = [.element "*"] := by
      rw [Compound.features, helement, hclasses, hattrs]
      rfl
    rw [hfeatures]
    constructor
    · intro
      refine ⟨.inl (by rw [helement]; decide), .inr (.inl helement), ?_, ?_⟩
      · rw [hclasses]
        exact List.forall_mem_nil _
      · rw [hattrs]
        exact List.forall_mem_nil _
    · intro
      exact ⟨.element subject.element, mem_features.mpr (.inl ⟨hname, rfl⟩), .inr rfl⟩

/-- Negations are looked up in a trie of their own. -/
theorem anyHolds_iff {compounds : List Compound} (hplain : ∀ c ∈ compounds, c.Plain)
    (hstarless : ∀ c ∈ compounds, c.Starless) :
    anyHolds compounds subject = true ↔ ∃ c ∈ compounds, c.Matches subject := by
  simp only [anyHolds, Bool.not_eq_true', List.isEmpty_eq_false_iff_exists_mem, Trie.mem_hits,
    Trie.has_foldl_insert, Trie.has_empty, or_false]
  constructor
  · rintro ⟨-, path, ⟨c, hc, rfl, -, -⟩, h⟩
    exact ⟨c, hc, (answeredPath_features_of_plain (hplain c hc) (hstarless c hc)).mp h⟩
  · rintro ⟨c, hc, h⟩
    exact ⟨(), c.features, ⟨c, hc, rfl, features_ne_nil_iff.mpr h.asks, trivial⟩,
      (answeredPath_features_of_plain (hplain c hc) (hstarless c hc)).mpr h⟩

/-! ### Judging hits -/

namespace Matcher

variable {α : Type}

def Passes (subject : Compound) (hit : Registered α) : Prop :=
  hit.selector.nots = [] ∨ anyHolds hit.selector.nots subject = false

def Reported (r : MatchReport α) (a : α) : Prop := ∃ s, (s, a) ∈ r.reports

def Grouped (hits : List (Registered α)) : Prop :=
  ∀ hit ∈ hits, ∀ hit' ∈ hits, ∀ g, hit.group = some g → hit'.group = some g → hit.value = hit'.value

/-- A marked list had a match, and its value was reported. -/
structure Consistent (hits : List (Registered α)) (r : MatchReport α) : Prop where
  matched : r.groups ≠ [] → r.matched = true
  reported : ∀ hit ∈ hits, ∀ g, hit.group = some g → g ∈ r.groups → Reported r hit.value

/-- What a hit adds to a report. -/
theorem judge_cases (subject : Compound) (reporting : Bool) (r : MatchReport α) (hit : Registered α) :
    (∃ g, hit.group = some g ∧ g ∈ r.groups ∧
      judge reporting subject r hit = { r with matched := true }) ∨
    (¬ Passes subject hit ∧ judge reporting subject r hit = r) ∨
    (Passes subject hit ∧ reporting = false ∧
      judge reporting subject r hit = { r with matched := true }) ∨
    (Passes subject hit ∧ reporting = true ∧ judge reporting subject r hit =
      { matched := true
        groups := hit.group.toList ++ r.groups
        reports := r.reports ++ [(hit.selector, hit.value)] }) := by
  have hpasses : Passes subject hit ↔
      ¬ (!hit.selector.nots.isEmpty && anyHolds hit.selector.nots subject) = true := by
    simp [Passes, Decidable.imp_iff_not_or]
  rw [hpasses]
  unfold judge
  split
  · next hmarked =>
      left
      cases hgroup : hit.group with
      | none => simp [hgroup] at hmarked
      | some g => exact ⟨g, rfl, by simpa [hgroup] using hmarked, rfl⟩
  · right
    split
    · next hnot => exact .inl ⟨not_not_intro hnot, rfl⟩
    · next hnot =>
        right
        cases reporting with
        | false => exact .inl ⟨hnot, rfl, rfl⟩
        | true => exact .inr ⟨hnot, rfl, rfl⟩

/-- A hit is judged a match if it passes; if anyone is told, its value is reported by then. -/
theorem judge_step (subject : Compound) {hits : List (Registered α)} (hgrouped : Grouped hits) {r : MatchReport α}
    (hr : Consistent hits r) {hit : Registered α} (hhit : hit ∈ hits) (reporting : Bool) :
    Consistent hits (judge reporting subject r hit) ∧
      ((judge reporting subject r hit).matched = true ↔ r.matched = true ∨ Passes subject hit) ∧
      (reporting = true → ∀ a, Reported (judge reporting subject r hit) a ↔
        Reported r a ∨ hit.value = a ∧ Passes subject hit) := by
  rcases judge_cases subject reporting r hit with
    ⟨g, hg, hmem, heq⟩ | ⟨hnot, heq⟩ | ⟨hpass, hfalse, heq⟩ | ⟨hpass, htrue, heq⟩ <;> rw [heq]
  · have hmatched : r.matched = true := hr.matched (List.ne_nil_of_mem hmem)
    refine ⟨⟨fun _ => rfl, hr.reported⟩, by simp [hmatched], fun _ a => ?_⟩
    refine ⟨.inl, ?_⟩
    rintro (h | ⟨rfl, -⟩)
    · exact h
    · exact hr.reported hit hhit g hg hmem
  · exact ⟨hr, by simp [hnot], fun _ a => by simp [hnot]⟩
  · exact ⟨⟨fun _ => rfl, hr.reported⟩, by simp [hpass], by simp [hfalse]⟩
  · have hreported : ∀ a, Reported
        { matched := true, groups := hit.group.toList ++ r.groups,
          reports := r.reports ++ [(hit.selector, hit.value)] } a ↔ Reported r a ∨ hit.value = a := by
      intro a
      simp [Reported, exists_or, eq_comm (a := a)]
    refine ⟨⟨fun _ => rfl, fun hit' hhit' g hg hmem => ?_⟩, by simp [hpass], fun _ a => ?_⟩
    · rw [hreported]
      rcases List.mem_append.mp hmem with hmem | hmem
      · exact .inr (hgrouped hit hhit hit' hhit' g (Option.mem_toList.mp hmem) hg)
      · exact .inl (hr.reported hit' hhit' g hg hmem)
    · rw [hreported]
      simp [hpass]

/-- All hits are judged by whether they pass. -/
theorem foldl_judge (subject : Compound) {hits : List (Registered α)} (hgrouped : Grouped hits) (reporting : Bool) :
    ∀ (hs : List (Registered α)) (r : MatchReport α), Consistent hits r → (∀ hit ∈ hs, hit ∈ hits) →
      ((hs.foldl (judge reporting subject) r).matched = true ↔
        r.matched = true ∨ ∃ hit ∈ hs, Passes subject hit) ∧
      (reporting = true → ∀ a, Reported (hs.foldl (judge reporting subject) r) a ↔
        Reported r a ∨ ∃ hit ∈ hs, hit.value = a ∧ Passes subject hit) := by
  intro hs
  induction hs with
  | nil =>
      intro r _ _
      simp
  | cons hit hs ih =>
      intro r hr hsub
      obtain ⟨hhit, hsub⟩ := List.forall_mem_cons.mp hsub
      obtain ⟨hr', hmatched, hreported⟩ := judge_step subject hgrouped hr hhit reporting
      obtain ⟨hmatched', hreported'⟩ := ih _ hr' hsub
      rw [List.foldl_cons]
      refine ⟨?_, fun htrue a => ?_⟩
      · rw [hmatched', hmatched]
        simp only [List.mem_cons, exists_eq_or_imp, or_assoc]
      · rw [hreported' htrue, hreported htrue]
        simp only [List.mem_cons, exists_eq_or_imp, or_assoc]

/-- Only lists of hits are marked. -/
theorem mem_groups_foldl_judge {reporting : Bool} {g : Nat} :
    ∀ (hs : List (Registered α)) (r : MatchReport α),
      g ∈ (hs.foldl (judge reporting subject) r).groups →
        g ∈ r.groups ∨ ∃ hit ∈ hs, hit.group = some g := by
  intro hs
  induction hs with
  | nil => exact fun r h => .inl h
  | cons hit hs ih =>
      intro r h
      rw [List.foldl_cons] at h
      rcases ih _ h with h | ⟨hit', hhit', hg⟩
      · rcases judge_cases subject reporting r hit with
          ⟨-, -, -, heq⟩ | ⟨-, heq⟩ | ⟨-, -, heq⟩ | ⟨-, -, heq⟩ <;> rw [heq] at h
        · exact .inl h
        · exact .inl h
        · exact .inl h
        · rcases List.mem_append.mp h with h | h
          · exact .inr ⟨hit, List.mem_cons_self, Option.mem_toList.mp h⟩
          · exact .inl h
      · exact .inr ⟨hit', List.mem_cons_of_mem _ hhit', hg⟩

/-! ### Histories -/

/-- What a matcher can be asked: to register a list, or to match, with someone to be told or not. -/
inductive Request (α : Type) where
  | register (selectors : List Selector) (value : α)
  | look (subject : Compound) (reporting : Bool)

def handle (m : Matcher α) : Request α → Matcher α
  | .register selectors value => m.add selectors value
  | .look subject reporting => m.marked subject reporting

/-- The matcher after a history of requests, the first one first. -/
def after (history : List (Request α)) : Matcher α := history.foldl handle {}

/-- A matcher keeps the selectors registered in a history, each under its features, and numbers the
lists of several. Only such lists are marked. -/
structure Keeps (history : List (Request α)) (m : Matcher α) : Prop where
  registered : ∀ path hit, m.trie.Has path hit → path = hit.selector.features ∧
    ∃ ss, .register ss hit.value ∈ history ∧ hit.selector ∈ ss
  kept : ∀ ss a, .register ss a ∈ history → ∀ s ∈ ss, s.features ≠ [] →
    ∃ hit, m.trie.Has s.features hit ∧ hit.selector = s ∧ hit.value = a
  numbered : ∀ path hit, m.trie.Has path hit → ∀ g, hit.group = some g → g < m.groups
  grouped : ∀ path hit path' hit', m.trie.Has path hit → m.trie.Has path' hit' →
    ∀ g, hit.group = some g → hit'.group = some g → hit.value = hit'.value
  marks : ∀ g ∈ m.marks, g < m.groups

variable {history : List (Request α)} {m : Matcher α}

theorem Keeps.empty : Keeps [] ({} : Matcher α) where
  registered path hit h := absurd h (Trie.has_empty path hit)
  kept _ _ h := nomatch h
  numbered path hit h := absurd h (Trie.has_empty path hit)
  grouped path hit _ _ h := absurd h (Trie.has_empty path hit)
  marks _ h := nomatch h

theorem Keeps.cleared (h : Keeps history m) : m.cleared = [] := by
  refine List.filter_eq_nil_iff.mpr fun g hg => ?_
  simpa using h.marks g hg

/-- What is in the trie after a list was registered. -/
theorem has_add {selectors : List Selector} {value : α} {path : List Feature} {hit : Registered α} :
    (m.add selectors value).trie.Has path hit ↔
      (hit.selector ∈ selectors ∧ path = hit.selector.features ∧ path ≠ [] ∧ hit.value = value ∧
        hit.group = if 1 < selectors.length then some m.groups else none) ∨ m.trie.Has path hit := by
  simp only [Matcher.add, Trie.has_foldl_insert]
  refine or_congr_left ?_
  constructor
  · rintro ⟨s, hs, rfl, hne, rfl⟩
    exact ⟨hs, rfl, hne, rfl, rfl⟩
  · obtain ⟨s, a, group⟩ := hit
    rintro ⟨hs, rfl, hne, rfl, rfl⟩
    exact ⟨s, hs, rfl, hne, rfl⟩

theorem Keeps.add (h : Keeps history m) (selectors : List Selector) (value : α) :
    Keeps (history ++ [.register selectors value]) (m.add selectors value) := by
  have hgroups : m.groups ≤ (m.add selectors value).groups := by
    simp only [Matcher.add]
    split <;> omega
  -- the number of the new list is that of no list registered before
  have hnew : ∀ g, (if 1 < selectors.length then some m.groups else none) = some g →
      g = m.groups ∧ g < (m.add selectors value).groups := by
    intro g hg
    split at hg
    · next hseveral =>
        cases hg
        simp [Matcher.add, hseveral]
    · cases hg
  refine ⟨fun path hit hhas => ?_, fun ss a hmem s hs hne => ?_, fun path hit hhas g hg => ?_,
    fun path hit path' hit' hhas hhas' g hg hg' => ?_, fun g hg => Nat.lt_of_lt_of_le (h.marks g hg) hgroups⟩
  · rcases has_add.mp hhas with ⟨hs, hpath, -, hvalue, -⟩ | hhas
    · exact ⟨hpath, selectors, by simp [hvalue], hs⟩
    · obtain ⟨hpath, ss, hmem, hs⟩ := h.registered path hit hhas
      exact ⟨hpath, ss, List.mem_append_left _ hmem, hs⟩
  · rcases List.mem_append.mp hmem with hmem | hmem
    · obtain ⟨hit, hhas, hhit⟩ := h.kept ss a hmem s hs hne
      exact ⟨hit, has_add.mpr (.inr hhas), hhit⟩
    · cases List.mem_singleton.mp hmem
      exact ⟨⟨s, value, _⟩, has_add.mpr (.inl ⟨hs, rfl, hne, rfl, rfl⟩), rfl, rfl⟩
  · rcases has_add.mp hhas with ⟨-, -, -, -, hgroup⟩ | hhas
    · exact (hnew g (hgroup ▸ hg)).2
    · exact Nat.lt_of_lt_of_le (h.numbered path hit hhas g hg) hgroups
  · rcases has_add.mp hhas with ⟨-, -, -, hvalue, hgroup⟩ | hhas <;>
      rcases has_add.mp hhas' with ⟨-, -, -, hvalue', hgroup'⟩ | hhas'
    · rw [hvalue, hvalue']
    · exact absurd (hnew g (hgroup ▸ hg)).1 (Nat.ne_of_lt (h.numbered path' hit' hhas' g hg'))
    · exact absurd (hnew g (hgroup' ▸ hg')).1 (Nat.ne_of_lt (h.numbered path hit hhas g hg))
    · exact h.grouped path hit path' hit' hhas hhas' g hg hg'

/-- A match leaves everything but the marks, and marks numbered lists only. -/
theorem Keeps.marked (h : Keeps history m) (subject : Compound) (reporting : Bool) :
    Keeps (history ++ [.look subject reporting]) (m.marked subject reporting) := by
  refine ⟨fun path hit hhas => ?_, fun ss a hmem => ?_, h.numbered, h.grouped, fun g hg => ?_⟩
  · obtain ⟨hpath, ss, hmem, hs⟩ := h.registered path hit hhas
    exact ⟨hpath, ss, List.mem_append_left _ hmem, hs⟩
  · rcases List.mem_append.mp hmem with hmem | hmem
    · exact h.kept ss a hmem
    · cases List.mem_singleton.mp hmem
  · rcases mem_groups_foldl_judge _ _ hg with hg | ⟨hit, hhit, hg⟩
    · rw [h.cleared] at hg
      cases hg
    · obtain ⟨path, hhas, -⟩ := (Trie.mem_hits _).mp hhit
      exact h.numbered path hit hhas g hg

theorem keeps_after (history : List (Request α)) : Keeps history (after history) := by
  have hrun : ∀ (later earlier : List (Request α)) (m : Matcher α), Keeps earlier m →
      Keeps (earlier ++ later) (later.foldl handle m) := by
    intro later
    induction later with
    | nil =>
        intro earlier m h
        rwa [List.append_nil]
    | cons request later ih =>
        intro earlier m h
        rw [List.append_cons]
        refine ih _ _ ?_
        cases request with
        | register selectors value => exact h.add selectors value
        | look subject reporting => exact h.marked subject reporting
  exact hrun history [] {} .empty

/-! ### The main statement -/

theorem Keeps.hit_iff (h : Keeps history m) (hname : subject.element ≠ [])
    (hread : ∀ ss a, .register ss a ∈ history → ∀ s ∈ ss, s.Shaped ∧ s.Starless) (a : α) :
    (∃ hit ∈ m.trie.hits subject.features, hit.value = a ∧ Passes subject hit) ↔
      ∃ ss, .register ss a ∈ history ∧ ∃ s ∈ ss, s.Matches subject := by
  have hpasses : ∀ hit : Registered α, hit.selector.Shaped → hit.selector.Starless →
      (Passes subject hit ↔ ∀ c ∈ hit.selector.nots, ¬ c.Matches subject) := by
    intro hit hshaped hstarless
    rw [Passes, ← Bool.not_eq_true, anyHolds_iff hshaped.nots hstarless.2]
    constructor
    · rintro (hnil | hnone) c hc hmatches
      · rw [hnil] at hc
        cases hc
      · exact hnone ⟨c, hc, hmatches⟩
    · exact fun hnone => .inr fun ⟨c, hc, hmatches⟩ => hnone c hc hmatches
  constructor
  · rintro ⟨hit, hhit, rfl, hpass⟩
    obtain ⟨path, hhas, hanswered⟩ := (Trie.mem_hits _).mp hhit
    obtain ⟨rfl, ss, hmem, hs⟩ := h.registered path hit hhas
    obtain ⟨hshaped, hstarless⟩ := hread ss _ hmem _ hs
    exact ⟨ss, hmem, _, hs, (answeredPath_features_iff hshaped hstarless hname).mp hanswered,
      (hpasses hit hshaped hstarless).mp hpass⟩
  · rintro ⟨ss, hmem, s, hs, hmatches, hnots⟩
    obtain ⟨hshaped, hstarless⟩ := hread ss a hmem s hs
    obtain ⟨hit, hhas, rfl, rfl⟩ := h.kept ss a hmem s hs (features_ne_nil_iff.mpr hmatches.asks)
    exact ⟨hit, (Trie.mem_hits _).mpr
      ⟨_, hhas, (answeredPath_features_iff hshaped hstarless hname).mpr hmatches⟩, rfl,
      (hpasses hit hshaped hstarless).mpr hnots⟩

end Matcher

theorem element_ofElement (name : Text) (attributes : List (Text × Text)) :
    (Compound.ofElement name attributes).element = name := by
  have hclasses : ∀ (words : List Text) (c : Compound),
      (words.foldl Compound.addClass c).element = c.element := by
    intro words
    induction words with
    | nil => exact fun _ => rfl
    | cons w ws ih => exact fun c => ih _
  have hattrs : ∀ (attributes : List (Text × Text)) (c : Compound),
      (attributes.foldl (fun (c : Compound) (a : Text × Text) =>
        let c := c.addAttribute a.1 a.2
        if a.1.lower == "class" then (Text.words a.2).foldl Compound.addClass c else c) c).element =
          c.element := by
    intro attributes
    induction attributes with
    | nil => exact fun _ => rfl
    | cons a as ih =>
        intro c
        rw [List.foldl_cons, ih]
        dsimp only
        split
        · rw [hclasses]
          rfl
        · rfl
  exact hattrs attributes { element := name }

/-- Whatever a matcher was asked before, a match of an element reports the values of the lists with a
selector that matches, and there is a match if any registered selector does. -/
theorem Matcher.run_iff_matches {α : Type} (history : List (Request α))
    (hread : ∀ ss a, Request.register ss a ∈ history →
      (∃ text, parseSelectors text = .ok ss) ∧ ∀ s ∈ ss, s.Starless)
    (name : Text) (attributes : List (Text × Text)) (hname : name ≠ []) :
    (∀ a, (∃ s, (s, a) ∈ ((after history).run (.ofElement name attributes)).reports) ↔
      ∃ ss, .register ss a ∈ history ∧ ∃ s ∈ ss, s.Matches (.ofElement name attributes)) ∧
    ∀ reporting, ((after history).run (.ofElement name attributes) reporting).matched = true ↔
      ∃ ss a, .register ss a ∈ history ∧ ∃ s ∈ ss, s.Matches (.ofElement name attributes) := by
  generalize hsubject : Compound.ofElement name attributes = subject
  have helement : subject.element ≠ [] := by rwa [← hsubject, element_ofElement]
  have hkeeps := keeps_after history
  have hshaped : ∀ ss a, Request.register ss a ∈ history → ∀ s ∈ ss, s.Shaped ∧ s.Starless := by
    intro ss a hmem s hs
    obtain ⟨⟨text, htext⟩, hstarless⟩ := hread ss a hmem
    exact ⟨shaped_of_parseSelectors htext s hs, hstarless s hs⟩
  have hgrouped : Grouped ((after history).trie.hits subject.features) := by
    intro hit hhit hit' hhit' g hg hg'
    obtain ⟨path, hhas, -⟩ := (Trie.mem_hits _).mp hhit
    obtain ⟨path', hhas', -⟩ := (Trie.mem_hits _).mp hhit'
    exact hkeeps.grouped path hit path' hit' hhas hhas' g hg hg'
  have hstart : Consistent ((after history).trie.hits subject.features)
      { groups := (after history).cleared } := by
    rw [hkeeps.cleared]
    exact ⟨fun h => absurd rfl h, fun _ _ _ _ h => nomatch h⟩
  have hjudge := fun reporting => foldl_judge subject hgrouped reporting _ _ hstart
    fun _ => id
  refine ⟨fun a => ?_, fun reporting => ?_⟩
  · rw [← hkeeps.hit_iff helement hshaped a]
    simpa [Reported, Matcher.run] using (hjudge true).2 rfl a
  · rw [exists_comm]
    simp only [← hkeeps.hit_iff helement hshaped]
    rw [show (∃ a, ∃ hit ∈ (after history).trie.hits subject.features, hit.value = a ∧
        Passes subject hit) ↔ ∃ hit ∈ (after history).trie.hits subject.features, Passes subject hit from
      ⟨fun ⟨_, hit, hhit, _, hpass⟩ => ⟨hit, hhit, hpass⟩,
        fun ⟨hit, hhit, hpass⟩ => ⟨hit.value, hit, hhit, rfl, hpass⟩⟩]
    simpa [Matcher.run] using (hjudge reporting).1

namespace Sample

/-- The selectors of `.btn:not(.disabled)`. -/
def button : List Selector := [{ classes := ["btn"], nots := [{ classes := ["disabled"] }] }]

/-- The selectors of `a, [routerLink]`. -/
def link : List Selector := [{ element := "a" }, { attrs := [("routerLink", [])] }]

/-- A match between two registrations. -/
def history : List (Matcher.Request Nat) :=
  [.register link 1, .look { element := "a" } true, .register button 2]

/-- An element that both selectors of `link` match, and what `button` negates. -/
def attributes : List (Text × Text) := [("routerLink", "/"), ("class", "btn disabled")]

theorem run_iff_matches_link :
    (parseSelectors "a, [routerLink]" = .ok link ∧ parseSelectors ".btn:not(.disabled)" = .ok button) ∧
      (∃ s, (s, 1) ∈ ((Matcher.after history).run (.ofElement "a" attributes)).reports) ∧
      ¬ ∃ s, (s, 2) ∈ ((Matcher.after history).run (.ofElement "a" attributes)).reports := by
  have hlink : parseSelectors "a, [routerLink]" = .ok link := rfl
  have hbutton : parseSelectors ".btn:not(.disabled)" = .ok button := rfl
  have hread : ∀ ss a, Matcher.Request.register ss a ∈ history →
      (∃ text, parseSelectors text = .ok ss) ∧ ∀ s ∈ ss, s.Starless := by
    intro ss a h
    simp only [history, List.mem_cons, reduceCtorEq, List.not_mem_nil, or_false, false_or,
      Matcher.Request.register.injEq] at h
    rcases h with ⟨rfl, -⟩ | ⟨rfl, -⟩
    · exact ⟨⟨_, hlink⟩, by decide⟩
    · exact ⟨⟨_, hbutton⟩, by decide⟩
  obtain ⟨h, -⟩ := Matcher.run_iff_matches history hread "a" attributes (by decide)
  refine ⟨⟨hlink, hbutton⟩, (h 1).mpr ⟨link, List.mem_cons_self, by decide +kernel⟩, fun h₂ => ?_⟩
  obtain ⟨ss, hss, hmatches⟩ := (h 2).mp h₂
  obtain rfl : ss = button := by simpa [history] using hss
  revert hmatches
  decide +kernel

end Sample

end TemplateCompiler
