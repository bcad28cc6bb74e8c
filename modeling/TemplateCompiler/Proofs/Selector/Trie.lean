import TemplateCompiler.Selector.Matcher

/-!
# What a trie holds

`t.Has path a` says that `t` keeps `a` under a path of features, read off the tables of the trie.
Two facts about this view are all that the rest of the theory needs:

* `Trie.has_insert` : insertion adds one value under one path, unless the path is empty;
* `Trie.mem_hits` : a subject hits the values under the paths it answers.

A path is answered (`Feature.AnsweredPath`) if each of its features is answered by some feature of the
subject; only the last one may be a wildcard. The order of the path plays no part, since every step
looks at the whole subject.
-/

namespace TemplateCompiler

/-! ### Answered paths -/

namespace Feature

/-- A feature asked for on the way is one of those that a feature of the subject answers. -/
def Answered (subject : List Feature) (g : Feature) : Prop := ∃ f ∈ subject, g ∈ f.answers

/-- A feature asked for last may also be a wildcard. -/
def AnsweredLast (subject : List Feature) (g : Feature) : Prop :=
  ∃ f ∈ subject, g ∈ f.answers ∨ g = f.wildcard

def AnsweredPath (subject : List Feature) : List Feature → Prop
  | [] => False
  | [g] => AnsweredLast subject g
  | g :: gs => Answered subject g ∧ AnsweredPath subject gs

end Feature

open Feature (Answered AnsweredLast AnsweredPath)

namespace Trie

variable {α : Type}

/-- The trie keeps a value under a path. -/
def Has : Trie α → List Feature → α → Prop
  | _, [], _ => False
  | node ends _, [f], a => a ∈ endsAt ends f
  | node _ more, f :: g :: path, a => ∃ t, more.lookup f = some t ∧ t.Has (g :: path) a

theorem has_empty (path : List Feature) (a : α) : ¬ (empty : Trie α).Has path a := by
  match path with
  | [] => exact id
  | [_] => exact List.not_mem_nil
  | _ :: _ :: _ =>
      rintro ⟨t, h, -⟩
      cases h

/-! ### Insertion -/

theorem endsAt_addEnd (f g : Feature) (a b : α) (ends : List (Feature × List α)) :
    b ∈ endsAt (addEnd f a ends) g ↔ (g = f ∧ b = a) ∨ b ∈ endsAt ends g := by
  induction ends with
  | nil =>
      by_cases h : g = f
      · simp [addEnd, endsAt, h]
      · simp [addEnd, endsAt, h, List.lookup_cons, beq_false_of_ne h]
  | cons e es ih =>
      obtain ⟨k, as⟩ := e
      rw [addEnd]
      by_cases hk : k = f <;> by_cases hg : g = k
      · subst hk hg
        simp [endsAt, or_comm]
      · subst hk
        simp [endsAt, List.lookup_cons, beq_false_of_ne hg, hg]
      · subst hg
        simp [hk, endsAt]
      · rw [if_neg hk]
        simpa only [endsAt, List.lookup_cons, beq_false_of_ne hg] using ih

theorem lookup_changeMore (f g : Feature) (change : Trie α → Trie α)
    (more : List (Feature × Trie α)) :
    (changeMore f change more).lookup g =
      if g = f then some (change ((more.lookup f).getD empty)) else more.lookup g := by
  induction more with
  | nil =>
      by_cases h : g = f
      · simp [changeMore, h]
      · simp [changeMore, h, List.lookup_cons, beq_false_of_ne h]
  | cons e es ih =>
      obtain ⟨k, t⟩ := e
      rw [changeMore]
      by_cases hk : k = f <;> by_cases hg : g = k
      · subst hk hg
        simp
      · subst hk
        simp [List.lookup_cons, beq_false_of_ne hg, hg]
      · subst hg
        simp [hk]
      · rw [if_neg hk, List.lookup_cons, beq_false_of_ne hg, ih]
        simp [List.lookup_cons, beq_false_of_ne hg, beq_false_of_ne (Ne.symm hk)]

/-- A trie keeps what it kept, and an inserted value under its path. -/
theorem has_insert (a b : α) (path p : List Feature) (t : Trie α) :
    (t.insert a path).Has p b ↔ (p = path ∧ path ≠ [] ∧ b = a) ∨ t.Has p b := by
  induction path generalizing t p with
  | nil => simp [insert]
  | cons f fs ih =>
      obtain ⟨ends, more⟩ := t
      match fs, p with
      | [], [] => simp [Has]
      | [], [g] => simp [insert, Has, endsAt_addEnd]
      | [], _ :: _ :: _ => simp [insert, Has]
      | _ :: _, [] => simp [Has]
      | _ :: _, [g] => simp [insert, Has]
      | f' :: fs, g :: g' :: p =>
          simp only [insert, Has, lookup_changeMore]
          by_cases hg : g = f
          · subst hg
            simp only [if_true, Option.some.injEq, exists_eq_left', ih]
            cases hl : more.lookup g with
            | none => simp [has_empty]
            | some t => simp
          · simp [hg]

theorem has_foldl_insert {β : Type} (value : β → α) (path : β → List Feature) (b : α)
    (p : List Feature) (xs : List β) (t : Trie α) :
    (xs.foldl (fun t x => t.insert (value x) (path x)) t).Has p b ↔
      (∃ x ∈ xs, p = path x ∧ path x ≠ [] ∧ b = value x) ∨ t.Has p b := by
  induction xs generalizing t with
  | nil => simp
  | cons x xs ih =>
      rw [List.foldl_cons, ih, has_insert]
      simp only [List.mem_cons, exists_eq_or_imp, or_left_comm, or_assoc]

/-! ### Hits -/

theorem hitsBelow_eq (subject : List Feature) (f : Feature) (more : List (Feature × Trie α)) :
    hitsBelow subject f more = ((more.lookup f).map (hits subject)).getD [] := by
  induction more with
  | nil => rfl
  | cons e es ih =>
      obtain ⟨g, t⟩ := e
      rw [hitsBelow]
      by_cases h : g = f
      · simp [h]
      · simp [h, ih, List.lookup_cons, beq_false_of_ne (Ne.symm h)]

theorem mem_endHits {ends : List (Feature × List α)} {f : Feature} {a : α} :
    a ∈ endHits ends f ↔ ∃ g, (g ∈ f.answers ∨ g = f.wildcard) ∧ a ∈ endsAt ends g := by
  have hne : ∃ g, g ∈ f.answers := by
    cases f with
    | attr n v => by_cases h : v.isEmpty <;> simp [Feature.answers, h]
    | _ => simp [Feature.answers]
  simp only [endHits, List.mem_flatMap, List.mem_append]
  constructor
  · rintro ⟨g, hg, ha | ha⟩
    · exact ⟨g, .inl hg, ha⟩
    · exact ⟨f.wildcard, .inr rfl, ha⟩
  · rintro ⟨g, hg | rfl, ha⟩
    · exact ⟨g, hg, .inl ha⟩
    · obtain ⟨g, hg⟩ := hne
      exact ⟨g, hg, .inr ha⟩

/-- What a node hits: values that end here, and values further down. -/
theorem mem_hits_node {subject : List Feature} {ends : List (Feature × List α)}
    {more : List (Feature × Trie α)} {a : α} :
    a ∈ hits subject (node ends more) ↔
      (∃ g, AnsweredLast subject g ∧ a ∈ endsAt ends g) ∨
        ∃ g t, Answered subject g ∧ more.lookup g = some t ∧ a ∈ hits subject t := by
  have hbelow : ∀ g, a ∈ hitsBelow subject g more ↔
      ∃ t, more.lookup g = some t ∧ a ∈ hits subject t := by
    intro g
    rw [hitsBelow_eq]
    cases more.lookup g <;> simp
  simp only [hits, List.mem_flatMap, List.mem_append, mem_endHits, hbelow, AnsweredLast, Answered]
  constructor
  · rintro ⟨f, hf, ⟨g, hg, ha⟩ | ⟨g, hg, t, ht, ha⟩⟩
    · exact .inl ⟨g, ⟨f, hf, hg⟩, ha⟩
    · exact .inr ⟨g, t, ⟨f, hf, hg⟩, ht, ha⟩
  · rintro (⟨g, ⟨f, hf, hg⟩, ha⟩ | ⟨g, t, ⟨f, hf, hg⟩, ht, ha⟩)
    · exact ⟨f, hf, .inl ⟨g, hg, ha⟩⟩
    · exact ⟨f, hf, .inr ⟨g, hg, t, ht, ha⟩⟩

theorem mem_of_lookup_eq_some {more : List (Feature × Trie α)} {f : Feature} {t : Trie α}
    (h : more.lookup f = some t) : (f, t) ∈ more := by
  obtain ⟨l, r, rfl, -⟩ := List.lookup_eq_some_iff.mp h
  simp

/-- A subject hits the values under the paths it answers. -/
theorem mem_hits {subject : List Feature} {a : α} :
    ∀ t : Trie α, a ∈ t.hits subject ↔ ∃ path, t.Has path a ∧ AnsweredPath subject path
  | node ends more => by
      rw [mem_hits_node]
      constructor
      · rintro (⟨g, hg, ha⟩ | ⟨g, t, hg, ht, ha⟩)
        · exact ⟨[g], ha, hg⟩
        · have := mem_of_lookup_eq_some ht
          obtain ⟨path, hpath, hanswered⟩ := (mem_hits t).mp ha
          match path with
          | g' :: path => exact ⟨g :: g' :: path, ⟨t, ht, hpath⟩, hg, hanswered⟩
      · rintro ⟨path, hpath, hanswered⟩
        match path with
        | [g] => exact .inl ⟨g, hanswered, hpath⟩
        | g :: g' :: path =>
            obtain ⟨t, ht, hpath⟩ := hpath
            have := mem_of_lookup_eq_some ht
            exact .inr ⟨g, t, hanswered.1, ht, (mem_hits t).mpr ⟨_, hpath, hanswered.2⟩⟩
termination_by t => sizeOf t
decreasing_by
  all_goals
    have := List.sizeOf_lt_of_mem ‹(g, t) ∈ more›
    simp only [Prod.mk.sizeOf_spec, node.sizeOf_spec] at *
    omega

end Trie

end TemplateCompiler
