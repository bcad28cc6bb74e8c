import TemplateCompiler.Proofs.Selector.Matching
import Mathlib.Algebra.BigOperators.Ring.List
import Mathlib.Data.List.Nodup
import Mathlib.Tactic.Ring

/-!
# How often a match reports a list

A list of several selectors is reported at most once for an element. A selector registered alone is
reported as often as it is hit, and a path is hit once for each way in which the features of the subject
answer it (`Feature.ways`).

* `Trie.countP_hits_insert` : what an inserted value adds to the hits of a subject;
* `Matcher.countP_hits_registered` : the hits of a value, by the selectors registered with it;
* `Matcher.count_foldl_judge_single`, `Matcher.count_foldl_judge_several` : the reports of a value, by its
  hits, for a list of one and a list of several;
* `Matcher.count_run` : the reports of a list, whatever else the matcher was asked;
* `Selector.ways_le_one` : a selector without stars is hit in one way at most, unless the element repeats
  a class or an attribute name.
-/

namespace TemplateCompiler

/-! ### Ways to answer a path -/

namespace Feature

/-- How often a subject answers a feature that is asked for on the way. -/
def times (subject : List Feature) (g : Feature) : Nat := (subject.map fun f => f.answers.count g).sum

/-- How often a subject answers a feature that is asked for last. A wildcard is looked at again with each
feature that is answered. -/
def timesLast (subject : List Feature) (g : Feature) : Nat :=
  (subject.map fun f => f.answers.count g + f.answers.length * if f.wildcard = g then 1 else 0).sum

def ways (subject : List Feature) : List Feature → Nat
  | [] => 0
  | [g] => timesLast subject g
  | g :: gs => times subject g * ways subject gs

theorem ways_cons (subject : List Feature) (g : Feature) {gs : List Feature} (h : gs ≠ []) :
    ways subject (g :: gs) = times subject g * ways subject gs := by
  cases gs with
  | nil => exact absurd rfl h
  | cons => rfl

/-! ### Elements without repeats -/

def alone : Feature → Feature
  | attr n _ => attr n []
  | f => f

theorem alone_of_mem_answers {f g : Feature} (h : g ∈ f.answers) : g.alone = f.alone := by
  cases f with
  | attr n v =>
      rw [answers] at h
      split at h
      · cases List.mem_singleton.mp h
        rfl
      · rcases List.mem_pair.mp h with rfl | rfl <;> rfl
  | _ =>
      cases List.mem_singleton.mp h
      rfl

theorem nodup_answers (f : Feature) : f.answers.Nodup := by
  cases f with
  | attr n v =>
      rw [answers]
      split
      · exact List.nodup_singleton _
      · next hv =>
          refine List.nodup_cons.mpr ⟨fun hmem => hv ?_, List.nodup_singleton _⟩
          rw [← (Feature.attr.inj (List.mem_singleton.mp hmem)).2]
          rfl
  | _ => exact List.nodup_singleton _

/-- Features that differ but for their values have no answers in common. -/
theorem nodup_flatMap_answers {subject : List Feature} (h : (subject.map alone).Nodup) :
    (subject.flatMap answers).Nodup := by
  rw [List.nodup_flatMap]
  refine ⟨fun f _ => nodup_answers f, (List.pairwise_map.mp h).imp fun hne => ?_⟩
  intro g hg hg'
  exact hne ((alone_of_mem_answers hg).symm.trans (alone_of_mem_answers hg'))

variable {subject : List Feature}

theorem times_le_one (h : (subject.map alone).Nodup) (g : Feature) : times subject g ≤ 1 := by
  have hcount := List.nodup_iff_count_le_one.mp (nodup_flatMap_answers h) g
  rwa [List.count_flatMap] at hcount

theorem timesLast_eq_times {g : Feature} (hstar : g.wildcard ≠ g) : timesLast subject g = times subject g := by
  refine congrArg List.sum (List.map_congr_left fun f _ => ?_)
  have hne : f.wildcard ≠ g := by
    rintro rfl
    cases f <;> exact hstar rfl
  rw [if_neg hne, Nat.mul_zero, Nat.add_zero]

/-- A path without wildcards is answered in one way at most by features that differ but for their values. -/
theorem ways_le_one (h : (subject.map alone).Nodup) {path : List Feature}
    (hstar : ∀ g ∈ path, g.wildcard ≠ g) : ways subject path ≤ 1 := by
  induction path with
  | nil => exact Nat.zero_le _
  | cons g gs ih =>
      obtain ⟨hg, hgs⟩ := List.forall_mem_cons.mp hstar
      by_cases hnil : gs = []
      · subst hnil
        rw [ways, timesLast_eq_times hg]
        exact times_le_one h g
      · rw [ways_cons subject g hnil]
        exact Nat.mul_le_mul (times_le_one h g) (ih hgs)

end Feature

open Feature

/-- The features of an element differ but for their values if no class and no attribute name is repeated. -/
theorem Compound.nodup_alone_features {subject : Compound} (hclasses : subject.classes.Nodup)
    (hattrs : (subject.attrs.map (·.1)).Nodup) : (subject.features.map alone).Nodup := by
  have halone : subject.features.map alone =
      (if subject.element.isEmpty then [] else [.element subject.element])
        ++ subject.classes.map .className ++ (subject.attrs.map (·.1)).map (.attr · []) := by
    rw [Compound.features, List.map_append, List.map_append, List.map_map, List.map_map, List.map_map]
    refine congrArg (· ++ _ ++ _) ?_
    split <;> rfl
  have helement : (if subject.element.isEmpty then [] else [Feature.element subject.element]).Nodup := by
    split
    · exact List.nodup_nil
    · exact List.nodup_singleton _
  rw [halone]
  refine List.nodup_append.mpr
    ⟨List.nodup_append.mpr ⟨helement, hclasses.map fun _ _ h => className.inj h, ?_⟩,
      hattrs.map fun _ _ h => (attr.inj h).1, ?_⟩
  · rintro f hf g hg rfl
    obtain ⟨k, -, rfl⟩ := List.mem_map.mp hg
    split at hf
    · cases hf
    · cases List.mem_singleton.mp hf
  · rintro f hf g hg rfl
    obtain ⟨n, -, rfl⟩ := List.mem_map.mp hg
    rcases List.mem_append.mp hf with hf | hf
    · split at hf
      · cases hf
      · cases List.mem_singleton.mp hf
    · obtain ⟨k, -, hk⟩ := List.mem_map.mp hf
      cases hk

/-- In how many ways a subject has what a selector asks for; none if a negation holds. -/
def Selector.ways (s : Selector) (subject : Compound) : Nat :=
  if s.nots = [] ∨ anyHolds s.nots subject = false then Feature.ways subject.features s.features else 0

def MatchReport.count {α : Type} [DecidableEq α] (r : MatchReport α) (a : α) : Nat :=
  (r.reports.map (·.2)).count a

/-! ### Hits of an inserted value -/

theorem sum_map_count_mul (fs : List Feature) (g : Feature) (n : Nat) :
    (fs.map fun f => if f = g then n else 0).sum = fs.count g * n := by
  induction fs with
  | nil => simp
  | cons f fs ih =>
      rw [List.map_cons, List.sum_cons, ih, List.count_cons]
      by_cases h : f = g
      · simp [h, Nat.add_mul, Nat.add_comm]
      · simp [h]

namespace Trie

variable {α : Type} (p : α → Bool)

theorem countP_endsAt_addEnd (f g : Feature) (a : α) (ends : List (Feature × List α)) :
    (endsAt (addEnd f a ends) g).countP p =
      (endsAt ends g).countP p + if g = f then (if p a then 1 else 0) else 0 := by
  induction ends with
  | nil =>
      by_cases h : g = f
      · simp [addEnd, endsAt, h, List.countP_cons]
      · simp [addEnd, endsAt, h, List.lookup_cons, beq_false_of_ne h]
  | cons e es ih =>
      obtain ⟨k, as⟩ := e
      rw [addEnd]
      by_cases hk : k = f <;> by_cases hg : g = k
      · subst hk hg
        simp [endsAt, List.countP_cons]
      · subst hk
        simp [endsAt, List.lookup_cons, beq_false_of_ne hg, hg]
      · subst hg
        simp [hk, endsAt]
      · rw [if_neg hk]
        simpa only [endsAt, List.lookup_cons, beq_false_of_ne hg] using ih

theorem countP_endHits_addEnd (f g : Feature) (a : α) (ends : List (Feature × List α)) :
    (endHits (addEnd g a ends) f).countP p = (endHits ends f).countP p +
      (f.answers.count g + f.answers.length * if f.wildcard = g then 1 else 0) * if p a then 1 else 0 := by
  have hwildcard : (f.answers.map fun _ => if f.wildcard = g then (if p a then 1 else 0) else 0).sum =
      (f.answers.length * if f.wildcard = g then 1 else 0) * if p a then 1 else 0 := by
    rw [List.map_const', List.sum_replicate_nat, Nat.mul_assoc, ite_mul, Nat.one_mul, Nat.zero_mul]
  simp only [endHits, List.countP_flatMap, Function.comp_def, List.countP_append, countP_endsAt_addEnd,
    List.sum_map_add, sum_map_count_mul, hwildcard]
  ring

theorem countP_hits_node (subject : List Feature) (ends : List (Feature × List α))
    (more : List (Feature × Trie α)) :
    ((node ends more).hits subject).countP p = (subject.map fun f => (endHits ends f).countP p +
      (f.answers.map fun g => (hitsBelow subject g more).countP p).sum).sum := by
  simp only [hits, List.countP_flatMap, Function.comp_def, List.countP_append]

theorem countP_hitsBelow_changeMore (subject : List Feature) (f g : Feature) (change : Trie α → Trie α)
    (more : List (Feature × Trie α)) {n : Nat}
    (hchange : ∀ t, ((change t).hits subject).countP p = (t.hits subject).countP p + n) :
    (hitsBelow subject g (changeMore f change more)).countP p =
      (hitsBelow subject g more).countP p + if g = f then n else 0 := by
  rw [hitsBelow_eq, hitsBelow_eq, lookup_changeMore]
  by_cases h : g = f
  · subst h
    rw [if_pos rfl, if_pos rfl, Option.map_some, Option.getD_some, hchange]
    cases more.lookup g with
    | none => simp [empty, hits, endHits, endsAt, hitsBelow]
    | some t => rfl
  · rw [if_neg h, if_neg h, Nat.add_zero]

/-- An inserted value is hit once for each way in which its path is answered. -/
theorem countP_hits_insert (subject : List Feature) (a : α) (path : List Feature) (t : Trie α) :
    ((t.insert a path).hits subject).countP p =
      (t.hits subject).countP p + ways subject path * if p a then 1 else 0 := by
  induction path generalizing t with
  | nil => simp [insert, ways]
  | cons f fs ih =>
      obtain ⟨ends, more⟩ := t
      cases fs with
      | nil =>
          simp only [insert, countP_hits_node, countP_endHits_addEnd, ways, timesLast]
          rw [← List.sum_map_mul_right, ← List.sum_map_add]
          exact congrArg List.sum (List.map_congr_left fun g _ => by ring)
      | cons f' fs =>
          simp only [insert, countP_hits_node, countP_hitsBelow_changeMore p subject f _ _ more ih,
            List.sum_map_add, sum_map_count_mul, ways_cons subject f (List.cons_ne_nil f' fs), times]
          rw [List.sum_map_mul_right, Nat.mul_assoc, Nat.add_assoc]

theorem countP_hits_foldl_insert {β : Type} (subject : List Feature) (value : β → α)
    (path : β → List Feature) (xs : List β) (t : Trie α) :
    ((xs.foldl (fun t x => t.insert (value x) (path x)) t).hits subject).countP p = (t.hits subject).countP p +
      (xs.map fun x => ways subject (path x) * if p (value x) then 1 else 0).sum := by
  induction xs generalizing t with
  | nil => simp
  | cons x xs ih => rw [List.foldl_cons, ih, countP_hits_insert, List.map_cons, List.sum_cons, Nat.add_assoc]

end Trie

/-! ### Hits after a history -/

namespace Matcher

variable {α : Type}

section Hits

variable [DecidableEq α] (a : α) (subject : Compound)

instance (hit : Registered α) : Decidable (Passes subject hit) := inferInstanceAs (Decidable (_ ∨ _))

/-- A hit that is a reason to report the value. -/
def Counts (hit : Registered α) : Prop := hit.value = a ∧ Passes subject hit

instance : DecidablePred (Counts a subject) := fun _ => inferInstanceAs (Decidable (_ ∧ _))

def Request.ways : Request α → Nat
  | .register ss b => if b = a then (ss.map (·.ways subject)).sum else 0
  | .look _ _ => 0

theorem countP_hits_handle (m : Matcher α) (request : Request α) :
    ((handle m request).trie.hits subject.features).countP (Counts a subject) =
      (m.trie.hits subject.features).countP (Counts a subject) + request.ways a subject := by
  cases request with
  | look => rfl
  | register ss b =>
      simp only [handle, add]
      rw [Trie.countP_hits_foldl_insert]
      refine congrArg _ ?_
      by_cases h : b = a
      · simp [Request.ways, Counts, Passes, Selector.ways, h]
      · simp [Request.ways, Counts, h]

theorem countP_hits_foldl_handle (requests : List (Request α)) (m : Matcher α) :
    ((requests.foldl handle m).trie.hits subject.features).countP (Counts a subject) =
      (m.trie.hits subject.features).countP (Counts a subject) + (requests.map (·.ways a subject)).sum := by
  induction requests generalizing m with
  | nil => simp
  | cons request requests ih =>
      rw [List.foldl_cons, ih, countP_hits_handle, List.map_cons, List.sum_cons, Nat.add_assoc]

/-- The hits of a value, by the requests that registered it. -/
theorem countP_hits_after (history : List (Request α)) :
    ((after history).trie.hits subject.features).countP (Counts a subject) =
      (history.map (·.ways a subject)).sum := by
  rw [after, countP_hits_foldl_handle, Nat.add_eq_right, List.countP_eq_zero]
  intro hit hhit
  obtain ⟨path, hhas, -⟩ := (Trie.mem_hits _).mp hhit
  exact absurd hhas (Trie.has_empty path hit)

variable {a}

theorem sum_ways_of_notMem {requests : List (Request α)} (hnew : ∀ ss, .register ss a ∉ requests) :
    (requests.map (·.ways a subject)).sum = 0 := by
  refine List.sum_eq_zero fun n hn => ?_
  obtain ⟨request, hmem, rfl⟩ := List.mem_map.mp hn
  cases request with
  | look => rfl
  | register ss b =>
      refine if_neg ?_
      rintro rfl
      exact hnew ss hmem

theorem countP_hits_registered {before later : List (Request α)} (ss : List Selector)
    (hnew : ∀ ss', .register ss' a ∉ before ++ later) :
    ((after (before ++ .register ss a :: later)).trie.hits subject.features).countP (Counts a subject) =
      (ss.map (·.ways subject)).sum := by
  rw [countP_hits_after, List.map_append, List.sum_append, List.map_cons, List.sum_cons,
    sum_ways_of_notMem subject fun ss' h => hnew ss' (List.mem_append_left _ h),
    sum_ways_of_notMem subject fun ss' h => hnew ss' (List.mem_append_right _ h), Nat.zero_add, Nat.add_zero]
  exact if_pos rfl

end Hits

/-! ### The number of a list -/

/-- The selectors registered with the value are those of one list, and no others have its number. -/
structure Sole (a : α) (group : Option Nat) (m : Matcher α) : Prop where
  group_eq : ∀ path hit, m.trie.Has path hit → hit.value = a → hit.group = group
  value_eq : ∀ path hit, m.trie.Has path hit → ∀ g, group = some g → hit.group = some g → hit.value = a
  lt : ∀ g, group = some g → g < m.groups

variable {a : α}

theorem Sole.add {history : List (Request α)} {m : Matcher α} (h : Keeps history m)
    (hnew : ∀ ss, .register ss a ∉ history) (ss : List Selector) :
    Sole a (if 1 < ss.length then some m.groups else none) (m.add ss a) where
  group_eq path hit hhas hvalue := by
    rcases has_add.mp hhas with ⟨-, -, -, -, hgroup⟩ | hhas
    · exact hgroup
    · obtain ⟨-, ss', hmem, -⟩ := h.registered path hit hhas
      exact absurd (hvalue ▸ hmem) (hnew ss')
  value_eq path hit hhas g hg hgroup := by
    rcases has_add.mp hhas with ⟨-, -, -, hvalue, -⟩ | hhas
    · exact hvalue
    · split at hg
      · cases hg
        exact absurd (h.numbered path hit hhas _ hgroup) (Nat.lt_irrefl _)
      · cases hg
  lt g hg := by
    split at hg
    · next hseveral =>
        cases hg
        simp [Matcher.add, hseveral]
    · cases hg

theorem Sole.handle {group : Option Nat} {m : Matcher α} (h : Sole a group m) {request : Request α}
    (hother : ∀ ss, request ≠ .register ss a) : Sole a group (handle m request) := by
  cases request with
  | look => exact ⟨h.group_eq, h.value_eq, h.lt⟩
  | register ss b =>
      have hne : b ≠ a := fun heq => hother ss (by rw [heq])
      refine ⟨fun path hit hhas hvalue => ?_, fun path hit hhas g hg hgroup => ?_, fun g hg => ?_⟩
      · rcases has_add.mp hhas with ⟨-, -, -, hb, -⟩ | hhas
        · exact absurd (hb.symm.trans hvalue) hne
        · exact h.group_eq path hit hhas hvalue
      · rcases has_add.mp hhas with ⟨-, -, -, -, hgroup'⟩ | hhas
        · -- the number of the later list is a new one
          have hlt := h.lt g hg
          rw [hgroup] at hgroup'
          split at hgroup'
          · cases hgroup'
            exact absurd hlt (Nat.lt_irrefl _)
          · cases hgroup'
        · exact h.value_eq path hit hhas g hg hgroup
      · refine Nat.lt_of_lt_of_le (h.lt g hg) ?_
        simp only [Matcher.handle, Matcher.add]
        split <;> omega

theorem Sole.foldl_handle {requests : List (Request α)} (hother : ∀ ss, .register ss a ∉ requests)
    {group : Option Nat} {m : Matcher α} (h : Sole a group m) :
    Sole a group (requests.foldl Matcher.handle m) := by
  induction requests generalizing m with
  | nil => exact h
  | cons request requests ih =>
      refine ih (fun ss hmem => hother ss (List.mem_cons_of_mem _ hmem)) (h.handle fun ss heq => ?_)
      exact hother ss (heq ▸ List.mem_cons_self)

theorem sole_after {before later : List (Request α)} (ss : List Selector)
    (hnew : ∀ ss', .register ss' a ∉ before ++ later) :
    Sole a (if 1 < ss.length then some (after before).groups else none)
      (after (before ++ .register ss a :: later)) := by
  have hsplit : after (before ++ .register ss a :: later) =
      later.foldl Matcher.handle ((after before).add ss a) := List.foldl_append
  rw [hsplit]
  refine Sole.foldl_handle (fun ss' hmem => hnew ss' (List.mem_append_right _ hmem)) ?_
  exact .add (keeps_after before) (fun ss' hmem => hnew ss' (List.mem_append_left _ hmem)) ss

/-! ### Reports -/

theorem mem_groups_judge {subject : Compound} {r : MatchReport α} {hit : Registered α} {g : Nat} :
    g ∈ (judge true subject r hit).groups ↔ g ∈ r.groups ∨ (hit.group = some g ∧ Passes subject hit) := by
  rcases judge_cases subject true r hit with
    ⟨g', hgroup, hmem, heq⟩ | ⟨hnot, heq⟩ | ⟨-, hreporting, -⟩ | ⟨hpass, -, heq⟩
  · rw [heq]
    refine ⟨.inl, ?_⟩
    rintro (h | ⟨h, -⟩)
    · exact h
    · rw [hgroup] at h
      exact Option.some.inj h ▸ hmem
  · simp [heq, hnot]
  · cases hreporting
  · simp [heq, hpass, or_comm]

section Reports

variable [DecidableEq α] {a : α} {subject : Compound}

theorem count_judge (r : MatchReport α) (hit : Registered α) :
    (judge true subject r hit).count a =
      r.count a + if Counts a subject hit ∧ ¬ hit.group.any r.groups.contains then 1 else 0 := by
  have hcounts : Counts a subject hit ↔ hit.value = a ∧
      ¬ (!hit.selector.nots.isEmpty && anyHolds hit.selector.nots subject) = true := by
    simp [Counts, Passes, Decidable.imp_iff_not_or]
  unfold judge
  simp only [hcounts]
  split
  · next hmarked => simp [MatchReport.count, hmarked]
  · next hmarked =>
      split
      · next hnot => simp [hnot]
      · next hnot => simp [MatchReport.count, hmarked, hnot, List.count_append, List.count_singleton]

/-- A value without a list of several is reported for each of its hits. -/
theorem count_foldl_judge_single (hits : List (Registered α)) (r : MatchReport α)
    (hgroup : ∀ hit ∈ hits, hit.value = a → hit.group = none) :
    (hits.foldl (judge true subject) r).count a = r.count a + hits.countP (Counts a subject) := by
  induction hits generalizing r with
  | nil => rfl
  | cons hit hits ih =>
      obtain ⟨hhit, hrest⟩ := List.forall_mem_cons.mp hgroup
      rw [List.foldl_cons, ih _ hrest, count_judge, List.countP_cons]
      by_cases hc : Counts a subject hit
      · simp [hc, hhit hc.1]
        omega
      · simp [hc]

/-- The value of a list of several is reported for its first hit. -/
theorem count_foldl_judge_several {g : Nat} (hits : List (Registered α)) (r : MatchReport α)
    (hgroup : ∀ hit ∈ hits, hit.value = a ↔ hit.group = some g) :
    (hits.foldl (judge true subject) r).count a =
      r.count a + if g ∈ r.groups then 0 else min 1 (hits.countP (Counts a subject)) := by
  induction hits generalizing r with
  | nil => simp
  | cons hit hits ih =>
      obtain ⟨hhit, hrest⟩ := List.forall_mem_cons.mp hgroup
      rw [List.foldl_cons, ih _ hrest, count_judge, List.countP_cons]
      simp only [mem_groups_judge]
      by_cases hc : Counts a subject hit
      · have hsome := hhit.mp hc.1
        by_cases hmarked : g ∈ r.groups
        · simp [hmarked, hsome]
        · simp [hmarked, hsome, hc, hc.2]
      · have hother : ¬ (hit.group = some g ∧ Passes subject hit) := fun h => hc ⟨hhit.mpr h.1, h.2⟩
        simp [hc, hother]

/-- The reports of a list, whatever else a matcher was asked, if its value tells it from the others. -/
theorem count_run {before later : List (Request α)} (ss : List Selector)
    (hnew : ∀ ss', .register ss' a ∉ before ++ later) (subject : Compound) :
    ((after (before ++ .register ss a :: later)).run subject).count a =
      if 1 < ss.length then min 1 (ss.map (·.ways subject)).sum else (ss.map (·.ways subject)).sum := by
  have hsole := sole_after ss hnew
  have hcleared := (keeps_after (before ++ .register ss a :: later)).cleared
  have hways := countP_hits_registered subject ss hnew
  generalize after (before ++ .register ss a :: later) = m at *
  have hkept : ∀ hit ∈ m.trie.hits subject.features, ∃ path, m.trie.Has path hit := fun hit hhit =>
    let ⟨path, hhas, _⟩ := (Trie.mem_hits _).mp hhit
    ⟨path, hhas⟩
  rw [run, hcleared, ← hways]
  split
  · next hseveral =>
      rw [if_pos hseveral] at hsole
      rw [count_foldl_judge_several (g := (after before).groups)]
      · simp [MatchReport.count]
      · intro hit hhit
        obtain ⟨path, hhas⟩ := hkept hit hhit
        exact ⟨hsole.group_eq path hit hhas, hsole.value_eq path hit hhas _ rfl⟩
  · next hsingle =>
      rw [if_neg hsingle] at hsole
      rw [count_foldl_judge_single]
      · simp [MatchReport.count]
      · intro hit hhit
        obtain ⟨path, hhas⟩ := hkept hit hhit
        exact hsole.group_eq path hit hhas

end Reports

end Matcher

/-- A selector without stars is hit in one way at most by an element that repeats no class and no attribute. -/
theorem Selector.ways_le_one {s : Selector} {subject : Compound} (hplain : s.toCompound.Plain)
    (hstarless : s.toCompound.Starless) (hclasses : subject.classes.Nodup)
    (hattrs : (subject.attrs.map (·.1)).Nodup) : s.ways subject ≤ 1 := by
  rw [Selector.ways]
  split
  · exact Feature.ways_le_one (Compound.nodup_alone_features hclasses hattrs)
      (wildcard_ne_of_mem_features hplain hstarless)
  · exact Nat.zero_le _

/-- Whatever else a matcher was asked, a list of several selectors is reported at most once for an element,
and a selector registered alone once for each way in which the element has what it asks for. So a list is
reported at most once if and only if it has several selectors, or there is one way at most. -/
theorem Matcher.reported_once_iff {α : Type} [DecidableEq α] {a : α} {before later : List (Request α)}
    (hnew : ∀ ss, .register ss a ∉ before ++ later) (ss : List Selector) (name : Text)
    (attributes : List (Text × Text)) :
    let reports := ((after (before ++ .register ss a :: later)).values name attributes).count a
    let ways := (ss.map (·.ways (.ofElement name attributes))).sum
    reports = (if 1 < ss.length then min 1 ways else ways) ∧
      (reports ≤ 1 ↔ 1 < ss.length ∨ ways ≤ 1) := by
  have hreports := count_run ss hnew (.ofElement name attributes)
  refine ⟨hreports, ?_⟩
  change MatchReport.count _ a ≤ 1 ↔ _
  rw [hreports]
  split <;> omega

namespace Sample

def item : List Selector := [{ classes := ["item"] }]

theorem reported_once_iff_item :
    parseSelectors ".item" = .ok item ∧ (∀ ss, Matcher.Request.register ss 3 ∉ history ++ []) ∧
      ((Matcher.after (history ++ [.register item 3])).values "p" [("class", "item item")]).count 3 = 2 := by
  have hnew : ∀ ss, Matcher.Request.register ss 3 ∉ history ++ [] := by
    intro ss
    simp [history]
  refine ⟨rfl, hnew, ?_⟩
  rw [(Matcher.reported_once_iff hnew item "p" [("class", "item item")]).1]
  decide +kernel

/-- A list of one selector is reported twice for a class that is given twice. -/
theorem reported_twice_item : parseSelectors ".item" = .ok item ∧
    ¬ ((Matcher.after [.register item 3]).values "p" [("class", "item item")]).count 3 ≤ 1 :=
  ⟨rfl, by decide +kernel⟩

end Sample

end TemplateCompiler
