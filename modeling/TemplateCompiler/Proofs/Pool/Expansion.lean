import TemplateCompiler.Proofs.Pool.Key

/-!
# What constants stand for

A genuine term has pooled literals only that are kept under their own key. If every constant of a pool
stands for the literals of its key (`Values.Settled`), then a genuine constant is expanded to the
literal as it was written (`Term.expand_eq_written`).
-/

namespace TemplateCompiler

mutual

/-- Every pooled literal in a term is a constant that is kept under its own key, and the keys of maps
are legible. Only what keys are made of is looked at. -/
def Term.Genuine : Term → Prop
  | .array _ entries => Term.GenuineAll entries
  | .map _ entries => Term.GenuineEntries entries
  | .pooled k t => t.isConstant = true ∧ t.keyOf = .ok k ∧ t.Genuine
  | .var .. => True
  | .lit .. => True
  | .prop .. => True
  | .key .. => True
  | .call .. => True
  | .binary .. => True
  | .not .. => True
  | .present .. => True
  | .cast .. => True
  | .cond .. => True
  | .external .. => True
  | .function .. => True

def Term.GenuineAll : List Term → Prop
  | [] => True
  | t :: ts => t.Genuine ∧ Term.GenuineAll ts

def Term.GenuineEntries : List (MapKey × Term) → Prop
  | [] => True
  | (k, t) :: ts => k.Legible ∧ t.Genuine ∧ Term.GenuineEntries ts

end

/-- A constant whose key tells what it is. -/
structure Term.Literal (t : Term) : Prop where
  isConstant : t.isConstant = true
  genuine : t.Genuine

namespace Term

mutual

theorem keyable_of_literal : ∀ t : Term, t.isConstant = true → t.Genuine → t.Keyable
  | .lit .., _, _ => trivial
  | .array _ es, hc, hg => keyableAll_of_literal es hc hg
  | .map _ es, hc, hg => keyableEntries_of_literal es hc hg
  | .pooled _ t, _, hg => keyable_of_literal t hg.1 hg.2.2
  | .var .., hc, _ => nomatch hc
  | .prop .., hc, _ => nomatch hc
  | .key .., hc, _ => nomatch hc
  | .call .., hc, _ => nomatch hc
  | .binary .., hc, _ => nomatch hc
  | .not .., hc, _ => nomatch hc
  | .present .., hc, _ => nomatch hc
  | .cast .., hc, _ => nomatch hc
  | .cond .., hc, _ => nomatch hc
  | .external .., hc, _ => nomatch hc
  | .function .., hc, _ => nomatch hc

theorem keyableAll_of_literal : ∀ ts : List Term, allConstant ts = true → GenuineAll ts → KeyableAll ts
  | [], _, _ => trivial
  | t :: ts, hc, hg => by
      rw [allConstant, Bool.and_eq_true] at hc
      exact ⟨keyable_of_literal t hc.1 hg.1, keyableAll_of_literal ts hc.2 hg.2⟩

theorem keyableEntries_of_literal : ∀ ts : List (MapKey × Term), allConstantEntries ts = true →
    GenuineEntries ts → KeyableEntries ts
  | [], _, _ => trivial
  | (_, t) :: ts, hc, hg => by
      rw [allConstantEntries, Bool.and_eq_true] at hc
      exact ⟨hg.1, keyable_of_literal t hc.1 hg.2.1, keyableEntries_of_literal ts hc.2 hg.2.2⟩

end

mutual

theorem exists_keyOf : ∀ t : Term, t.Keyable → ∃ k, t.keyOf = .ok k
  | .lit .., _ => ⟨_, rfl⟩
  | .array _ es, h => by
      obtain ⟨ks, hks⟩ := exists_keysOf es h
      exact ⟨_, except_bind_ok.mpr ⟨ks, hks, rfl⟩⟩
  | .map _ es, h => by
      obtain ⟨ks, hks⟩ := exists_keysOfEntries es h
      exact ⟨_, except_bind_ok.mpr ⟨ks, hks, rfl⟩⟩
  | .external .., _ => ⟨_, rfl⟩
  | .var .., _ => ⟨_, rfl⟩
  | .pooled _ t, h => exists_keyOf t h
  | .prop .., h => h.elim
  | .key .., h => h.elim
  | .call .., h => h.elim
  | .binary .., h => h.elim
  | .not .., h => h.elim
  | .present .., h => h.elim
  | .cast .., h => h.elim
  | .cond .., h => h.elim
  | .function .., h => h.elim

theorem exists_keysOf : ∀ ts : List Term, KeyableAll ts → ∃ ks, keysOf ts = .ok ks
  | [], _ => ⟨_, rfl⟩
  | t :: ts, h => by
      obtain ⟨k, hk⟩ := exists_keyOf t h.1
      obtain ⟨ks, hks⟩ := exists_keysOf ts h.2
      exact ⟨_, except_bind_ok.mpr ⟨k, hk, except_bind_ok.mpr ⟨ks, hks, rfl⟩⟩⟩

theorem exists_keysOfEntries : ∀ ts : List (MapKey × Term), KeyableEntries ts →
    ∃ ks, keysOfEntries ts = .ok ks
  | [], _ => ⟨_, rfl⟩
  | (_, t) :: ts, h => by
      obtain ⟨k, hk⟩ := exists_keyOf t h.2.1
      obtain ⟨ks, hks⟩ := exists_keysOfEntries ts h.2.2
      exact ⟨_, except_bind_ok.mpr ⟨k, hk, except_bind_ok.mpr ⟨ks, hks, rfl⟩⟩⟩

end

theorem Literal.keyable {t : Term} (h : t.Literal) : t.Keyable := keyable_of_literal t h.1 h.2

theorem Literal.written_eq {t u : Term} {k : Text} (ht : t.Literal) (hu : u.Literal)
    (hk : t.keyOf = .ok k) (hk' : u.keyOf = .ok k) : t.written = u.written :=
  written_eq_of_keyOf_eq ht.keyable hu.keyable hk hk'

end Term

/-! ### Expanding constants -/

/-- Constants whose key is shorter than a bound stand for the literals of their key. -/
def Values.Settled (names : Names) (values : Values) (bound : Nat) : Prop :=
  ∀ key n, key.length < bound → names key = some n →
    ∀ t : Term, t.Literal → t.keyOf = .ok key → values n = some t.written

section Expand

variable {names : Names} {values : Values} {bound : Nat}

theorem Text.length_le_joinTail {k : Text} {ks : List Text} (h : k ∈ ks) :
    k.length < (joinTail ks).length := by
  induction ks with
  | nil => cases h
  | cons k' ks ih =>
      rw [joinTail, List.flatMap_cons, List.length_append, List.length_cons]
      rcases List.mem_cons.mp h with rfl | h
      · omega
      · have := ih h
        rw [joinTail] at this
        omega

theorem Text.length_le_join {k : Text} {ks : List Text} (h : k ∈ ks) :
    k.length ≤ (join "," ks).length := by
  cases ks with
  | nil => cases h
  | cons k' ks =>
      rw [join_cons, List.length_append]
      rcases List.mem_cons.mp h with rfl | h
      · omega
      · have := length_le_joinTail h
        omega

namespace Term

mutual

theorem expand_eq_of_lt (h : values.Settled names bound) : ∀ (t : Term) {k : Text}, t.isConstant = true →
    t.Genuine → t.keyOf = .ok k → k.length < bound → t.expand names values = t.written
  | .lit .., _, _, _, _, _ => rfl
  | .array note es, k, hc, hg, hk, hlt => by
      obtain ⟨ks, hks, hk⟩ := except_bind_ok.mp hk
      cases hk
      refine congrArg ofList (expandAll_eq_of_lt h es hc hg hks fun k hk => ?_)
      have := Text.length_le_join hk
      simp only [List.length_append] at hlt
      omega
  | .map note es, k, hc, hg, hk, hlt => by
      obtain ⟨ks, hks, hk⟩ := except_bind_ok.mp hk
      cases hk
      refine congrArg ofEntries (expandEntries_eq_of_lt h es hc hg hks fun k hk => ?_)
      have := Text.length_le_join hk
      simp only [List.length_append] at hlt
      omega
  | .pooled k' t, k, _, hg, hk, hlt => by
      obtain ⟨hc, hkey, hg⟩ := hg
      have hkk : k' = k := Except.ok.inj (hkey.symm.trans hk)
      rw [expand]
      cases hn : names k' with
      | none => exact expand_eq_of_lt h t hc hg hk hlt
      | some n =>
          have hvalue := h k' n (hkk ▸ hlt) hn t ⟨hc, hg⟩ hkey
          dsimp only
          rw [hvalue]
          rfl
  | .var .., _, hc, _, _, _ => nomatch hc
  | .prop .., _, hc, _, _, _ => nomatch hc
  | .key .., _, hc, _, _, _ => nomatch hc
  | .call .., _, hc, _, _, _ => nomatch hc
  | .binary .., _, hc, _, _, _ => nomatch hc
  | .not .., _, hc, _, _, _ => nomatch hc
  | .present .., _, hc, _, _, _ => nomatch hc
  | .cast .., _, hc, _, _, _ => nomatch hc
  | .cond .., _, hc, _, _, _ => nomatch hc
  | .external .., _, hc, _, _, _ => nomatch hc
  | .function .., _, hc, _, _, _ => nomatch hc

theorem expandAll_eq_of_lt (h : values.Settled names bound) : ∀ (ts : List Term) {ks : List Text},
    allConstant ts = true → GenuineAll ts → keysOf ts = .ok ks → (∀ k ∈ ks, k.length < bound) →
      expandAll names values ts = expandAll Names.empty (fun _ => none) ts
  | [], _, _, _, _, _ => rfl
  | t :: ts, ks, hc, hg, hks, hlt => by
      rw [allConstant, Bool.and_eq_true] at hc
      obtain ⟨k, hk, hks⟩ := except_bind_ok.mp hks
      obtain ⟨ks', hks', hks⟩ := except_bind_ok.mp hks
      cases hks
      obtain ⟨hk', hlt⟩ := List.forall_mem_cons.mp hlt
      rw [expandAll, expand_eq_of_lt h t hc.1 hg.1 hk hk', expandAll_eq_of_lt h ts hc.2 hg.2 hks' hlt]
      rfl

theorem expandEntries_eq_of_lt (h : values.Settled names bound) : ∀ (ts : List (MapKey × Term))
    {ks : List Text}, allConstantEntries ts = true → GenuineEntries ts → keysOfEntries ts = .ok ks →
      (∀ k ∈ ks, k.length < bound) →
        expandEntries names values ts = expandEntries Names.empty (fun _ => none) ts
  | [], _, _, _, _, _ => rfl
  | (_, t) :: ts, ks, hc, hg, hks, hlt => by
      rw [allConstantEntries, Bool.and_eq_true] at hc
      obtain ⟨k, hk, hks⟩ := except_bind_ok.mp hks
      obtain ⟨ks', hks', hks⟩ := except_bind_ok.mp hks
      cases hks
      obtain ⟨hk', hlt⟩ := List.forall_mem_cons.mp hlt
      rw [List.length_append] at hk'
      rw [expandEntries, expand_eq_of_lt h t hc.1 hg.2.1 hk (by omega),
        expandEntries_eq_of_lt h ts hc.2 hg.2.2 hks' hlt]
      rfl

end

/-- A constant that is not pooled itself is expanded to what is written if the constants of shorter
keys are. -/
theorem expand_eq_of_le (h : values.Settled names bound) {t : Term} {k : Text} (ht : t.Literal)
    (hpooled : ∀ k u, t ≠ .pooled k u) (hk : t.keyOf = .ok k) (hle : k.length ≤ bound) :
    t.expand names values = t.written := by
  obtain ⟨hc, hg⟩ := ht
  cases t with
  | lit => rfl
  | array note es =>
      obtain ⟨ks, hks, hk⟩ := except_bind_ok.mp hk
      cases hk
      refine congrArg ofList (expandAll_eq_of_lt h es hc hg hks fun k hk => ?_)
      have := Text.length_le_join hk
      have : 0 < ("[" : Text).length := by decide
      simp only [List.length_append] at hle
      omega
  | map note es =>
      obtain ⟨ks, hks, hk⟩ := except_bind_ok.mp hk
      cases hk
      refine congrArg ofEntries (expandEntries_eq_of_lt h es hc hg hks fun k hk => ?_)
      have := Text.length_le_join hk
      have : 0 < ("\x7b" : Text).length := by decide
      simp only [List.length_append] at hle
      omega
  | pooled k' u => exact absurd rfl (hpooled k' u)
  | var | prop | key | call | binary | not | present | cast | cond | external | function => cases hc

/-- A genuine constant is expanded to what is written. -/
theorem Literal.expand_eq (h : ∀ bound, values.Settled names bound) {t : Term} (ht : t.Literal) :
    t.expand names values = t.written := by
  obtain ⟨k, hk⟩ := exists_keyOf t ht.keyable
  exact expand_eq_of_lt (h (k.length + 1)) t ht.1 ht.2 hk (Nat.lt_succ_self _)

end Term

end Expand

end TemplateCompiler
