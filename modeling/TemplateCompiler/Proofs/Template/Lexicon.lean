import TemplateCompiler.Proofs.Template.Scopes
import TemplateCompiler.Proofs.Text.Numeral

/-!
# The names in force

A `Lexicon` is what names mean at a place of a template: the bindings of the unit, those of the scopes
around it, and how many names were given out. `L.Shown t` says that the tree `t` has these names, each
with a variable of its own.

* `Shown.bind`, `Shown.enter`, `Shown.leave` : the lexicon follows the tree from step to step.
-/

namespace TemplateCompiler

/-- The names in force at a place of a template: those that the unit binds, and those of the scopes
around it. -/
structure Lexicon where
  /-- The scope of the unit. -/
  id : Nat
  own : Bindings := []
  /-- The scopes around it, the nearest first. -/
  outerIds : List Nat
  outer : Env
  /-- How many names were given out. -/
  fresh : Nat

namespace Lexicon

/-- All scopes, the nearest first. -/
def ids (L : Lexicon) : List Nat := L.id :: L.outerIds

/-- All bindings, the nearest first. -/
def env (L : Lexicon) : Env := L.own :: L.outer

/-- The names at the start of a unit. -/
def enter (id : Nat) (L : Lexicon) : Lexicon :=
  { id, outerIds := L.ids, outer := L.env, fresh := L.fresh }

/-- The names after a unit inside, which bound names of its own. -/
def leave (inner L : Lexicon) : Lexicon := { L with fresh := inner.fresh }

def nextVar (L : Lexicon) : Text := "_r" ++ Text.ofNat L.fresh

def bind (name : Text) (e : ScopeEntry) (L : Lexicon) : Lexicon :=
  { L with own := L.own ++ [(name, e)], fresh := L.fresh + 1 }

/-- What holds of the names in force holds of one more. -/
theorem forall_bind {P : Text × ScopeEntry → Prop} {L : Lexicon} {name : Text} {e : ScopeEntry}
    (h : ∀ p ∈ L.env.flatten, P p) (he : P (name, e)) : ∀ p ∈ (L.bind name e).env.flatten, P p := by
  intro p hp
  rw [env, List.flatten_cons, List.mem_append] at hp
  rcases hp with hp | hp
  · rcases List.mem_append.mp hp with hp | hp
    · exact h p (List.mem_append_left _ hp)
    · rw [List.mem_singleton.mp hp]
      exact he
  · exact h p (List.mem_append_right _ hp)

/-- Whether a variable has a number of its own. -/
def Numbered (fresh : Nat) (var : Text) : Prop :=
  ∃ (stem : Text) (k : Nat), k < fresh ∧ var = stem ++ "_r" ++ Text.ofNat k

/-- A tree has the names of a lexicon, and no two for the same variable. -/
structure Shown (L : Lexicon) (t : ScopeTree) : Prop where
  shows : t.Shows L.ids L.env
  fresh : t.fresh = L.fresh
  distinct : L.env.Distinct
  numbered : ∀ p ∈ L.env.flatten, p.2.var = eventName ∨ Numbered L.fresh p.2.var
  nested : L.outerIds ≠ []

variable {L L' : Lexicon} {t t' : ScopeTree}

theorem Numbered.mono {n m : Nat} (h : n ≤ m) {var : Text} (hvar : Numbered n var) :
    Numbered m var := by
  obtain ⟨stem, k, hk, rfl⟩ := hvar
  exact ⟨stem, k, Nat.lt_of_lt_of_le hk h, rfl⟩

theorem endsOpen_append_r (stem : Text) : Text.EndsOpen (stem ++ "_r") := by
  intro b hb
  rw [List.getLast?_append_of_ne_nil _ (by decide)] at hb
  cases hb
  decide

/-- A number that was not given out yet makes a new variable. -/
theorem not_numbered (stem : Text) (n : Nat) : ¬Numbered n (stem ++ "_r" ++ Text.ofNat n) := by
  rintro ⟨stem', k, hk, heq⟩
  have hn := (Text.append_ofNat_inj (endsOpen_append_r stem) (endsOpen_append_r stem') heq).2
  exact Nat.ne_of_lt hk hn.symm

theorem eventName_ne (stem : Text) (n : Nat) : stem ++ "_r" ++ Text.ofNat n ≠ eventName := by
  intro heq
  have hlast := congrArg List.getLast? heq
  rw [List.getLast?_append_of_ne_nil _ (Text.ofNat_ne_nil n)] at hlast
  have hdigit := Text.isDigit_of_mem_ofNat (List.mem_of_getLast? hlast)
  exact absurd hdigit (by decide)

theorem Shown.bind (h : L.Shown t) {name stem : Text} {e : ScopeEntry} (hpending : e.declared = false)
    (hvar : e.var = stem ++ L.nextVar) (hrun : (t.freshName.2).bind L.id name e = .ok t') :
    (L.bind name e).Shown t' ∧ ScopeTree.Extends L.ids t t' := by
  have hfresh : t.freshName.2.Shows L.ids L.env := h.shows.congr fun _ _ => rfl
  obtain ⟨hshows, hext⟩ := hfresh.bind h.nested hpending hrun
  have hflatten : ∀ p, p ∈ (L.bind name e).env.flatten ↔ p ∈ L.env.flatten ∨ p = (name, e) := by
    intro p
    simp only [Lexicon.bind, env, List.flatten_cons, List.mem_append, List.mem_singleton, or_right_comm]
  have hnew : e.var ∉ L.env.flatten.map (·.2.var) := by
    intro hmem
    obtain ⟨p, hp, hpvar⟩ := List.mem_map.mp hmem
    have hstem : e.var = stem ++ "_r" ++ Text.ofNat L.fresh := by
      rw [hvar, nextVar, List.append_assoc]
    rcases h.numbered p hp with hevent | hnumbered
    · exact eventName_ne stem L.fresh (by rw [← hstem, ← hpvar, hevent])
    · rw [hpvar, hstem] at hnumbered
      exact not_numbered stem L.fresh hnumbered
  refine ⟨⟨hshows, ?_, ?_, fun p hp => ?_, h.nested⟩, ⟨hext.length, hext.declared, hext.frozen⟩⟩
  · have : t'.fresh = t.fresh + 1 := by
      unfold ScopeTree.bind at hrun
      split at hrun
      · cases hrun
      · cases hrun
        rfl
    rw [this, h.fresh]
    rfl
  · have hperm : ((L.bind name e).env.flatten.map (·.2.var)).Perm
        (e.var :: L.env.flatten.map (·.2.var)) := by
      simp only [Lexicon.bind, env, List.flatten_cons, List.map_append, List.map_cons,
        List.append_assoc, List.cons_append, List.nil_append]
      exact List.perm_middle
    exact hperm.nodup_iff.mpr (List.nodup_cons.mpr ⟨hnew, h.distinct⟩)
  · rcases (hflatten p).mp hp with hp | rfl
    · exact (h.numbered p hp).imp_right (Numbered.mono (Nat.le_succ _))
    · refine .inr ⟨stem, L.fresh, Nat.lt_succ_self _, ?_⟩
      rw [hvar, nextVar, List.append_assoc]

theorem Shown.enter (h : L.Shown t) : (L.enter t.scopes.length).Shown (t.nest L.id false).2 :=
  ⟨h.shows.nest, h.fresh, h.distinct, h.numbered, List.cons_ne_nil _ _⟩

theorem Shown.leave (h : L'.Shown t) (hids : L'.outerIds = L.ids) (hout : L'.outer = L.env)
    (hnested : L.outerIds ≠ []) : (leave L' L).Shown t := by
  have hshows := h.shows.2.2
  have hdistinct := h.distinct.tail
  rw [hids, hout] at hshows
  rw [hout] at hdistinct
  refine ⟨hshows, h.fresh, hdistinct, fun p hp => ?_, hnested⟩
  refine h.numbered p ?_
  rw [env, List.flatten_cons, hout]
  exact List.mem_append_right _ hp

end Lexicon

end TemplateCompiler
