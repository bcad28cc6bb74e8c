import TemplateCompiler.Proofs.Code.Compared
import TemplateCompiler.Proofs.Template.Compilation
import TemplateCompiler.Proofs.Template.Invariants

/-!
# Directives and pipes without repetition

A compilation collects the directives and the types of pipes that it finds, each unless an equivalent one is
there. As equivalence is an equivalence relation wherever no literal is the number that differs from itself,
the terms collected are no two of them equivalent, and one of them is equivalent to each term that was added
(`Names.Distinguishes`).

What a pooled literal stands for may change in the course of a compilation, and with it what it is
equivalent to. So any two terms were told apart when the later one was found (`Discerned`), and they are in the
end unless a literal in one of them was declared as a constant meanwhile.
-/

namespace TemplateCompiler

/-! ### Adding terms -/

def collected (names : Names) (ts : List Term) : List Term :=
  ts.foldl (fun found t => addDistinct names t found) []

variable {names : Names}

/-- Two terms were told apart at some time while the names given grew from `first` to `last`. -/
def Discerned (first last : Names) (a b : Term) : Prop :=
  ∃ names : Names, first.le names ∧ names.le last ∧ a.equiv names b = false

theorem Discerned.mono {first last last' : Names} {a b : Term} (h : Discerned first last a b)
    (hle : last.le last') : Discerned first last' a b := by
  obtain ⟨names, hfirst, hlast, hne⟩ := h
  exact ⟨names, hfirst, Names.le_trans hlast hle, hne⟩

/-- Pooled literals that stand for the same in the end as at first did so in between. -/
theorem SameConstants.between {first names last : Names} {ts : List Term} (h : SameConstants first last ts)
    (hfirst : first.le names) (hlast : names.le last) : SameConstants names last ts := by
  intro t ht k u htk
  have hk := h t ht k u htk
  cases hn : names k with
  | some x => exact (hlast k x hn).symm
  | none =>
      cases hl : last k with
      | none => rfl
      | some x =>
          have hx := hfirst k x (hk.trans hl)
          rw [hn] at hx
          cases hx

/-- Terms that were told apart are so in the end, if their pooled literals stand for the same as at first. -/
theorem Discerned.apart {first last : Names} {a b : Term} (h : Discerned first last a b)
    (ha : SameConstants first last a.nodes) (hb : SameConstants first last b.nodes) :
    a.equiv last b = false := by
  obtain ⟨names, hfirst, hlast, hne⟩ := h
  have ha := Term.form_congr false (ha.between hfirst hlast)
  have hb := Term.form_congr false (hb.between hfirst hlast)
  rw [Bool.eq_false_iff, ne_eq, Term.equiv_iff, ha, hb] at hne
  rwa [Bool.eq_false_iff, ne_eq, Term.equiv_iff]

/-- The terms found so far were told apart by the names that were given since `first`. -/
structure Assembly.Distinct (first : Names) (s : Assembly) : Prop where
  names : first.le s.pool.names
  directives : s.directives.Pairwise (Discerned first s.pool.names)
  pipes : s.pipes.Pairwise (Discerned first s.pool.names)

namespace Sample

/-- Pipes, the first two of which have the same type. -/
def typed : TemplateSettings :=
  { pipes := [("up", .ofVar "Case"), ("low", .ofVar "Case"), ("max", .ofVar "Max")] }

end Sample

end TemplateCompiler
