import TemplateCompiler.Proofs.Expr.Every
import TemplateCompiler.Lowering.Basic

/-!
# The receivers of safe accesses

`e.safeReceivers` are the receivers that the code of `e` guards. Each of them has those further in as
its own (`safeReceivers_of_append`).
-/

namespace TemplateCompiler.Expr

/-- The receivers of the safe accesses on the spine of an expression, the innermost first. -/
def safeReceivers : Expr → List Expr
  | read _ r _ | index _ r _ | method _ r _ _ => r.safeReceivers
  | safeRead _ r _ | safeMethod _ r _ _ => r.safeReceivers ++ [r]
  | _ => []

theorem safeReceivers_of_isContext {e : Expr} (h : e.isContext = true) :
    e.safeReceivers = [] := by
  cases e with
  | context p => rfl
  | _ => cases h

theorem safeReceivers_of_append {r : Expr} {rs : List Expr} : ∀ {e : Expr} {rs' : List Expr},
    rs ++ r :: rs' = e.safeReceivers → r.safeReceivers = rs := by
  have step : ∀ {r' : Expr} {rs' : List Expr},
      (∀ {rs'}, rs ++ r :: rs' = r'.safeReceivers → r.safeReceivers = rs) →
      rs ++ r :: rs' = r'.safeReceivers ++ [r'] → r.safeReceivers = rs := by
    intro r' rs' ih h
    rcases List.eq_nil_or_concat rs' with rfl | ⟨xs, x, rfl⟩
    · obtain ⟨hrs, hr⟩ := List.append_inj' h rfl
      rw [hrs, List.singleton_inj.mp hr]
    · rw [List.concat_eq_append, ← List.cons_append, ← List.append_assoc] at h
      exact ih (List.append_inj' h rfl).1
  intro e
  induction e using safeReceivers.induct with
  | case1 p r' name ih => exact ih
  | case2 p o k ih => exact ih
  | case3 p r' name args ih => exact ih
  | case4 p r' name ih => exact step ih
  | case5 p r' name args ih => exact step ih
  | case6 e h1 h2 h3 h4 h5 =>
      intro rs' h
      rw [safeReceivers.eq_6 e h1 h2 h3 h4 h5] at h
      simp at h

theorem Every.safeReceivers {P : Expr → Prop} {e : Expr} (h : e.Every P) :
    ∀ r ∈ e.safeReceivers, r.Every P := by
  induction e using safeReceivers.induct with
  | case1 p r' name ih | case2 p o k ih | case3 p r' name args ih =>
      rw [Every] at h
      exact ih (by simp_all)
  | case4 p r' name ih | case5 p r' name args ih =>
      rw [Every] at h
      intro r hr
      rcases List.mem_append.mp hr with hr | hr
      · exact ih (by simp_all) r hr
      · rw [List.mem_singleton.mp hr]
        simp_all
  | case6 e h1 h2 h3 h4 h5 =>
      rw [safeReceivers.eq_6 e h1 h2 h3 h4 h5]
      exact List.forall_mem_nil _

/-! ### Written out collections -/

theorem isContext_written (e : Expr) : e.written.isContext = e.isContext := by
  cases e <;> rfl

theorem isErasure_written (r : Expr) (name : Text) : isErasure r.written name = isErasure r name := by
  rw [isErasure, isErasure, isContext_written]

theorem safeReceivers_written (e : Expr) :
    e.written.safeReceivers = e.safeReceivers.map written := by
  induction e using safeReceivers.induct with
  | case1 p r name ih | case2 p o k ih | case3 p r name args ih => exact ih
  | case4 p r name ih | case5 p r name args ih =>
      rw [safeReceivers, List.map_append, ← ih]
      rfl
  | case6 e h1 h2 h3 h4 h5 =>
      rw [safeReceivers.eq_6 e h1 h2 h3 h4 h5]
      cases e with
      | read p r n => exact absurd rfl (h1 p r n)
      | index p o k => exact absurd rfl (h2 p o k)
      | method p r n args => exact absurd rfl (h3 p r n args)
      | safeRead p r n => exact absurd rfl (h4 p r n)
      | safeMethod p r n args => exact absurd rfl (h5 p r n args)
      | _ => rfl

mutual

theorem needsTemporary_written : ∀ e : Expr, e.written.needsTemporary = e.needsTemporary
  | .binary _ _ a b => by
    change (a.written.needsTemporary || b.written.needsTemporary) = _
    rw [needsTemporary_written a, needsTemporary_written b, needsTemporary]
  | .conditional _ a b c => by
    change (a.written.needsTemporary || b.written.needsTemporary || c.written.needsTemporary) = _
    rw [needsTemporary_written a, needsTemporary_written b, needsTemporary_written c,
      needsTemporary]
  | .interpolation _ _ es => anyNeedsTemporary_written es
  | .not _ a | .present _ a => needsTemporary_written a
  | .call .. | .builtin .. | .method .. | .safeMethod .. | .pipe .. | .array .. | .map .. => rfl
  | .chain .. | .context .. | .index .. | .indexWrite .. | .literal .. | .read .. | .write ..
  | .safeRead .. | .quote .. => rfl

theorem anyNeedsTemporary_written : ∀ es : List Expr,
    anyNeedsTemporary (writtenAll es) = anyNeedsTemporary es
  | [] => rfl
  | e :: es => by
    change (e.written.needsTemporary || anyNeedsTemporary (writtenAll es)) = _
    rw [needsTemporary_written e, anyNeedsTemporary_written es, anyNeedsTemporary]

end

end TemplateCompiler.Expr
