import TemplateCompiler.Proofs.Run
import TemplateCompiler.Template.Compile

/-!
# The steps of a compilation

What each step of a compilation gives and does to the state, if it succeeds. A failure is not looked at.
-/

namespace TemplateCompiler

variable {α β : Type}

/-- A loop that succeeds has gone from state to state. -/
inductive Runs (R : α → β → β → Prop) : List α → β → β → Prop
  | nil {s : β} : Runs R [] s s
  | cons {a : α} {as : List α} {s s' s'' : β} : R a s s' → Runs R as s' s'' → Runs R (a :: as) s s''

theorem outcome_forM_cons {ε σ : Type} {a : α} {as : List α} {f : α → ExceptT ε (StateM σ) PUnit}
    {s s' : σ} : outcome ((a :: as).forM f) s = (.ok ⟨⟩, s') ↔
      ∃ s₁, outcome (f a) s = (.ok ⟨⟩, s₁) ∧ outcome (as.forM f) s₁ = (.ok ⟨⟩, s') := by
  change outcome (f a >>= fun _ => as.forM f) s = _ ↔ _
  rw [outcome_bind_ok]
  constructor
  · rintro ⟨_, s₁, h, h'⟩
    exact ⟨s₁, h, h'⟩
  · rintro ⟨s₁, h, h'⟩
    exact ⟨_, s₁, h, h'⟩

/-- What is known of a pooled literal, if there is one. -/
theorem outcome_shared_ok {t t' : Term} {pool pool' : Pool} :
    outcome (shared t) pool = (.ok t', pool') ↔ pool.literal t true = .ok (t', pool') := by
  unfold shared
  rw [outcome_bind, outcome_get]
  dsimp only
  rcases pool.literal t true with d | ⟨t₁, pool₁⟩
  · change (Except.error (Failure.defect d), pool) = _ ↔ _
    simp
  · change (Except.ok t₁, pool₁) = _ ↔ _
    simp

namespace Compile

variable {s s' : Assembly}

/-- A step over the pool changes nothing else. -/
theorem outcome_onPool (step : Pooling α) (s : Assembly) :
    outcome (onPool step) s =
      ((outcome step s.pool).1, { s with pool := (outcome step s.pool).2 }) := by
  unfold onPool
  rw [outcome_bind, outcome_get]
  generalize hrun : outcome step s.pool = result
  unfold outcome at hrun
  dsimp only
  rw [hrun]
  rcases result with ⟨f | a, pool⟩ <;> rfl

theorem outcome_onPool_ok {step : Pooling α} {a : α} :
    outcome (onPool step) s = (.ok a, s') ↔
      ∃ pool, outcome step s.pool = (.ok a, pool) ∧ s' = { s with pool } := by
  rw [outcome_onPool]
  rcases outcome step s.pool with ⟨f | b, pool⟩
  · simp
  · constructor
    · intro h
      cases h
      exact ⟨pool, rfl, rfl⟩
    · rintro ⟨_, h, rfl⟩
      cases h
      rfl

/-- Where a failure is located makes no difference to a success. -/
theorem outcome_locating_ok {span : Option SourceSpan} {step : Compile α} {a : α} :
    outcome (locating span step) s = (.ok a, s') ↔ outcome step s = (.ok a, s') := by
  have hdef : outcome (locating span step) s =
      ((outcome step s).1.mapError (Failure.locate span), (outcome step s).2) := by
    unfold locating outcome
    change (do let r ← step.run; pure (r.mapError (Failure.locate span))).run s = _
    rfl
  rw [hdef]
  rcases outcome step s with ⟨f | b, s₁⟩
  · change (Except.error (f.locate span), s₁) = _ ↔ _
    simp
  · exact Iff.rfl

/-- A result without a state. -/
theorem outcome_liftM_ok {x : Except Failure α} {a : α} :
    outcome (liftM x : Compile α) s = (.ok a, s') ↔ x = .ok a ∧ s = s' := by
  change (x, s) = (.ok a, s') ↔ _
  rw [Prod.mk.injEq]

end Compile

end TemplateCompiler
