import TemplateCompiler.Fault

/-!
# Running steps that may fail

Lowering, pooling and compiling are all steps that change a state, may fail, and keep the state they
left when they do. `outcome p s` is what such a step gives from a state; the lemmas say what it is
for each way a step is put together.
-/

namespace TemplateCompiler

variable {ε σ α β : Type}

/-- The result of a step from a state, and the state it leaves. -/
def outcome (p : ExceptT ε (StateM σ) α) (s : σ) : Except ε α × σ := p.run.run s

theorem outcome_pure (a : α) (s : σ) :
    outcome (pure a : ExceptT ε (StateM σ) α) s = (.ok a, s) := rfl

theorem outcome_throw (e : ε) (s : σ) :
    outcome (throw e : ExceptT ε (StateM σ) α) s = (.error e, s) := rfl

theorem outcome_bind (p : ExceptT ε (StateM σ) α) (f : α → ExceptT ε (StateM σ) β) (s : σ) :
    outcome (p >>= f) s =
      match outcome p s with
      | (.ok a, s') => outcome (f a) s'
      | (.error e, s') => (.error e, s') := by
  change (match p s with | (r, s') => ExceptT.bindCont f r s') = _
  unfold outcome ExceptT.run StateT.run
  rcases h : p s with ⟨_ | _, s'⟩ <;> rfl

theorem outcome_get (s : σ) :
    outcome (get : ExceptT ε (StateM σ) σ) s = (.ok s, s) := rfl

theorem outcome_modify (f : σ → σ) (s : σ) :
    outcome (modify f : ExceptT ε (StateM σ) PUnit) s = (.ok ⟨⟩, f s) := rfl

/-- A step of two parts succeeds if both do, one after the other. -/
theorem outcome_bind_ok {p : ExceptT ε (StateM σ) α} {f : α → ExceptT ε (StateM σ) β} {s s'' : σ}
    {b : β} :
    outcome (p >>= f) s = (.ok b, s'') ↔
      ∃ a s', outcome p s = (.ok a, s') ∧ outcome (f a) s' = (.ok b, s'') := by
  rw [outcome_bind]
  rcases outcome p s with ⟨_ | a, s'⟩
  · simp
  · constructor
    · intro h
      exact ⟨a, s', rfl, h⟩
    · rintro ⟨_, _, h, h'⟩
      cases h
      exact h'

/-- The same for results without a state. -/
theorem except_bind_ok {x : Except ε α} {f : α → Except ε β} {b : β} :
    x >>= f = .ok b ↔ ∃ a, x = .ok a ∧ f a = .ok b := by
  cases x with
  | error e =>
      constructor
      · intro h
        cases h
      · rintro ⟨_, h, _⟩
        cases h
  | ok a =>
      constructor
      · intro h
        exact ⟨a, rfl, h⟩
      · rintro ⟨_, h, h'⟩
        cases h
        exact h'

end TemplateCompiler
