import TemplateCompiler.Proofs.Lowering.Soundness

/-!
# Lowering with a resolver

`Host.ofResolver` is the host of bindings outside of templates: names are looked up by a given resolver,
and literal collections are written out. Nothing is relied upon in the resolver: what it says may depend
on its state and change it.
-/

namespace TemplateCompiler

variable {σ : Type} {context : Term} {lookup : Text → StateM σ (Option Found)}
  {notify : StateM σ Unit} {limit : Int}

/-- A host with a given resolver. Its builtins are written out, and its interpolations pass up to
`limit` values one by one. -/
def Host.ofResolver (context : Term) (lookup : Text → StateM σ (Option Found))
    (notify : StateM σ Unit) (limit : Int) : Host σ where
  context
  lookup
  notify
  builtin kind args := .mk (pure (kind.write args))
  interpolate args := return inlineOrVariadic limit args

/-- A name is only ever found to stand for what the resolver says in some state. -/
def Host.ofResolverContract (context : Term) (lookup : Text → StateM σ (Option Found))
    (notify : StateM σ Unit) (limit : Int) :
    Contract (Host.ofResolver context lookup notify limit) where
  holds _ := True
  later _ _ := True
  refl _ := trivial
  trans _ _ := trivial
  holds_later _ := trivial
  lookup _ name found := ∃ s, ((lookup name).run s).1 = found
  builtin _ kind args t := t = kind.written args
  later_lookup _ _ := trivial
  lookup_later {s} _ _ _ _ := ⟨s, rfl⟩
  later_builtin _ _ _ := trivial
  builtin_later _ _ h _ := Builtin.eq_written_of_write (congrArg Prod.fst h)

/-- All that cannot be written out is a map literal with a key that has no value. -/
theorem Builtin.exists_of_write {kind : Builtin} {args : List Term} {f : Failure}
    (h : kind.write args = .error f) :
    ∃ keys, kind = .map keys ∧ args.length < keys.length ∧ f = .defect (.missingValue args.length) := by
  unfold write at h
  split at h
  · next hlacks =>
      cases kind with
      | map keys => exact ⟨keys, rfl, of_decide_eq_true hlacks, (Except.error.inj h).symm⟩
      | _ => cases hlacks
  · cases h

theorem Host.exists_of_canFail_ofResolver {f : Failure}
    (h : (Host.ofResolver context lookup notify limit).CanFail f) :
    ∃ n, f = .defect (.missingValue n) := by
  obtain ⟨kind, args, s, s', h⟩ | ⟨args, range, g, h, -⟩ := h
  · obtain ⟨keys, -, -, hf⟩ := Builtin.exists_of_write (congrArg Prod.fst h)
    exact ⟨args.length, hf⟩
  · cases h

theorem Host.breaksStack_of_canFail_ofResolver {f : Failure}
    (h : (Host.ofResolver context lookup notify limit).CanFail f) : f.breaksStack = false := by
  obtain ⟨n, rfl⟩ := Host.exists_of_canFail_ofResolver h
  rfl

/-- What is known of an outcome: `post` if it is a success, and otherwise that it is not the stack of
temporaries that failed. -/
def Settled {α : Type} (post : α → σ → Prop) : Except Failure α × σ → Prop
  | (.ok a, s) => post a s
  | (.error f, _) => f.breaksStack = false

/-- A step of lowering leaves no temporary live, and does not fail for the stack's sake. -/
theorem settled_lowerBinding {α : Type} {b : Text} {post : Answers → Nat → Nat → α → Prop}
    {code : Lower σ α}
    (h : Makes (Host.ofResolverContract context lookup notify limit) b code post) (s : σ) :
    Settled (fun (a, stack) _ => stack.binding = b ∧ stack.live = [] ∧
        ∃ s₁, post ((Host.ofResolverContract context lookup notify limit).at s₁) 0 stack.count a)
      (outcome (lowerBinding (Host.ofResolver context lookup notify limit) b code) s) := by
  have h := outcome_lowerBinding h (s := s) trivial
  rcases hrun : outcome (lowerBinding (Host.ofResolver context lookup notify limit) b code) s with
    ⟨f | ⟨a, stack⟩, s'⟩
  · rw [hrun] at h
    exact Bool.eq_false_iff.mpr fun hbreaks =>
      Bool.eq_false_iff.mp (Host.breaksStack_of_canFail_ofResolver (h hbreaks)) hbreaks
  · rw [hrun] at h
    obtain ⟨hb, hlive, s₁, -, -, hpost⟩ := h
    exact ⟨hb, hlive, s₁, hpost s₁ trivial⟩

theorem breaksStack_of_replaceBuiltins {e : Expr} {f : Failure}
    (h : e.replaceBuiltins BuiltinFactory.literal = .error f) : f.breaksStack = false := by
  refine Expr.errorsIn_rebuildM (Q := fun f => f.breaksStack = false) (fun x d hd => ?_) e f h
  cases x with
  | pipe p e name args =>
      cases hd
      rfl
  | _ => cases hd

/-- The context `ctx`, without locals. -/
def Sample.plainHost : Host Unit := .ofResolver (.ofVar "ctx") (fun _ => pure none) (pure ()) 9

end TemplateCompiler
