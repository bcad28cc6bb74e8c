import TemplateCompiler.Proofs.Lowering.Meaning
import TemplateCompiler.Proofs.Text.Numeral

/-!
# Running code with temporaries

* `Ready b n s` : the first `n` variables of the binding `b` are declared, and nothing else is but
  variables of `b`;
* `Keeps b d s s'` : the same variables are declared, and the first `d` have kept their values
  (`Keeps.trans`, `Keeps.mono`);
* `Yields b d p s r` : the result of `p` from the store `s` is `r`, and `p` keeps the first `d`
  variables; the `yields_` lemmas give it for each way code is put together;
* `yields_constant` : code that has no variable of `b` does not depend on the store.
-/

namespace TemplateCompiler

open TemporaryStack (nameOf)

theorem TemporaryStack.nameOf_inj {b : Text} {k m : Nat} (h : nameOf b k = nameOf b m) : k = m :=
  Text.ofNat_inj (List.append_cancel_left h)

/-- Whether a name is none of a binding's temporaries. -/
def Unreserved (b name : Text) : Prop := ∀ k, name ≠ nameOf b k

def isTemporary (name : Text) : Bool := ("tmp_" : Text).isPrefixOf name

theorem isTemporary_nameOf (b : Text) (k : Nat) : isTemporary (nameOf b k) = true := by
  rw [isTemporary, List.isPrefixOf_iff_prefix, nameOf, List.append_assoc, List.append_assoc]
  exact List.prefix_append _ _

theorem unreserved_of_not_isTemporary {b name : Text} (h : isTemporary name = false) :
    Unreserved b name := by
  rintro k rfl
  rw [isTemporary_nameOf] at h
  cases h

namespace Interpretation

variable {V ε α β : Type} {I : Interpretation V ε} {b : Text} {d n : Nat}

/-- A store in which the first `n` variables of the binding can be used. -/
structure Ready (b : Text) (n : Nat) (s : Store V) : Prop where
  declared : ∀ k < n, (s (nameOf b k)).isSome
  free : ∀ x, Unreserved b x → s x = none

/-- Nothing was declared, and the first `d` variables of the binding have kept their values. -/
structure Keeps (b : Text) (d : Nat) (s s' : Store V) : Prop where
  declared : ∀ x, (s' x).isSome = (s x).isSome
  live : ∀ k < d, s' (nameOf b k) = s (nameOf b k)

theorem Keeps.refl (s : Store V) : Keeps b d s s := ⟨fun _ => rfl, fun _ _ => rfl⟩

theorem Keeps.trans {s t u : Store V} (h : Keeps b d s t) (h' : Keeps b d t u) : Keeps b d s u :=
  ⟨fun x => (h'.declared x).trans (h.declared x), fun k hk => (h'.live k hk).trans (h.live k hk)⟩

theorem Keeps.mono {s s' : Store V} {d' : Nat} (h : Keeps b d' s s') (hd : d ≤ d') :
    Keeps b d s s' :=
  ⟨h.declared, fun k hk => h.live k (Nat.lt_of_lt_of_le hk hd)⟩

theorem Ready.keeps {s s' : Store V} (h : Ready b n s) (hs : Keeps b d s s') : Ready b n s' := by
  refine ⟨fun k hk => ?_, fun x hx => ?_⟩
  · rw [hs.declared]
    exact h.declared k hk
  · rw [← Option.not_isSome_iff_eq_none, hs.declared, h.free x hx]
    exact Bool.false_ne_true

theorem Ready.mono {s : Store V} {m : Nat} (h : Ready b m s) (hn : n ≤ m) : Ready b n s :=
  ⟨fun k hk => h.declared k (Nat.lt_of_lt_of_le hk hn), h.free⟩

theorem Ready.left {s : Store V} {m : Nat} (h : Ready b (max n m) s) : Ready b n s :=
  h.mono (Nat.le_max_left n m)

theorem Ready.right {s : Store V} {m : Nat} (h : Ready b (max n m) s) : Ready b m s :=
  h.mono (Nat.le_max_right n m)

/-- The result of a run, which keeps the first `d` variables. -/
def Yields (b : Text) (d : Nat) (p : StateT (Store V) (Except ε) α) (s : Store V)
    (r : Except ε α) : Prop :=
  match p.run s with
  | .ok (a, s') => r = .ok a ∧ Keeps b d s s'
  | .error x => r = .error x

section Rules

variable {s : Store V}

theorem yields_pure {a : α} : Yields b d (pure a : StateT (Store V) (Except ε) α) s (.ok a) :=
  ⟨rfl, .refl s⟩

theorem yields_lift {r : Except ε α} :
    Yields b d (liftM r : StateT (Store V) (Except ε) α) s r := by
  cases r with
  | ok a => exact ⟨rfl, .refl s⟩
  | error x => exact rfl

/-- One run after the other, from the store that the first has left. -/
theorem yields_bind_run {p : StateT (Store V) (Except ε) α}
    {q : α → StateT (Store V) (Except ε) β} {r : Except ε α} {r' : α → Except ε β}
    (hp : Yields b d p s r)
    (hq : ∀ a s', p.run s = .ok (a, s') → r = .ok a → Yields b d (q a) s' (r' a)) :
    Yields b d (p >>= q) s (r >>= r') := by
  unfold Yields at hp ⊢
  rw [StateT.run_bind]
  rcases hrun : p.run s with x | ⟨a, s'⟩
  · rw [hrun] at hp
    rw [hp]
    rfl
  · rw [hrun] at hp
    have hq := hq a s' hrun hp.1
    unfold Yields at hq
    rw [hp.1]
    change match (q a).run s' with | .ok (a, s') => _ | .error x => _
    rcases hrun' : (q a).run s' with x | ⟨c, s''⟩
    · rw [hrun'] at hq
      exact hq
    · rw [hrun'] at hq
      exact ⟨hq.1, hp.2.trans hq.2⟩

theorem Yields.keeps {p : StateT (Store V) (Except ε) α} {r : Except ε α} {a : α} {s' : Store V}
    (hp : Yields b d p s r) (hrun : p.run s = .ok (a, s')) : Keeps b d s s' := by
  unfold Yields at hp
  rw [hrun] at hp
  exact hp.2

/-- One run after the other, from any store that the first may have left. -/
theorem yields_bind {p : StateT (Store V) (Except ε) α} {q : α → StateT (Store V) (Except ε) β}
    {r : Except ε α} {r' : α → Except ε β} (hp : Yields b d p s r)
    (hq : ∀ a s', Keeps b d s s' → Yields b d (q a) s' (r' a)) :
    Yields b d (p >>= q) s (r >>= r') :=
  yields_bind_run hp fun a s' hrun _ => hq a s' (hp.keeps hrun)

/-- A run that starts with what needs no store. -/
theorem yields_lift_bind {x : Except ε α} {q : α → StateT (Store V) (Except ε) β}
    {r : α → Except ε β} (hq : ∀ a, x = .ok a → Yields b d (q a) s (r a)) :
    Yields b d (liftM x >>= q) s (x >>= r) := by
  cases x with
  | error e => exact rfl
  | ok a => exact hq a rfl

/-- A run whose result is changed at the end. -/
theorem yields_map {p : StateT (Store V) (Except ε) α} {g : α → β} {r : Except ε α}
    (hp : Yields b d p s r) : Yields b d (p >>= fun a => pure (g a)) s (r >>= fun a => pure (g a)) :=
  yields_bind hp fun _ _ _ => yields_pure

theorem yields_mono {p : StateT (Store V) (Except ε) α} {r : Except ε α} {d' : Nat} (hd : d ≤ d')
    (hp : Yields b d' p s r) : Yields b d p s r := by
  unfold Yields at hp ⊢
  rcases hrun : p.run s with x | ⟨a, s'⟩
  · rw [hrun] at hp
    exact hp
  · rw [hrun] at hp
    exact ⟨hp.1, hp.2.mono hd⟩

/-- The value of code that refers to what `r` does. -/
theorem yields_eval {t : Term} {r : Except ε (Reference V)} (h : Yields b d (I.run t) s r) :
    Yields b d (I.eval t) s (r >>= I.get) :=
  yields_bind h fun _ _ _ => yields_lift

theorem yields_ofVar {x : Text} {v : V} (hx : s x = some v) :
    Yields b d (I.run (.ofVar x)) s (.ok (.value v)) := by
  have hread : (I.run (.ofVar x)).run s = .ok (.value v, s) := by
    unfold Term.ofVar
    rw [run, StateT.run_bind]
    unfold readVariable
    rw [StateT.run, hx]
    rfl
  unfold Yields
  rw [hread]
  exact ⟨rfl, .refl s⟩

theorem yields_assign (hs : Ready b (d + 1) s) (v : V) :
    (I.assign (nameOf b d) v).run s = .ok ((), fun x => if x = nameOf b d then some v else s x) ∧
      Keeps b d s fun x => if x = nameOf b d then some v else s x := by
  have hsome := hs.declared d (Nat.lt_succ_self d)
  refine ⟨if_pos hsome, fun x => ?_, fun k hk => if_neg fun h => ?_⟩
  · by_cases hx : x = nameOf b d
    · rw [if_pos hx, hx, hsome]
      rfl
    · rw [if_neg hx]
  · exact Nat.ne_of_lt hk (TemporaryStack.nameOf_inj h)

end Rules

/-! ### Code without temporaries -/

/-- Whether a run gives the same from all stores that have nothing but variables of the binding. -/
def IsConstant (b : Text) (p : StateT (Store V) (Except ε) α) : Prop :=
  ∃ r : Except ε α, ∀ s : Store V, (∀ x, Unreserved b x → s x = none) →
    p.run s = r.map fun a => (a, s)

theorem isConstant_pure {a : α} : IsConstant b (pure a : StateT (Store V) (Except ε) α) :=
  ⟨.ok a, fun _ _ => rfl⟩

theorem isConstant_lift {r : Except ε α} :
    IsConstant b (liftM r : StateT (Store V) (Except ε) α) := by
  refine ⟨r, fun s _ => ?_⟩
  cases r <;> rfl

theorem isConstant_bind {p : StateT (Store V) (Except ε) α}
    {q : α → StateT (Store V) (Except ε) β} (hp : IsConstant b p)
    (hq : ∀ a, IsConstant b (q a)) : IsConstant b (p >>= q) := by
  obtain ⟨r, hr⟩ := hp
  cases r with
  | error x =>
      refine ⟨.error x, fun s hs => ?_⟩
      rw [StateT.run_bind, hr s hs]
      rfl
  | ok a =>
      obtain ⟨r', hr'⟩ := hq a
      refine ⟨r', fun s hs => ?_⟩
      rw [StateT.run_bind, hr s hs, ← hr' s hs]
      rfl

theorem isConstant_readVariable {x : Text} (hx : Unreserved b x) :
    IsConstant b (I.readVariable x) := by
  refine ⟨I.var x, fun s hs => ?_⟩
  unfold readVariable
  rw [StateT.run, hs x hx]

/-- Code cannot assign to what is not declared. -/
theorem isConstant_assign {x : Text} {v : V} (hx : Unreserved b x) :
    IsConstant b (I.assign x v) := by
  refine ⟨.error I.stuck, fun s hs => ?_⟩
  unfold assign
  rw [StateT.run, hs x hx]
  rfl

mutual

theorem isConstant_run : ∀ t : Term, (∀ x ∈ t.variables, Unreserved b x) → IsConstant b (I.run t)
  | .var _ x, h => by
    rw [run]
    exact isConstant_bind (isConstant_readVariable (h x List.mem_cons_self)) fun _ => isConstant_pure
  | .lit _ _, _ => by rw [run]; exact isConstant_pure
  | .array _ ts, h => by
    rw [run]
    exact isConstant_bind (isConstant_runAll ts h) fun _ => isConstant_pure
  | .map _ es, h => by
    rw [run]
    exact isConstant_bind (isConstant_runEntries es h) fun _ => isConstant_pure
  | .prop _ a _, h | .cast _ a, h => by
    rw [run]
    refine isConstant_bind (isConstant_run a h) fun r => isConstant_bind isConstant_lift fun v => ?_
    exact isConstant_pure
  | .not _ a, h | .present _ a, h => by
    rw [run]
    refine isConstant_bind (isConstant_run a h) fun r => isConstant_bind isConstant_lift fun v => ?_
    exact isConstant_bind isConstant_lift fun _ => isConstant_pure
  | .key _ a i, h => by
    obtain ⟨ha, hi⟩ := forall_variables_append h
    rw [run]
    refine isConstant_bind (isConstant_run a ha) fun r => isConstant_bind isConstant_lift fun v => ?_
    refine isConstant_bind (isConstant_run i hi) fun r => isConstant_bind isConstant_lift fun k => ?_
    exact isConstant_bind isConstant_lift fun _ => isConstant_pure
  | .call _ f args _, h => by
    obtain ⟨hf, hargs⟩ := forall_variables_append h
    rw [run]
    refine isConstant_bind (isConstant_run f hf) fun r => ?_
    refine isConstant_bind (isConstant_runAll args hargs) fun vs => ?_
    exact isConstant_bind isConstant_lift fun _ => isConstant_pure
  | .binary _ op l r, h => by
    obtain ⟨hl, hr⟩ := forall_variables_append h
    rw [run]
    split
    · next x hx =>
        refine isConstant_bind (isConstant_run r hr) fun _ => isConstant_bind isConstant_lift fun v => ?_
        refine isConstant_bind (isConstant_assign (hl x ?_)) fun _ => isConstant_pure
        exact Operator.mem_variables_of_assigned? hx
    · refine isConstant_bind (isConstant_run l hl) fun _ => isConstant_bind isConstant_lift fun v => ?_
      split
      · exact isConstant_pure
      · refine isConstant_bind (isConstant_run r hr) fun _ => isConstant_bind isConstant_lift fun u => ?_
        exact isConstant_bind isConstant_lift fun _ => isConstant_pure
  | .cond _ c yes none, h => by
    obtain ⟨hc, hyes⟩ := forall_variables_append h
    rw [run]
    refine isConstant_bind (isConstant_run c hc) fun _ => isConstant_bind isConstant_lift fun v => ?_
    split
    · refine isConstant_bind (isConstant_run yes hyes) fun _ => ?_
      exact isConstant_bind isConstant_lift fun _ => isConstant_pure
    · exact isConstant_pure
  | .cond _ c yes (some no), h => by
    obtain ⟨hc, hrest⟩ := forall_variables_append h
    obtain ⟨hyes, hno⟩ := forall_variables_append hrest
    rw [run]
    refine isConstant_bind (isConstant_run c hc) fun _ => isConstant_bind isConstant_lift fun v => ?_
    split
    · refine isConstant_bind (isConstant_run yes hyes) fun _ => ?_
      exact isConstant_bind isConstant_lift fun _ => isConstant_pure
    · refine isConstant_bind (isConstant_run no hno) fun _ => ?_
      exact isConstant_bind isConstant_lift fun _ => isConstant_pure
  | .pooled _ t, h => by
    rw [run]
    exact isConstant_run t h
  | .external .., _ | .function .., _ => by
    rw [run]
    exact isConstant_bind isConstant_lift fun _ => isConstant_pure

theorem isConstant_runAll : ∀ ts : List Term,
    (∀ x ∈ (Term.nodesAll ts).filterMap Term.varName?, Unreserved b x) → IsConstant b (I.runAll ts)
  | [], _ => by rw [runAll]; exact isConstant_pure
  | t :: ts, h => by
    obtain ⟨ht, hts⟩ := forall_variables_append h
    rw [runAll]
    refine isConstant_bind (isConstant_run t ht) fun r => isConstant_bind isConstant_lift fun v => ?_
    exact isConstant_bind (isConstant_runAll ts hts) fun _ => isConstant_pure

theorem isConstant_runEntries : ∀ es : List (MapKey × Term),
    (∀ x ∈ (Term.nodesEntries es).filterMap Term.varName?, Unreserved b x) →
    IsConstant b (I.runEntries es)
  | [], _ => by rw [runEntries]; exact isConstant_pure
  | (_, t) :: es, h => by
    obtain ⟨ht, hes⟩ := forall_variables_append h
    rw [runEntries]
    refine isConstant_bind (isConstant_run t ht) fun r => isConstant_bind isConstant_lift fun v => ?_
    exact isConstant_bind (isConstant_runEntries es hes) fun _ => isConstant_pure

end

/-- Code without variables of the binding refers to the same in every store. -/
theorem yields_constant {t : Term} (ht : ∀ x ∈ t.variables, Unreserved b x) {s : Store V}
    (hs : Ready b n s) : Yields b d (I.run t) s (I.constant t) := by
  obtain ⟨r, hr⟩ := isConstant_run (I := I) t ht
  have hconstant : I.constant t = r := by
    change (fun x => x.1) <$> (I.run t).run (fun _ => none) = r
    rw [hr _ fun _ _ => rfl]
    cases r <;> rfl
  unfold Yields
  rw [hr s hs.free, hconstant]
  cases r with
  | error x => rfl
  | ok a => exact ⟨rfl, .refl s⟩

end Interpretation

end TemplateCompiler
