import TemplateCompiler.Proofs.Lowering.Soundness

/-!
# What holds of all derivable code

Code is put together in a few ways, so that a property which these keep holds of all code.

* `Answers.Inherited A b N Q P` : code has the property `P` if its parts have it, for the binding `b`
  with `N` temporaries and for expressions whose nodes have the property `Q`;
* `Answers.Inherited.code` : then it holds of all code that the answers derive;
* `Answers.Closed A b N Q P` : a property that operations have whatever the operator (`Closed.code`);
* `Answers.Code.every` : what has code has code of all its nodes;
* `Answers.Code.mono` : what some answers derive, answers that allow more derive as well.
-/

namespace TemplateCompiler.Answers

open TemporaryStack (nameOf)

/-- A property that every way of putting code together keeps. -/
structure Closed (A : Answers) (b : Text) (N : Nat) (Q : Expr → Prop) (P : Term → Prop) : Prop where
  context : P A.context
  found : ∀ {e name t}, Q e → A.Aliased ∨ e.member? = some name →
    A.lookup name (some (.term t)) → P t
  temporary : ∀ {k}, k < N → P (.ofVar (nameOf b k))
  value : ∀ v, P (.ofValue v)
  prop : ∀ {t} name, P t → P (.prop {} t name)
  key : ∀ {t u}, P t → P u → P (.key {} t u)
  operation : ∀ {t u} op note, P t → P u → P (.operation op t u note)
  choose : ∀ {c t u}, P c → P t → P u → P (.choose c t (some u))
  negate : ∀ {t}, P t → P (.negate t)
  assertPresent : ∀ {t}, P t → P (.assertPresent t)
  erased : ∀ {t}, P t → P (.erased t)
  apply : ∀ {t ts}, P t → (∀ u ∈ ts, P u) → P (.apply t ts)
  applyMethod : ∀ {t ts} name, P t → (∀ u ∈ ts, P u) → P (.applyMethod t name ts)
  interpolate : ∀ {args t}, (∀ u ∈ args, P u) → A.interpolate args t → P t
  builtin : ∀ {p kind es ts t}, Q (.builtin p kind es) → es.length = ts.length → (∀ u ∈ ts, P u) →
    A.builtin kind ts t → P t

/-- A property that code has if its parts have it. What code assigns to is a temporary, a member or an
entry. -/
structure Inherited (A : Answers) (b : Text) (N : Nat) (Q : Expr → Prop) (P : Term → Prop) :
    Prop where
  context : P A.context
  found : ∀ {e name t}, Q e → A.Aliased ∨ e.member? = some name →
    A.lookup name (some (.term t)) → P t
  temporary : ∀ {k}, k < N → P (.ofVar (nameOf b k))
  value : ∀ v, P (.ofValue v)
  prop : ∀ {t} name, P t → P (.prop {} t name)
  key : ∀ {t u}, P t → P u → P (.key {} t u)
  operation : ∀ {t u op} note, op ≠ .assign → P t → P u → P (.operation op t u note)
  setTemporary : ∀ {k t}, k < N → P t → P (.set (.ofVar (nameOf b k)) t)
  setProp : ∀ {note o name t}, P (.prop note o name) → P t → P (.set (.prop note o name) t)
  setKey : ∀ {o i t}, P (.key {} o i) → P t → P (.set (.key {} o i) t)
  choose : ∀ {c t u}, P c → P t → P u → P (.choose c t (some u))
  negate : ∀ {t}, P t → P (.negate t)
  assertPresent : ∀ {t}, P t → P (.assertPresent t)
  erased : ∀ {t}, P t → P (.erased t)
  apply : ∀ {t ts}, P t → (∀ u ∈ ts, P u) → P (.apply t ts)
  applyMethod : ∀ {t ts} name, P t → (∀ u ∈ ts, P u) → P (.applyMethod t name ts)
  interpolate : ∀ {args t}, (∀ u ∈ args, P u) → A.interpolate args t → P t
  builtin : ∀ {p kind es ts t}, Q (.builtin p kind es) → es.length = ts.length → (∀ u ∈ ts, P u) →
    A.builtin kind ts t → P t

namespace Inherited

variable {A : Answers} {b : Text} {N : Nat} {Q : Expr → Prop} {P : Term → Prop}

/-- A node whose receiver is made as the context is a member of the context, unless a local is the context. -/
theorem member?_of_isContext {c : Lowered} {r e : Expr} {name : Text}
    (h : c.isContext = true → A.Aliased ∨ r.isContext = true)
    (he : e.member? = if r.isContext then some name else none) (hc : c.isContext = true) :
    A.Aliased ∨ e.member? = some name := (h hc).imp_right fun hr => he.trans (if_pos hr)

theorem resolves (hA : A.Inherited b N Q P) {e : Expr} {c : Lowered} {name : Text} {f : Found} (he : Q e)
    (hmember : c.isContext = true → A.Aliased ∨ e.member? = some name)
    (h : A.Resolves c name (some f)) : P (f.made A.context).code := by
  unfold Resolves at h
  split at h
  · next hc =>
      cases f with
      | context => exact hA.context
      | term t => exact hA.found he (hmember hc) h
  · cases h

theorem memberCode (hA : A.Inherited b N Q P) {e : Expr} {c : Lowered} {name : Text} {found : Option Found}
    (he : Q e) (hmember : c.isContext = true → A.Aliased ∨ e.member? = some name) (hc : P c.code)
    (h : A.Resolves c name found) : P (A.memberCode c name found).code := by
  cases found with
  | none => exact hA.prop name hc
  | some f => exact hA.resolves he hmember h

theorem invocationCode (hA : A.Inherited b N Q P) {e : Expr} {c : Lowered} {name : Text} {ts : List Term}
    {found : Option Found} (he : Q e)
    (hmember : c.isContext = true → A.Aliased ∨ e.member? = some name) (hc : P c.code)
    (hts : ∀ u ∈ ts, P u) (h : A.Resolves c name found) : P (A.invocationCode c name ts found) := by
  cases found with
  | none => exact hA.applyMethod name hc hts
  | some f => exact hA.apply (hA.resolves he hmember h) hts

theorem guardCode (hA : A.Inherited b N Q P) {c t : Term} (hc : P c) (ht : P t) : P (guardCode c t) :=
  hA.choose (hA.operation _ nofun hc (hA.value _)) (hA.value _) ht

theorem interpolationArgs (hA : A.Inherited b N Q P) {ts : List Term} (h : ∀ u ∈ ts, P u) :
    ∀ texts : List Text, ∀ u ∈ Expr.interpolationArgs texts ts, P u := by
  induction ts with
  | nil =>
      rintro (_ | ⟨text, texts⟩) u hu
      · cases hu
      · rw [List.mem_singleton.mp hu]
        exact hA.value _
  | cons t ts ih =>
      obtain ⟨ht, hts⟩ := List.forall_mem_cons.mp h
      rintro (_ | ⟨text, texts⟩)
      · exact fun _ hu => nomatch hu
      · exact List.forall_mem_cons.mpr ⟨hA.value _, List.forall_mem_cons.mpr ⟨ht, ih hts texts⟩⟩

mutual

theorem code (hA : A.Inherited b N Q P) : ∀ {d n : Nat} {e : Expr} {m : Lowered}, Code A b d n e m →
    n ≤ N → e.Every Q → P m.code
  | _, _, _, _, .spine h, hn, he => hA.guarded h hn he he.safeReceivers fun _ ht => nomatch ht

theorem codes (hA : A.Inherited b N Q P) : ∀ {d n : Nat} {es : List Expr} {ts : List Term},
    Codes A b d n es ts → n ≤ N → Expr.EveryAll Q es → ∀ u ∈ ts, P u
  | _, _, _, _, .nil, _, _ => fun _ hu => nomatch hu
  | _, _, _, _, .cons ht hts, hn, he => by
    rw [Expr.EveryAll] at he
    exact List.forall_mem_cons.mpr ⟨hA.code ht (by omega) he.1, hA.codes hts (by omega) he.2⟩

theorem guarded (hA : A.Inherited b N Q P) : ∀ {d n : Nat} {pins : Pins} {rs : List Expr} {e : Expr}
    {m : Lowered}, GuardedCode A b d n pins rs e m → n ≤ N → e.Every Q → (∀ r ∈ rs, r.Every Q) →
    (∀ t, some t ∈ pins → P t) → P m.code
  | _, _, _, _, _, _, .plain h, hn, he, _, hpins => hA.plain h hn he hpins
  | d, _, _, _, _, _, .kept _ hc ht, hn, he, hrs, hpins => by
    obtain ⟨hr, hrs⟩ := List.forall_mem_cons.mp hrs
    have htmp : P (.ofVar (nameOf b d)) := hA.temporary (by omega)
    have hset := hA.setTemporary (k := d) (by omega) (hA.plain hc (by omega) hr hpins)
    refine hA.guardCode hset (hA.guarded ht (by omega) he hrs fun u hu => ?_)
    rcases List.mem_append.mp hu with hu | hu
    · exact hpins u hu
    · rw [Option.some.inj (List.mem_singleton.mp hu)]
      exact htmp
  | _, _, _, _, _, _, .copied _ hc ht, hn, he, hrs, hpins => by
    obtain ⟨hr, hrs⟩ := List.forall_mem_cons.mp hrs
    refine hA.guardCode (hA.plain hc (by omega) hr hpins) (hA.guarded ht (by omega) he hrs fun u hu => ?_)
    rcases List.mem_append.mp hu with hu | hu
    · exact hpins u hu
    · cases List.mem_singleton.mp hu

theorem plain (hA : A.Inherited b N Q P) : ∀ {d n : Nat} {pins : Pins} {e : Expr} {m : Lowered},
    PlainCode A b d n pins e m → n ≤ N → e.Every Q → (∀ t, some t ∈ pins → P t) → P m.code
  | _, _, _, _, _, .context, _, _, _ => hA.context
  | _, _, _, _, _, .read hc hfound, hn, he, hpins => by
    rw [Expr.Every] at he
    exact hA.memberCode he.1 (member?_of_isContext hc.isContext rfl) (hA.plain hc hn he.2 hpins) hfound
  | _, _, _, _, _, .safeRead hc hfound, hn, he, hpins => by
    rw [Expr.Every] at he
    exact hA.memberCode he.1 (member?_of_isContext hc.isContext rfl) (hA.receiver hc hn he.2 hpins) hfound
  | _, _, _, _, _, .index hc hk, hn, he, hpins => by
    rw [Expr.Every] at he
    exact hA.key (hA.plain hc (by omega) he.2.1 hpins) (hA.code hk (by omega) he.2.2)
  | _, _, _, _, _, .erased _ hargs, hn, he, _ => by
    rw [Expr.Every] at he
    exact hA.erased (hA.codes hargs hn he.2.2 _ List.mem_cons_self)
  | _, _, _, _, _, .method _ hargs hc hfound, hn, he, hpins => by
    rw [Expr.Every] at he
    exact hA.invocationCode he.1 (member?_of_isContext hc.isContext rfl) (hA.plain hc (by omega) he.2.1 hpins)
      (hA.codes hargs (by omega) he.2.2) hfound
  | _, _, _, _, _, .safeErased _ hargs, hn, he, _ => by
    rw [Expr.Every] at he
    exact hA.erased (hA.codes hargs hn he.2.2 _ List.mem_cons_self)
  | _, _, _, _, _, .safeMethod _ hargs hc hfound, hn, he, hpins => by
    rw [Expr.Every] at he
    exact hA.invocationCode he.1 (member?_of_isContext hc.isContext rfl) (hA.receiver hc (by omega) he.2.1 hpins)
      (hA.codes hargs (by omega) he.2.2) hfound
  | _, _, _, _, _, .write hc _ ht, hn, he, _ => by
    rw [Expr.Every] at he
    exact hA.setProp (hA.prop _ (hA.code hc (by omega) he.2.1)) (hA.code ht (by omega) he.2.2)
  | _, _, _, _, _, .writeThrough hc hfound hcode ht, hn, he, _ => by
    rw [Expr.Every] at he
    have htarget := hA.resolves he.1 (member?_of_isContext hc.isContext rfl) hfound
    rw [hcode] at htarget
    exact hA.setProp htarget (hA.code ht (by omega) he.2.2)
  | _, _, _, _, _, .indexWrite hc hi ht, hn, he, _ => by
    rw [Expr.Every] at he
    exact hA.setKey (hA.key (hA.code hc (by omega) he.2.1) (hA.code hi (by omega) he.2.2.1))
      (hA.code ht (by omega) he.2.2.2)
  | _, _, _, _, _, .call hargs hf, hn, he, _ => by
    rw [Expr.Every] at he
    exact hA.apply (hA.code hf (by omega) he.2.1) (hA.codes hargs (by omega) he.2.2)
  | _, _, _, _, _, .conditional hc hy hz, hn, he, _ => by
    rw [Expr.Every] at he
    exact hA.choose (hA.code hc (by omega) he.2.1) (hA.code hy (by omega) he.2.2.1)
      (hA.code hz (by omega) he.2.2.2)
  | _, _, _, _, _, .binary hop hl hr, hn, he, _ => by
    rw [Expr.Every] at he
    exact hA.operation _ (sourceOperator?_ne_assign hop) (hA.code hl (by omega) he.2.1)
      (hA.code hr (by omega) he.2.2)
  | _, _, _, _, _, .not ht, hn, he, _ => by
    rw [Expr.Every] at he
    exact hA.negate (hA.code ht hn he.2)
  | _, _, _, _, _, .present ht, hn, he, _ => by
    rw [Expr.Every] at he
    exact hA.assertPresent (hA.code ht hn he.2)
  | _, _, _, _, _, .literal, _, _, _ => hA.value _
  | _, _, _, _, _, .interpolation _ hes ht, hn, he, _ => by
    rw [Expr.Every] at he
    refine hA.interpolate (List.forall_mem_cons.mpr ⟨hA.value _, ?_⟩) ht
    exact hA.interpolationArgs (hA.codes hes hn he.2) _
  | _, _, _, _, _, .builtin hargs ht, hn, he, _ => by
    rw [Expr.Every] at he
    exact hA.builtin he.1 hargs.length_eq (hA.codes hargs hn he.2) ht

theorem receiver (hA : A.Inherited b N Q P) : ∀ {d n : Nat} {pins : Pins} {r : Expr} {m : Lowered},
    ReceiverCode A b d n pins r m → n ≤ N → r.Every Q → (∀ t, some t ∈ pins → P t) → P m.code
  | _, _, _, _, _, .kept hpin, _, _, hpins => hpins _ (List.mem_of_getElem? hpin)
  | _, _, _, _, _, .copied _ hc, hn, he, hpins => hA.plain hc hn he hpins

end

end Inherited

/-! ### Properties of all operations -/

namespace Closed

variable {A : Answers} {b : Text} {N : Nat} {Q : Expr → Prop} {P : Term → Prop}

/-- What every operation keeps, assignments keep as well. -/
theorem inherited (hA : A.Closed b N Q P) : A.Inherited b N Q P :=
  { hA with
    operation := fun note _ ht hu => hA.operation _ note ht hu
    setTemporary := fun hk ht => hA.operation _ _ (hA.temporary hk) ht
    setProp := fun ho ht => hA.operation _ _ ho ht
    setKey := fun ho ht => hA.operation _ _ ho ht }

/-- A property that is kept holds of all code. -/
theorem code (hA : A.Closed b N Q P) {d n : Nat} {e : Expr} {m : Lowered} (h : Code A b d n e m)
    (hn : n ≤ N) (he : e.Every Q) : P m.code :=
  hA.inherited.code h hn he

theorem codes (hA : A.Closed b N Q P) {d n : Nat} {es : List Expr} {ts : List Term}
    (h : Codes A b d n es ts) (hn : n ≤ N) (he : Expr.EveryAll Q es) : ∀ u ∈ ts, P u :=
  hA.inherited.codes h hn he

end Closed

/-! ### The nodes of what has code -/

section Nodes

variable {A : Answers} {b : Text}

/-- A node that there is code of, as what is lowered on its own or on a spine. -/
def HasCode (A : Answers) (b : Text) (e : Expr) : Prop := ∃ d n pins m, PlainCode A b d n pins e m

theorem hasCode_of_isContext {e : Expr} (h : e.isContext = true) : e.Every (HasCode A b) := by
  cases e with
  | context p => exact ⟨0, 0, [], _, .context⟩
  | _ => cases h

theorem isContext_of_isErasure {r : Expr} {name : Text} (h : Expr.isErasure r name = true) :
    r.isContext = true := (Bool.and_eq_true_iff.mp h).1

/-- A receiver among those that are guarded. -/
theorem receiver_every {P : Expr → Prop} {r : Expr} {rs : List Expr}
    (hrs : r.safeReceivers ++ [r] <+: rs) (hkept : ∀ x ∈ rs, x.Every P) : r.Every P :=
  hkept r (hrs.subset (List.mem_append_right _ List.mem_cons_self))

mutual

/-- What has code has code of every node. Of a receiver that is kept there is code in its guard. -/
theorem Code.every : ∀ {d n : Nat} {e : Expr} {m : Lowered}, Code A b d n e m → e.Every (HasCode A b)
  | _, _, _, _, .spine h => GuardedCode.every h (List.nil_append _) (List.forall_mem_nil _)

theorem Codes.every : ∀ {d n : Nat} {es : List Expr} {ts : List Term}, Codes A b d n es ts →
    Expr.EveryAll (HasCode A b) es
  | _, _, _, _, .nil => trivial
  | _, _, _, _, .cons h hs => ⟨Code.every h, Codes.every hs⟩

theorem GuardedCode.every : ∀ {d n : Nat} {pins : Pins} {rs' : List Expr} {e : Expr} {m : Lowered},
    GuardedCode A b d n pins rs' e m → ∀ {rs : List Expr}, rs ++ rs' = e.safeReceivers →
    (∀ r ∈ rs, r.Every (HasCode A b)) → e.Every (HasCode A b)
  | _, _, _, _, _, _, .plain h, rs, hrs, hkept => by
    rw [List.append_nil] at hrs
    exact PlainCode.every h (hrs ▸ List.prefix_rfl) hkept
  | _, _, _, _, _, _, .kept _ hc ht, rs, hrs, hkept | _, _, _, _, _, _, .copied _ hc ht, rs, hrs, hkept => by
    have hreceivers := Expr.safeReceivers_of_append hrs
    have hr := PlainCode.every hc (hreceivers ▸ List.prefix_rfl) hkept
    refine GuardedCode.every ht ((List.append_assoc rs [_] _).trans hrs) ?_
    exact List.forall_mem_append.mpr ⟨hkept, List.forall_mem_singleton.mpr hr⟩

theorem PlainCode.every : ∀ {d n : Nat} {pins : Pins} {e : Expr} {m : Lowered},
    PlainCode A b d n pins e m → ∀ {rs : List Expr}, e.safeReceivers <+: rs →
    (∀ r ∈ rs, r.Every (HasCode A b)) → e.Every (HasCode A b)
  | _, _, _, _, _, h@.context, _, _, _ => ⟨_, _, _, _, h⟩
  | _, _, _, _, _, h@(.read hc _), _, hrs, hkept => ⟨⟨_, _, _, _, h⟩, PlainCode.every hc hrs hkept⟩
  | _, _, _, _, _, h@(.safeRead ..), _, hrs, hkept => ⟨⟨_, _, _, _, h⟩, receiver_every hrs hkept⟩
  | _, _, _, _, _, h@(.index hc hk), _, hrs, hkept =>
    ⟨⟨_, _, _, _, h⟩, PlainCode.every hc hrs hkept, Code.every hk⟩
  | _, _, _, _, _, h@(.erased hname hargs), _, _, _ =>
    ⟨⟨_, _, _, _, h⟩, hasCode_of_isContext (isContext_of_isErasure hname), Codes.every hargs⟩
  | _, _, _, _, _, h@(.method _ hargs hc _), _, hrs, hkept =>
    ⟨⟨_, _, _, _, h⟩, PlainCode.every hc hrs hkept, Codes.every hargs⟩
  | _, _, _, _, _, h@(.safeErased _ hargs), _, hrs, hkept
  | _, _, _, _, _, h@(.safeMethod _ hargs _ _), _, hrs, hkept =>
    ⟨⟨_, _, _, _, h⟩, receiver_every hrs hkept, Codes.every hargs⟩
  | _, _, _, _, _, h@(.write hc _ ht), _, _, _ | _, _, _, _, _, h@(.writeThrough hc _ _ ht), _, _, _ =>
    ⟨⟨_, _, _, _, h⟩, Code.every hc, Code.every ht⟩
  | _, _, _, _, _, h@(.indexWrite hc hi ht), _, _, _ =>
    ⟨⟨_, _, _, _, h⟩, Code.every hc, Code.every hi, Code.every ht⟩
  | _, _, _, _, _, h@(.call hargs hf), _, _, _ =>
    ⟨⟨_, _, _, _, h⟩, Code.every hf, Codes.every hargs⟩
  | _, _, _, _, _, h@(.conditional hc hy hz), _, _, _ =>
    ⟨⟨_, _, _, _, h⟩, Code.every hc, Code.every hy, Code.every hz⟩
  | _, _, _, _, _, h@(.binary _ hl hr), _, _, _ => ⟨⟨_, _, _, _, h⟩, Code.every hl, Code.every hr⟩
  | _, _, _, _, _, h@(.not ht), _, _, _ | _, _, _, _, _, h@(.present ht), _, _, _ =>
    ⟨⟨_, _, _, _, h⟩, Code.every ht⟩
  | _, _, _, _, _, h@.literal, _, _, _ => ⟨_, _, _, _, h⟩
  | _, _, _, _, _, h@(.interpolation _ hes _), _, _, _ | _, _, _, _, _, h@(.builtin hes _), _, _, _ =>
    ⟨⟨_, _, _, _, h⟩, Codes.every hes⟩

end

end Nodes

/-! ### More answers -/

/-- Answers that allow all that others do. -/
structure Le (A A' : Answers) : Prop where
  context : A.context = A'.context
  lookup : ∀ {name found}, A.lookup name found → A'.lookup name found
  builtin : ∀ {kind ts t}, A.builtin kind ts t → A'.builtin kind ts t
  interpolate : ∀ {args t}, A.interpolate args t → A'.interpolate args t

section Mono

variable {A A' : Answers} {b : Text}

theorem Le.resolves (h : A.Le A') {r : Lowered} {name : Text} {found : Option Found}
    (hr : A.Resolves r name found) : A'.Resolves r name found := by
  unfold Resolves at hr ⊢
  split at hr
  · next hcontext =>
      rw [if_pos hcontext]
      exact h.lookup hr
  · next hcontext =>
      rw [if_neg hcontext]
      exact hr

theorem Le.memberCode (h : A.Le A') (c : Lowered) (name : Text) (found : Option Found) :
    A.memberCode c name found = A'.memberCode c name found := by
  unfold Answers.memberCode
  rw [h.context]

theorem Le.invocationCode (h : A.Le A') (c : Lowered) (name : Text) (ts : List Term)
    (found : Option Found) :
    A.invocationCode c name ts found = A'.invocationCode c name ts found := by
  unfold Answers.invocationCode
  rw [h.context]

mutual

theorem Code.mono (h : A.Le A') : ∀ {d n : Nat} {e : Expr} {m : Lowered}, Code A b d n e m →
    Code A' b d n e m
  | _, _, _, _, .spine hg => .spine (GuardedCode.mono h hg)

theorem Codes.mono (h : A.Le A') : ∀ {d n : Nat} {es : List Expr} {ts : List Term},
    Codes A b d n es ts → Codes A' b d n es ts
  | _, _, _, _, .nil => .nil
  | _, _, _, _, .cons ht hts => .cons (Code.mono h ht) (Codes.mono h hts)

theorem GuardedCode.mono (h : A.Le A') : ∀ {d n : Nat} {pins : Pins} {rs : List Expr} {e : Expr}
    {m : Lowered}, GuardedCode A b d n pins rs e m → GuardedCode A' b d n pins rs e m
  | _, _, _, _, _, _, .plain hp => .plain (PlainCode.mono h hp)
  | _, _, _, _, _, _, .kept hk hc ht => .kept hk (PlainCode.mono h hc) (GuardedCode.mono h ht)
  | _, _, _, _, _, _, .copied hk hc ht => .copied hk (PlainCode.mono h hc) (GuardedCode.mono h ht)

theorem PlainCode.mono (h : A.Le A') : ∀ {d n : Nat} {pins : Pins} {e : Expr} {m : Lowered},
    PlainCode A b d n pins e m → PlainCode A' b d n pins e m
  | _, _, _, _, _, .context => by
    rw [h.context]
    exact .context
  | _, _, _, _, _, .read hc hfound => by
    rw [h.memberCode]
    exact .read (PlainCode.mono h hc) (h.resolves hfound)
  | _, _, _, _, _, .safeRead hc hfound => by
    rw [h.memberCode]
    exact .safeRead (ReceiverCode.mono h hc) (h.resolves hfound)
  | _, _, _, _, _, .index hc hk => .index (PlainCode.mono h hc) (Code.mono h hk)
  | _, _, _, _, _, .erased he hargs => .erased he (Codes.mono h hargs)
  | _, _, _, _, _, .method he hargs hc hfound => by
    rw [h.invocationCode]
    exact .method he (Codes.mono h hargs) (PlainCode.mono h hc) (h.resolves hfound)
  | _, _, _, _, _, .safeErased he hargs => .safeErased he (Codes.mono h hargs)
  | _, _, _, _, _, .safeMethod he hargs hc hfound => by
    rw [h.invocationCode]
    exact .safeMethod he (Codes.mono h hargs) (ReceiverCode.mono h hc) (h.resolves hfound)
  | _, _, _, _, _, .write hc hfound ht => .write (Code.mono h hc) (h.resolves hfound) (Code.mono h ht)
  | _, _, _, _, _, .writeThrough hc hfound hcode ht =>
    .writeThrough (Code.mono h hc) (h.resolves hfound) (h.context ▸ hcode) (Code.mono h ht)
  | _, _, _, _, _, .indexWrite hc hi ht =>
    .indexWrite (Code.mono h hc) (Code.mono h hi) (Code.mono h ht)
  | _, _, _, _, _, .call hargs hf => .call (Codes.mono h hargs) (Code.mono h hf)
  | _, _, _, _, _, .conditional hc hy hz =>
    .conditional (Code.mono h hc) (Code.mono h hy) (Code.mono h hz)
  | _, _, _, _, _, .binary hop hl hr => .binary hop (Code.mono h hl) (Code.mono h hr)
  | _, _, _, _, _, .not ht => .not (Code.mono h ht)
  | _, _, _, _, _, .present ht => .present (Code.mono h ht)
  | _, _, _, _, _, .literal => .literal
  | _, _, _, _, _, .interpolation hl hes ht => .interpolation hl (Codes.mono h hes) (h.interpolate ht)
  | _, _, _, _, _, .builtin hargs ht => .builtin (Codes.mono h hargs) (h.builtin ht)

theorem ReceiverCode.mono (h : A.Le A') : ∀ {d n : Nat} {pins : Pins} {r : Expr} {m : Lowered},
    ReceiverCode A b d n pins r m → ReceiverCode A' b d n pins r m
  | _, _, _, _, _, .kept hpin => .kept hpin
  | _, _, _, _, _, .copied hne hc => .copied hne (PlainCode.mono h hc)

end

end Mono

end TemplateCompiler.Answers
