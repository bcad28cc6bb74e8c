import TemplateCompiler.Proofs.Expr.Receivers

/-!
# Derivations of code

What code an expression can become, as an inductive relation. `Answers` stands for the host: what it
may say when it is asked for a name, a builtin or an interpolation.

* `A.Code b d n e m` : `m` is code of `e` for the binding `b`, made while `d` temporaries are live,
  and needs the first `n` variables of the binding;
* `A.Codes` : the same for expressions one after the other;
* `A.GuardedCode … pins rs e m` : `m` is code of `e` under guards for the receivers `rs`;
* `A.PlainCode … pins e m` : `m` is code of `e` that guards nothing on the spine;
* `A.ReceiverCode … pins r m` : `m` is code of the receiver of a safe access, which may be pinned.

The receivers that a spine guards are `Expr.safeReceivers`.
-/

namespace TemplateCompiler

theorem sourceOperator?_ne_assign {o : Text} {op : Operator} (h : sourceOperator? o = some op) :
    op ≠ .assign := by
  rintro rfl
  unfold sourceOperator? at h
  split at h
  · cases h
  · cases h
  · next hne => exact hne h

/-- What the surroundings of an expression can say while it is lowered. -/
structure Answers where
  context : Term
  /-- What a name is found to stand for. -/
  lookup : Text → Option Found → Prop
  builtin : Builtin → List Term → Term → Prop
  interpolate : List Term → Term → Prop

namespace Answers

variable (A : Answers)

/-- What a member `name` of `receiver` can be found to stand for; only the context has locals. -/
def Resolves (receiver : Lowered) (name : Text) (found : Option Found) : Prop :=
  if receiver.isContext then A.lookup name found else found = none

/-- The code of a member, given what its name was found to stand for. -/
def memberCode (receiver : Lowered) (name : Text) : Option Found → Lowered
  | some found => found.made A.context
  | none => ⟨.prop {} receiver.code name, false⟩

/-- The call of a member, given what its name was found to stand for. -/
def invocationCode (receiver : Lowered) (name : Text) (args : List Term) : Option Found → Term
  | some found => .apply (found.made A.context).code args
  | none => .applyMethod receiver.code name args

/-- Code that is null if `guard` is, and `access` otherwise. -/
def guardCode (guard access : Term) : Term := .choose (.isBlank guard) .null (some access)

open TemporaryStack (nameOf)

mutual

/-- The code of an expression. -/
inductive Code (A : Answers) (b : Text) : (d n : Nat) → Expr → Lowered → Prop
  | spine {d n : Nat} {e : Expr} {t : Lowered} :
      GuardedCode A b d n [] e.safeReceivers e t → Code A b d n e t

/-- The code of expressions one after the other. -/
inductive Codes (A : Answers) (b : Text) : (d n : Nat) → List Expr → List Term → Prop
  | nil {d : Nat} : Codes A b d 0 [] []
  | cons {d n m : Nat} {e : Expr} {es : List Expr} {t : Lowered} {ts : List Term} :
      Code A b d n e t → Codes A b d m es ts → Codes A b d (max n m) (e :: es) (t.code :: ts)

/-- The code of an expression under guards, the first of which is outermost. -/
inductive GuardedCode (A : Answers) (b : Text) :
    (d n : Nat) → Pins → List Expr → Expr → Lowered → Prop
  | plain {d n : Nat} {pins : Pins} {e : Expr} {t : Lowered} :
      PlainCode A b d n pins e t → GuardedCode A b d n pins [] e t
  | kept {d n m : Nat} {pins : Pins} {r e : Expr} {rs : List Expr} {c t : Lowered} :
      r.needsTemporary = true → PlainCode A b d n pins r c →
      GuardedCode A b (d + 1) m (pins ++ [some (.ofVar (nameOf b d))]) rs e t →
      GuardedCode A b d (max n (max (d + 1) m)) pins (r :: rs) e
        ⟨guardCode (.set (.ofVar (nameOf b d)) c.code) t.code, false⟩
  | copied {d n m : Nat} {pins : Pins} {r e : Expr} {rs : List Expr} {c t : Lowered} :
      r.needsTemporary = false → PlainCode A b d n pins r c →
      GuardedCode A b d m (pins ++ [none]) rs e t →
      GuardedCode A b d (max n m) pins (r :: rs) e ⟨guardCode c.code t.code, false⟩

/-- The code of an expression whose spine is not guarded. -/
inductive PlainCode (A : Answers) (b : Text) : (d n : Nat) → Pins → Expr → Lowered → Prop
  | context {d : Nat} {pins : Pins} {p : Place} : PlainCode A b d 0 pins (.context p) ⟨A.context, true⟩
  | read {d n : Nat} {pins : Pins} {p : Place} {r : Expr} {name : Text} {c : Lowered}
      {found : Option Found} :
      PlainCode A b d n pins r c → A.Resolves c name found →
      PlainCode A b d n pins (.read p r name) (A.memberCode c name found)
  | safeRead {d n : Nat} {pins : Pins} {p : Place} {r : Expr} {name : Text} {c : Lowered}
      {found : Option Found} :
      ReceiverCode A b d n pins r c → A.Resolves c name found →
      PlainCode A b d n pins (.safeRead p r name) (A.memberCode c name found)
  | index {d n m : Nat} {pins : Pins} {p : Place} {o k : Expr} {c t : Lowered} :
      PlainCode A b d n pins o c → Code A b d m k t →
      PlainCode A b d (max n m) pins (.index p o k) ⟨.key {} c.code t.code, false⟩
  | erased {d n : Nat} {pins : Pins} {p : Place} {r : Expr} {name : Text} {args : List Expr}
      {t : Term} :
      Expr.isErasure r name = true → Codes A b d n args [t] →
      PlainCode A b d n pins (.method p r name args) ⟨.erased t, false⟩
  | method {d n m : Nat} {pins : Pins} {p : Place} {r : Expr} {name : Text} {args : List Expr}
      {c : Lowered} {ts : List Term} {found : Option Found} :
      Expr.isErasure r name = false → Codes A b d n args ts → PlainCode A b d m pins r c →
      A.Resolves c name found →
      PlainCode A b d (max n m) pins (.method p r name args) ⟨A.invocationCode c name ts found, false⟩
  | safeErased {d n : Nat} {pins : Pins} {p : Place} {r : Expr} {name : Text}
      {args : List Expr} {t : Term} :
      Expr.isErasure r name = true → Codes A b d n args [t] →
      PlainCode A b d n pins (.safeMethod p r name args) ⟨.erased t, false⟩
  | safeMethod {d n m : Nat} {pins : Pins} {p : Place} {r : Expr} {name : Text}
      {args : List Expr} {c : Lowered} {ts : List Term} {found : Option Found} :
      Expr.isErasure r name = false → Codes A b d n args ts → ReceiverCode A b d m pins r c →
      A.Resolves c name found →
      PlainCode A b d (max n m) pins (.safeMethod p r name args) ⟨A.invocationCode c name ts found, false⟩
  | write {d n m : Nat} {pins : Pins} {p : Place} {r v : Expr} {name : Text} {c t : Lowered} :
      Code A b d n r c → A.Resolves c name none → Code A b d m v t →
      PlainCode A b d (max n m) pins (.write p r name v) ⟨.set (.prop {} c.code name) t.code, false⟩
  | writeThrough {d n m : Nat} {pins : Pins} {p : Place} {r v : Expr} {name field : Text}
      {note : Note} {o : Term} {c t : Lowered} {found : Found} :
      Code A b d n r c → A.Resolves c name (some found) →
      (found.made A.context).code = .prop note o field → Code A b d m v t →
      PlainCode A b d (max n m) pins (.write p r name v) ⟨.set (.prop note o field) t.code, false⟩
  | indexWrite {d n m k : Nat} {pins : Pins} {p : Place} {o i v : Expr} {c j t : Lowered} :
      Code A b d n o c → Code A b d m i j → Code A b d k v t →
      PlainCode A b d (max n (max m k)) pins (.indexWrite p o i v)
        ⟨.set (.key {} c.code j.code) t.code, false⟩
  | call {d n m : Nat} {pins : Pins} {p : Place} {f : Expr} {args : List Expr} {c : Lowered}
      {ts : List Term} :
      Codes A b d n args ts → Code A b d m f c →
      PlainCode A b d (max n m) pins (.call p f args) ⟨.apply c.code ts, false⟩
  | conditional {d n m k : Nat} {pins : Pins} {p : Place} {c y z : Expr} {ct yt zt : Lowered} :
      Code A b d n c ct → Code A b d m y yt → Code A b d k z zt →
      PlainCode A b d (max n (max m k)) pins (.conditional p c y z)
        ⟨.choose ct.code yt.code (some zt.code), false⟩
  | binary {d n m : Nat} {pins : Pins} {p : Place} {o : Text} {op : Operator} {l r : Expr}
      {lt rt : Lowered} :
      sourceOperator? o = some op → Code A b d n l lt → Code A b d m r rt →
      PlainCode A b d (max n m) pins (.binary p o l r) ⟨.operation op lt.code rt.code, false⟩
  | not {d n : Nat} {pins : Pins} {p : Place} {e : Expr} {t : Lowered} :
      Code A b d n e t → PlainCode A b d n pins (.not p e) ⟨.negate t.code, false⟩
  | present {d n : Nat} {pins : Pins} {p : Place} {e : Expr} {t : Lowered} :
      Code A b d n e t → PlainCode A b d n pins (.present p e) ⟨.assertPresent t.code, false⟩
  | literal {d : Nat} {pins : Pins} {p : Place} {v : Primitive} :
      PlainCode A b d 0 pins (.literal p v) ⟨.ofValue v, false⟩
  | interpolation {d n : Nat} {pins : Pins} {p : Place} {texts : List Text} {es : List Expr}
      {ts : List Term} {t : Term} :
      texts.length = es.length + 1 → Codes A b d n es ts →
      A.interpolate (.ofNat es.length :: Expr.interpolationArgs texts ts) t →
      PlainCode A b d n pins (.interpolation p texts es) ⟨t, false⟩
  | builtin {d n : Nat} {pins : Pins} {p : Place} {kind : Builtin} {args : List Expr}
      {ts : List Term} {t : Term} :
      Codes A b d n args ts → A.builtin kind ts t →
      PlainCode A b d n pins (.builtin p kind args) ⟨t, false⟩

/-- The code of the receiver of a safe access: its temporary, or code that computes it again. -/
inductive ReceiverCode (A : Answers) (b : Text) : (d n : Nat) → Pins → Expr → Lowered → Prop
  | kept {d : Nat} {pins : Pins} {r : Expr} {t : Term} :
      pins[r.safeReceivers.length]? = some (some t) → ReceiverCode A b d 0 pins r ⟨t, false⟩
  | copied {d n : Nat} {pins : Pins} {r : Expr} {t : Lowered} :
      (∀ t, pins[r.safeReceivers.length]? ≠ some (some t)) → PlainCode A b d n pins r t →
      ReceiverCode A b d n pins r t

end

/-- There is code for each of several expressions. -/
theorem Codes.length_eq {A : Answers} {b : Text} {d : Nat} : ∀ {n : Nat} {es : List Expr}
    {ts : List Term}, Codes A b d n es ts → es.length = ts.length
  | _, _, _, .nil => rfl
  | _, _, _, .cons _ hts => by rw [List.length_cons, List.length_cons, hts.length_eq]

/-! ### What is the context -/

/-- Whether a name can stand for the context itself, so that there are receivers besides `this` whose
members may be locals. -/
def Aliased (A : Answers) : Prop := ∃ name, A.lookup name (some .context)

section Aliased

variable {A : Answers} {b : Text} {d n : Nat} {pins : Pins} {e : Expr} {m : Lowered}

theorem Resolves.isContext {c : Lowered} {name : Text} {found : Found}
    (h : A.Resolves c name (some found)) : c.isContext = true := by
  unfold Resolves at h
  split at h
  · next hc => exact hc
  · cases h

theorem Resolves.lookup {c : Lowered} {name : Text} {found : Found}
    (h : A.Resolves c name (some found)) : A.lookup name (some found) := by
  have hc := h.isContext
  unfold Resolves at h
  rwa [if_pos hc] at h

theorem aliased_of_memberCode {c : Lowered} {name : Text} {found : Option Found}
    (h : A.Resolves c name found) (hm : (A.memberCode c name found).isContext = true) : A.Aliased := by
  rcases found with _ | _ | t
  · cases hm
  · exact ⟨name, h.lookup⟩
  · cases hm

theorem isContext_of_memberCode {c : Lowered} {name : Text} {found : Option Found}
    (h : A.Resolves c name found) (hm : (A.memberCode c name found).isContext = true) :
    c.isContext = true := by
  cases found with
  | none => cases hm
  | some f => exact h.isContext

theorem PlainCode.isContext (h : PlainCode A b d n pins e m) (hm : m.isContext = true) :
    A.Aliased ∨ e.isContext = true := by
  cases h with
  | context => exact .inr rfl
  | read _ hfound => exact .inl (aliased_of_memberCode hfound hm)
  | safeRead _ hfound => exact .inl (aliased_of_memberCode hfound hm)
  | _ => cases hm

theorem ReceiverCode.isContext (h : ReceiverCode A b d n pins e m) (hm : m.isContext = true) :
    A.Aliased ∨ e.isContext = true := by
  cases h with
  | kept => cases hm
  | copied _ h => exact h.isContext hm

theorem Code.isContext (h : Code A b d n e m) (hm : m.isContext = true) :
    A.Aliased ∨ e.isContext = true := by
  obtain ⟨h⟩ := h
  generalize e.safeReceivers = rs at h
  cases h with
  | plain h => exact h.isContext hm
  | kept => cases hm
  | copied => cases hm

theorem code_memberCode {c : Lowered} {name : Text} {found : Option Found}
    (hm : (A.memberCode c name found).isContext = true) : (A.memberCode c name found).code = A.context := by
  rcases found with _ | _ | t
  · cases hm
  · rfl
  · cases hm

theorem PlainCode.code_eq_context (h : PlainCode A b d n pins e m) (hm : m.isContext = true) :
    m.code = A.context := by
  cases h with
  | context => rfl
  | read => exact code_memberCode hm
  | safeRead => exact code_memberCode hm
  | _ => cases hm

theorem ReceiverCode.code_eq_context (h : ReceiverCode A b d n pins e m) (hm : m.isContext = true) :
    m.code = A.context := by
  cases h with
  | kept => cases hm
  | copied _ h => exact h.code_eq_context hm

theorem Code.code_eq_context (h : Code A b d n e m) (hm : m.isContext = true) : m.code = A.context := by
  obtain ⟨h⟩ := h
  generalize e.safeReceivers = rs at h
  cases h with
  | plain h => exact h.code_eq_context hm
  | kept => cases hm
  | copied => cases hm

end Aliased

end Answers

end TemplateCompiler
