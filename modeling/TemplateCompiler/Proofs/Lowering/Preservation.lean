import Mathlib.Data.List.Forall2
import TemplateCompiler.Proofs.Lowering.Frame
import TemplateCompiler.Proofs.Lowering.Soundness
import TemplateCompiler.Proofs.Expr.Every

/-!
# Lowering preserves meaning

* `checked w r` : what the guard for the receiver `r` of a safe access finds out; the rest of the spine
  depends on nothing else (`exists_spine_eq_resume`);
* `Pinned … rs pins s` : the receivers `rs` were looked at and are not null, and the temporaries `pins`
  hold their values in `s`;
* `Refers … m s r` : code `m` refers to what an expression refers to, `r`: it is the context itself if
  that is;
* `refers_plain`, `yields_code` : what is true of derivable code;
* `propertyValue_lowerProperty` : the value of a lowered property is that of its expression.
-/

namespace TemplateCompiler

open TemporaryStack (nameOf)

/-- The answers in given surroundings, where builtins are written out. -/
def Ambient.answers (w : Ambient) (interpolate : List Term → Term → Prop) : Answers where
  context := w.context
  lookup name found := found = w.locals name
  builtin kind args t := t = kind.written args
  interpolate

/-- Whether surroundings have none of the binding's temporaries. -/
structure Ambient.Avoids (w : Ambient) (b : Text) : Prop where
  context : ∀ x ∈ w.context.variables, Unreserved b x
  locals : ∀ name t, w.locals name = some (.term t) → ∀ x ∈ t.variables, Unreserved b x

/-- Whether a node computes a value, with none of the binding's temporaries. -/
structure Expr.Avoids (b : Text) (e : Expr) : Prop where
  isPure : e.isPure = true
  function : ∀ f, e.function? = some f → Unreserved b f

namespace Interpretation

variable {V ε α β : Type} (I : Interpretation V ε) (w : Ambient)

/-- What the receiver of a safe access refers to, unless its value is null or it was cut short itself. -/
def checked (r : Expr) : Except ε (Option (Referent V)) := do
  match ← I.spine w r with
  | some x => if ← I.isNull (← I.value w x) then return none else return some x
  | none => return none

theorem unlessNull_eq (r : Expr) (next : Referent V → Except ε (Option (Referent V))) :
    I.unlessNull w (I.spine w r) next = after (I.checked w r) next := by
  unfold unlessNull after checked
  rcases I.spine w r with _ | _ | x
  · rfl
  · rfl
  · change I.value w x >>= _ = (I.value w x >>= _) >>= _
    rcases I.value w x with _ | v
    · rfl
    · change I.isNull v >>= _ = (I.isNull v >>= _) >>= _
      rcases I.isNull v with _ | _ | _ <;> rfl

theorem after_assoc (x : Except ε (Option (Referent V)))
    (k next : Referent V → Except ε (Option (Referent V))) :
    after (after x k) next = after x fun y => after (k y) next := by
  rcases x with _ | _ | y <;> rfl

theorem unlessNull_after (x : Except ε (Option (Referent V)))
    (k next : Referent V → Except ε (Option (Referent V))) :
    I.unlessNull w (after x k) next = after x fun y => I.unlessNull w (k y) next :=
  after_assoc x k _

/-- Each safe access of a spine cuts it short if its receiver is null. -/
theorem exists_spine_eq_after {r : Expr} : ∀ e : Expr, r ∈ e.safeReceivers →
    ∃ next, I.spine w e = after (I.checked w r) next
  | .read p r' name, h => by
    obtain ⟨next, hnext⟩ := exists_spine_eq_after r' h
    rw [spine, hnext]
    exact ⟨_, after_assoc _ _ _⟩
  | .index p o k, h => by
    obtain ⟨next, hnext⟩ := exists_spine_eq_after o h
    rw [spine, hnext]
    exact ⟨_, after_assoc _ _ _⟩
  | .method p r' name args, h => by
    obtain ⟨next, hnext⟩ := exists_spine_eq_after r' h
    have hr : r'.isContext ≠ true := fun hc => by
      rw [Expr.safeReceivers, Expr.safeReceivers_of_isContext hc] at h
      cases h
    rw [spine, Expr.isErasure, Bool.eq_false_iff.mpr hr, Bool.false_and, if_neg Bool.false_ne_true,
      hnext]
    exact ⟨_, after_assoc _ _ _⟩
  | .safeRead p r' name, h => by
    rw [spine]
    rcases List.mem_append.mp h with h | h
    · obtain ⟨next, hnext⟩ := exists_spine_eq_after r' h
      rw [hnext]
      exact ⟨_, I.unlessNull_after w _ _ _⟩
    · rw [List.mem_singleton.mp h]
      exact ⟨_, I.unlessNull_eq w r' _⟩
  | .safeMethod p r' name args, h => by
    rw [spine]
    rcases List.mem_append.mp h with h | h
    · obtain ⟨next, hnext⟩ := exists_spine_eq_after r' h
      rw [hnext]
      exact ⟨_, I.unlessNull_after w _ _ _⟩
    · rw [List.mem_singleton.mp h]
      exact ⟨_, I.unlessNull_eq w r' _⟩
  | .context .., h | .chain .., h | .conditional .., h | .write .., h | .indexWrite .., h | .call .., h
  | .binary .., h | .not .., h | .present .., h | .literal .., h | .array .., h | .map .., h
  | .interpolation .., h | .pipe .., h | .quote .., h | .builtin .., h => nomatch h

variable {I w} {b : Text} {d n : Nat}

theorem spine_of_checked {r : Expr} {x : Referent V} (h : I.checked w r = .ok (some x)) :
    I.spine w r = .ok (some x) := by
  unfold checked at h
  obtain ⟨o, ho, h⟩ := except_bind_ok.mp h
  cases o with
  | none => cases h
  | some y =>
      obtain ⟨v, _, h⟩ := except_bind_ok.mp h
      obtain ⟨isNull, _, h⟩ := except_bind_ok.mp h
      cases isNull with
      | true => cases h
      | false =>
          cases h
          exact ho

/-! ### Pinned receivers -/

/-- The receivers `rs` are not null, and those that `pins` has a temporary for are held in it. -/
structure Pinned (I : Interpretation V ε) (w : Ambient) (b : Text) (d : Nat) (rs : List Expr)
    (pins : Pins) (s : Store V) : Prop where
  passed : ∀ r ∈ rs, ∃ x, I.checked w r = .ok (some x)
  held : ∀ (i : Nat) (t : Term), pins[i]? = some (some t) → ∃ r x v k, rs[i]? = some r ∧
    I.checked w r = .ok (some (.reference x)) ∧ I.get x = .ok v ∧ k < d ∧ t = .ofVar (nameOf b k) ∧
    s (nameOf b k) = some v

section Pinned

variable {rs : List Expr} {pins : Pins} {s s' : Store V} {r : Expr} {x : Referent V}

theorem pinned_nil : Pinned I w b d [] [] s := by
  refine ⟨fun r hr => ?_, fun i t ht => ?_⟩
  · cases hr
  · cases ht

theorem Pinned.keeps (h : Pinned I w b d rs pins s) (hs : Keeps b d s s') :
    Pinned I w b d rs pins s' := by
  refine ⟨h.passed, fun i t ht => ?_⟩
  obtain ⟨r, x, v, k, hr, hx, hv, hk, heq, hval⟩ := h.held i t ht
  exact ⟨r, x, v, k, hr, hx, hv, hk, heq, (hs.live k hk).trans hval⟩

/-- One more receiver was looked at, and `pin` holds it. -/
theorem Pinned.append (h : Pinned I w b d rs pins s) (hlength : pins.length = rs.length)
    (hr : I.checked w r = .ok (some x)) {pin : Option Term} {d' : Nat} (hd : d ≤ d')
    (hpin : ∀ t, pin = some t → ∃ y v, x = .reference y ∧ I.get y = .ok v ∧
      ∃ k < d', t = .ofVar (nameOf b k) ∧ s (nameOf b k) = some v) :
    Pinned I w b d' (rs ++ [r]) (pins ++ [pin]) s := by
  refine ⟨fun r' hr' => ?_, fun i t ht => ?_⟩
  · rcases List.mem_append.mp hr' with hr' | hr'
    · exact h.passed r' hr'
    · rw [List.mem_singleton.mp hr']
      exact ⟨x, hr⟩
  · by_cases hi : i < pins.length
    · rw [List.getElem?_append_left hi] at ht
      rw [List.getElem?_append_left (by omega)]
      obtain ⟨r', x', v', k, hr', hx', hv', hk, heq, hval⟩ := h.held i t ht
      exact ⟨r', x', v', k, hr', hx', hv', by omega, heq, hval⟩
    · have hilt : i < (pins ++ [pin]).length := (List.getElem?_eq_some_iff.mp ht).1
      rw [List.length_append, List.length_singleton] at hilt
      have hi : i = pins.length := by omega
      rw [hi, List.getElem?_concat_length] at ht
      obtain ⟨y, v, rfl, hv, k, hk, heq, hval⟩ := hpin t (Option.some.inj ht)
      rw [hi, hlength, List.getElem?_concat_length]
      exact ⟨r, y, v, k, rfl, hr, hv, hk, heq, hval⟩

end Pinned

/-! ### Derivable code -/

/-- Code refers to what an expression refers to. It is the context itself exactly if that is. -/
inductive Refers (I : Interpretation V ε) (w : Ambient) (b : Text) (d : Nat) (s : Store V) :
    Lowered → Except ε (Referent V) → Prop
  | context : Refers I w b d s ⟨w.context, true⟩ (.ok .context)
  | code {t : Term} {r : Except ε (Reference V)} :
      Yields b d (I.run t) s r → Refers I w b d s ⟨t, false⟩ (r.map .reference)

theorem ending_eq (r : Except ε V) :
    ending r = ((r >>= fun v => pure (.value v)).map .reference).map some := by
  cases r <;> rfl

theorem bind_pure_some (x : Except ε α) : (x >>= fun a => pure (some a)) = x.map some := by
  cases x <;> rfl

theorem after_map_some (r : Except ε (Referent V)) (next : Referent V → Except ε (Referent V)) :
    after (r.map some) (fun x => (next x).map some) = (r >>= next).map some := by
  cases r <;> rfl

theorem settled_bind_get (unguarded : Bool) (x : Except ε (Option (Referent V))) :
    I.settled w unguarded x >>= I.get = I.valueOf w x := by
  rcases x with _ | _ | y
  · rfl
  · rfl
  · cases unguarded with
    | true => rfl
    | false =>
        change (I.value w y >>= _) >>= _ = I.value w y
        cases I.value w y <;> rfl

section Refers

variable {s : Store V} {m : Lowered} {r : Except ε (Referent V)}

theorem Refers.yields (h : Refers I w b d s m r) (hw : w.Avoids b) (hs : Ready b n s) :
    Yields b d (I.run m.code) s (r >>= I.referred w) := by
  cases h with
  | context => exact yields_constant hw.context hs
  | @code t x hx =>
      have heq : (x.map .reference : Except ε (Referent V)) >>= I.referred w = x := by
        cases x <;> rfl
      rw [heq]
      exact hx

theorem Refers.evals (h : Refers I w b d s m r) (hw : w.Avoids b) (hs : Ready b n s) :
    Yields b d (I.eval m.code) s (r >>= I.value w) := by
  have := yields_eval (h.yields hw hs)
  rw [bind_assoc] at this
  exact this

theorem after_ending (x : Except ε (Referent V)) (k : Referent V → Except ε V) :
    after (x.map some) (fun y => ending (k y)) = ending (x >>= k) := by
  cases x <;> rfl

theorem after_ok (x : Referent V) (next : Referent V → Except ε (Option (Referent V))) :
    after (.ok (some x)) next = next x := rfl

/-- Code for a value at the end of a spine. -/
theorem refers_ending {t : Term} {v : Except ε V}
    (h : Yields b d (I.run t) s (v >>= fun v => pure (.value v))) :
    ∃ r, ending v = r.map some ∧ Refers I w b d s ⟨t, false⟩ r :=
  ⟨_, ending_eq v, .code h⟩

end Refers

section Derivable

variable {J : List Term → Term → Prop}

section Steps

variable {s : Store V} {c t : Term} {ts : List Term} {name : Text} {r : Except ε V}
  {rs : Except ε (List V)}

theorem refers_local {found : Found} (hw : w.Avoids b) (hfound : w.locals name = some found)
    (hs : Ready b n s) : Refers I w b d s (found.made w.context) (I.localReferent found) := by
  cases found with
  | context => exact .context
  | term t =>
      have heq : I.localReferent (.term t) = (I.constant t).map .reference := by
        change (I.constant t >>= _) = _
        cases I.constant t <;> rfl
      rw [heq]
      exact .code (yields_constant (hw.locals name t hfound) hs)

/-- A call of the code `t`. -/
theorem yields_apply {f : Except ε (Reference V)} (ht : Yields b d (I.run t) s f)
    (hts : ∀ s', Keeps b d s s' → Yields b d (I.runAll ts) s' rs) :
    Yields b d (I.run (.apply t ts)) s
      ((do let f ← f; I.invoke f (← rs)) >>= fun v => pure (.value v)) := by
  rw [run_apply, bind_assoc]
  refine yields_bind ht fun x s' hk => ?_
  rw [bind_assoc]
  refine yields_bind (hts s' hk) fun vs s'' hk' => ?_
  exact yields_lift_bind fun _ _ => yields_pure

/-- A call of a method of the code `c`. -/
theorem yields_applyMethod (hc : Yields b d (I.eval c) s r)
    (hts : ∀ s', Keeps b d s s' → Yields b d (I.runAll ts) s' rs) :
    Yields b d (I.run (.applyMethod c name ts)) s
      (r >>= fun v => (do I.method v name (← rs)) >>= fun u => pure (.value u)) := by
  rw [run_applyMethod]
  refine yields_bind hc fun v s' hk => ?_
  rw [bind_assoc]
  refine yields_bind (hts s' hk) fun vs s'' hk' => ?_
  exact yields_lift_bind fun _ _ => yields_pure

end Steps

/-! ### Members -/

section Members

variable {s : Store V} {c : Lowered} {ts : List Term} {name : Text} {found : Option Found}
  {r : Except ε (Referent V)} {rs : Except ε (List V)}

/-- What a member is found to stand for is the local of the receiver that it is read from. -/
theorem Refers.local? (h : Refers I w b d s c r) (hfound : (w.answers J).Resolves c name found)
    {x : Referent V} (hx : r = .ok x) : w.local? x name = found := by
  cases h with
  | context =>
      cases hx
      exact hfound.symm
  | @code t y _ =>
      cases y with
      | error z => cases hx
      | ok y =>
          cases hx
          exact hfound.symm

/-- A name is found to stand for something only on the context itself. -/
theorem Refers.context_of_some (h : Refers I w b d s c r) {f : Found}
    (hfound : (w.answers J).Resolves c name (some f)) :
    r = .ok .context ∧ w.locals name = some f := by
  cases h with
  | context => exact ⟨rfl, hfound.symm⟩
  | code => cases hfound

theorem refers_member (hw : w.Avoids b) (hs : Ready b n s) (h : Refers I w b d s c r)
    (hfound : (w.answers J).Resolves c name found) :
    Refers I w b d s ((w.answers J).memberCode c name found) (r >>= fun x => I.member w x name) := by
  cases found with
  | some f =>
      obtain ⟨rfl, hlocal⟩ := h.context_of_some hfound
      have heq : I.member w .context name = I.localReferent f := by
        rw [member, Ambient.local?, hlocal]
      rw [except_bind, heq]
      exact refers_local hw hlocal hs
  | none =>
      have heq : (r >>= fun x => I.member w x name) =
          ((r >>= I.value w) >>= fun v => pure (.member v name)).map .reference := by
        cases r with
        | error z => rfl
        | ok x =>
            rw [except_bind, except_bind, member, h.local? hfound rfl]
            dsimp only
            cases I.value w x <;> rfl
      rw [heq]
      refine .code ?_
      rw [run_prop]
      exact yields_map (h.evals hw hs)

theorem yields_invocationCode (hw : w.Avoids b) (hs : Ready b n s) (h : Refers I w b d s c r)
    (hfound : (w.answers J).Resolves c name found)
    (hts : ∀ s', Keeps b d s s' → Yields b d (I.runAll ts) s' rs) :
    Yields b d (I.run ((w.answers J).invocationCode c name ts found)) s
      ((r >>= fun x => I.callMember w x name rs) >>= fun v => pure (.value v)) := by
  cases found with
  | some f =>
      obtain ⟨rfl, hlocal⟩ := h.context_of_some hfound
      have hlocal' : w.local? (V := V) .context name = some f := hlocal
      rw [except_bind, callMember, hlocal']
      exact yields_apply ((refers_local hw hlocal hs).yields hw hs) hts
  | none =>
      have heq : (r >>= fun x => I.callMember w x name rs) >>= (fun v => pure (Reference.value v)) =
          ((r >>= I.value w) >>= fun v => (do I.method v name (← rs)) >>= fun u => pure (.value u)) := by
        cases r with
        | error z => rfl
        | ok x =>
            rw [except_bind, except_bind, callMember, h.local? hfound rfl]
            dsimp only
            rw [bind_assoc]
      rw [heq]
      exact yields_applyMethod (h.evals hw hs) hts

/-- A receiver with the same value, which is not the context either, has the same members. -/
theorem member_congr {x y : Reference V} (h : I.get x = I.get y) (name : Text) :
    I.member w (.reference x) name = I.member w (.reference y) name := by
  change (I.get x >>= _) = (I.get y >>= _)
  rw [h]

theorem callMember_congr {x y : Reference V} (h : I.get x = I.get y) (name : Text)
    (rs : Except ε (List V)) :
    I.callMember w (.reference x) name rs = I.callMember w (.reference y) name rs := by
  change (I.get x >>= _) = (I.get y >>= _)
  rw [h]

end Members

/-! ### Guards -/

theorem settled_false (x : Except ε (Option (Referent V))) :
    I.settled w false x = I.valueOf w x >>= fun v => pure (.value v) := by
  rcases x with _ | _ | y
  · rfl
  · rfl
  · change I.value w y >>= _ = (I.value w y >>= _)
    cases I.value w y <;> rfl

/-- A guard for the receiver `r` of a safe access of `e`. -/
theorem yields_guardCode {e r : Expr} (hr : r ∈ e.safeReceivers) {x : Except ε (Referent V)}
    (hx : I.spine w r = x.map some) {g t : Term} {s : Store V}
    (hg : Yields b d (I.eval g) s (x >>= I.value w))
    (ht : ∀ y v s', (I.eval g).run s = .ok (v, s') → x = .ok y → I.value w y = .ok v →
      I.checked w r = .ok (some y) → Yields b d (I.eval t) s' (I.meaning w e)) :
    Yields b d (I.run (Answers.guardCode g t)) s (I.settled w false (I.spine w e)) := by
  obtain ⟨next, hnext⟩ := I.exists_spine_eq_after w e hr
  have hchecked : I.checked w r = x >>= fun y => I.value w y >>= fun v =>
      I.isNull v >>= fun isNull => if isNull then pure none else pure (some y) := by
    unfold checked
    rw [hx]
    cases x <;> rfl
  have hspine : I.settled w false (I.spine w e) = x >>= fun y => I.value w y >>= fun v =>
      I.isNull v >>= fun isNull =>
        if isNull then pure (.value I.null) else I.valueOf w (next y) >>= fun u => pure (.value u) := by
    rw [settled_false, hnext, hchecked]
    rcases x with _ | y
    · rfl
    · change I.valueOf w (after (I.value w y >>= _) next) >>= _ = I.value w y >>= _
      rcases I.value w y with _ | v
      · rfl
      · change I.valueOf w (after (I.isNull v >>= _) next) >>= _ = I.isNull v >>= _
        rcases I.isNull v with _ | _ | _ <;> rfl
  rw [run_guardCode, hspine]
  rcases x with z | y
  · change Yields b d _ s ((.error z : Except ε V) >>= fun _ => .error z)
    exact yields_bind_run hg fun _ _ _ hv => nomatch hv
  · refine yields_bind_run hg fun v s' hrun hv => yields_lift_bind fun isNull hnull => ?_
    cases isNull with
    | true => exact yields_pure
    | false =>
        have hv : I.value w y = .ok v := hv
        have hpassed : I.checked w r = .ok (some y) := by
          rw [hchecked, except_bind, hv, except_bind, hnull]
          rfl
        have hmeaning : I.meaning w e = I.valueOf w (next y) := by
          rw [meaning, hnext, hpassed]
          rfl
        have := ht y v s' hrun rfl hv hpassed
        rw [hmeaning] at this
        exact yields_map this

/-- A guard that is kept in the next variable. -/
theorem yields_set {c : Term} {s : Store V} {r : Except ε V} (hc : Yields b d (I.eval c) s r)
    (hs : Ready b (d + 1) s) :
    Yields b d (I.eval (.set (.ofVar (nameOf b d)) c)) s r ∧
      ∀ v s', (I.eval (.set (.ofVar (nameOf b d)) c)).run s = .ok (v, s') →
        s' (nameOf b d) = some v := by
  have hstart : (I.eval (.set (.ofVar (nameOf b d)) c)).run s = (I.eval c).run s >>= fun x =>
      (I.assign (nameOf b d) x.1 >>= fun _ => pure x.1).run x.2 := by
    rw [eval_set_ofVar, StateT.run_bind]
  unfold Yields at hc ⊢
  rcases hrun : (I.eval c).run s with x | ⟨v, s'⟩
  · rw [hrun] at hc hstart
    rw [hstart]
    exact ⟨hc, fun v s' h => nomatch h⟩
  · rw [hrun] at hc hstart
    obtain ⟨hassign, hkeeps⟩ := yields_assign (I := I) (hs.keeps hc.2) v
    have hend : (I.eval (.set (.ofVar (nameOf b d)) c)).run s =
        .ok (v, fun x => if x = nameOf b d then some v else s' x) := by
      rw [hstart, except_bind, StateT.run_bind, hassign]
      rfl
    rw [hend]
    refine ⟨⟨hc.1, hc.2.trans hkeeps⟩, fun u t h => ?_⟩
    cases h
    exact if_pos rfl

/-! ### Codes -/

/-- Code that, from every store that is ready for it, has the value of an expression. -/
def Computes (I : Interpretation V ε) (w : Ambient) (b : Text) (d n : Nat) (e : Expr) (t : Term) :
    Prop :=
  ∀ s : Store V, Ready b n s → Yields b d (I.eval t) s (I.meaning w e)

theorem Computes.mono {e : Expr} {t : Term} {m : Nat} (h : Computes I w b d n e t) (hn : n ≤ m) :
    Computes I w b d m e t :=
  fun s hs => h s (hs.mono hn)

theorem yields_runAll {es : List Expr} {ts : List Term}
    (h : List.Forall₂ (Computes I w b d n) es ts) {s : Store V} (hs : Ready b n s) :
    Yields b d (I.runAll ts) s (I.values w es) := by
  induction h generalizing s with
  | nil =>
      rw [runAll, values]
      exact yields_pure
  | cons he hes ih =>
      rw [runAll_cons, values]
      exact yields_bind (he s hs) fun v s' hk => yields_map (ih (hs.keeps hk))

theorem yields_runEntries {es : List Expr} {ts : List Term}
    (h : List.Forall₂ (Computes I w b d n) es ts) (keys : List MapKey) {s : Store V}
    (hs : Ready b n s) : Yields b d (I.runEntries (keys.zip ts)) s (I.entries w keys es) := by
  induction h generalizing s keys with
  | nil =>
      rw [List.zip_nil_right, runEntries]
      cases keys <;> exact yields_pure
  | cons he hes ih =>
      cases keys with
      | nil => exact yields_pure
      | cons k keys =>
          rw [List.zip_cons_cons, runEntries_cons, entries]
          exact yields_bind (he s hs) fun v s' hk => yields_map (ih keys (hs.keeps hk))

/-- The code of a builtin, written out. -/
theorem yields_written {kind : Builtin} {es : List Expr} {ts : List Term} {p : Place}
    (hkind : ∀ f, kind = .call f → Unreserved b f)
    (h : List.Forall₂ (Computes I w b d n) es ts) {s : Store V} (hs : Ready b n s) :
    ∃ r, I.spine w (.builtin p kind es) = r.map some ∧
      Refers I w b d s ⟨kind.written ts, false⟩ r := by
  have hall := yields_runAll h hs
  cases kind with
  | array =>
      rw [spine]
      refine refers_ending ?_
      rw [Builtin.written, Term.ofList, run, bind_assoc]
      exact yields_bind hall fun vs s' _ => yields_pure
  | map keys =>
      rw [spine]
      refine refers_ending ?_
      rw [Builtin.written, Term.ofEntries, run, bind_assoc]
      exact yields_bind (yields_runEntries h keys hs) fun vs s' _ => yields_pure
  | pipe slot offset =>
      rw [spine]
      refine refers_ending ?_
      rw [Builtin.written, Term.ofList, run, runAll_cons, runAll_cons, Term.ofNat, Term.ofNat,
        eval_ofValue, eval_ofValue]
      simp only [pure_bind, bind_assoc]
      exact yields_bind hall fun vs s' _ => yields_pure
  | call f =>
      have hf : ∀ x ∈ (Term.ofVar f).variables, Unreserved b x := by
        intro x hx
        rw [List.mem_singleton.mp hx]
        exact hkind f rfl
      have hconstant : I.constant (.ofVar f) = I.var f >>= fun v => pure (.value v) := by
        unfold constant Term.ofVar
        rw [run]
        change Prod.fst <$> ((I.var f).map (·, fun _ => none) >>= fun x =>
          (pure (Reference.value x.1) : StateT (Store V) (Except ε) (Reference V)).run x.2) = _
        cases I.var f <;> rfl
      have happly := yields_apply (yields_constant (I := I) (d := d) hf hs) fun s' hk =>
        yields_runAll h (hs.keeps hk)
      rw [hconstant] at happly
      rw [spine]
      refine refers_ending ?_
      simp only [bind_assoc, pure_bind] at happly ⊢
      exact happly

theorem computes_of_yields {e : Expr} {t : Term} {u : Bool}
    (h : ∀ s : Store V, Ready b n s → Yields b d (I.run t) s (I.settled w u (I.spine w e))) :
    Computes I w b d n e t := by
  intro s hs
  rw [meaning, ← settled_bind_get u]
  exact yields_eval (h s hs)

theorem refers_erased {a : Expr} {t : Term} {s : Store V} (h : Computes I w b d n a t)
    (hs : Ready b n s) :
    ∃ r, ending (do return (← I.values w [a]).headD I.null) = r.map some ∧
      Refers I w b d s ⟨.erased t, false⟩ r := by
  have hvalue : (do return (← I.values w [a]).headD I.null) = I.meaning w a := by
    rw [values, values, meaning]
    cases I.valueOf w (I.spine w a) <;> rfl
  rw [hvalue]
  refine refers_ending ?_
  rw [run_erased]
  exact yields_map (h s hs)

/-! ### The induction over derivations -/

open Answers (Code Codes GuardedCode PlainCode ReceiverCode)

theorem isContext_of_needsTemporary {A : Answers} {pins : Pins} {e : Expr} {m : Lowered}
    (h : PlainCode A b d n pins e m) (he : e.needsTemporary = true) : m.isContext = false := by
  cases h with
  | context => cases he
  | read => cases he
  | safeRead => cases he
  | _ => rfl

theorem Refers.eq_reference {s : Store V} {m : Lowered} {y : Referent V}
    (h : Refers I w b d s m (.ok y)) (hm : m.isContext = false) : ∃ x, y = .reference x := by
  generalize hr : (.ok y : Except ε (Referent V)) = r at h
  cases h with
  | context => cases hm
  | @code t x _ =>
      cases x with
      | error z => cases hr
      | ok x =>
          cases hr
          exact ⟨x, rfl⟩

mutual

theorem yields_code (hw : w.Avoids b) : ∀ {d n : Nat} {e : Expr} {m : Lowered},
    Code (w.answers J) b d n e m → e.Every (Expr.Avoids b) → ∀ s : Store V, Ready b n s →
    Yields b d (I.run m.code) s (I.settled w e.safeReceivers.isEmpty (I.spine w e))
  | _, _, _, _, .spine h, he, _, hs => yields_guarded hw h he (List.nil_append _) rfl pinned_nil hs

theorem computes_codes (hw : w.Avoids b) : ∀ {d n : Nat} {es : List Expr} {ts : List Term},
    Codes (w.answers J) b d n es ts → Expr.EveryAll (Expr.Avoids b) es →
    List.Forall₂ (Computes I w b d n) es ts
  | _, _, _, _, .nil, _ => .nil
  | _, _, _, _, .cons (n := n) (m := m) ht hts, he => by
    rw [Expr.EveryAll] at he
    refine .cons ((computes_of_yields (yields_code hw ht he.1)).mono (Nat.le_max_left n m)) ?_
    exact (computes_codes hw hts he.2).imp fun e t h => h.mono (Nat.le_max_right n m)

theorem yields_guarded (hw : w.Avoids b) : ∀ {d n : Nat} {pins : Pins} {rs' : List Expr} {e : Expr}
    {m : Lowered}, GuardedCode (w.answers J) b d n pins rs' e m → e.Every (Expr.Avoids b) →
    ∀ {rs : List Expr} {s : Store V}, rs ++ rs' = e.safeReceivers → pins.length = rs.length →
    Pinned I w b d rs pins s → Ready b n s →
    Yields b d (I.run m.code) s (I.settled w rs'.isEmpty (I.spine w e))
  | _, _, _, _, e, _, .plain h, he, rs, s, hrs, hlength, hpins, hs => by
    rw [List.append_nil] at hrs
    obtain ⟨x, hx, hy⟩ := refers_plain hw h he (hrs ▸ List.prefix_rfl) hpins hs
    have := hy.yields hw hs
    rw [hx]
    cases x <;> exact this
  | _, _, _, _, _, _, @GuardedCode.kept _ _ d n m pins r e rs' c t hkept hc ht, he, rs, s, hrs,
      hlength, hpins, hs => by
    have hmem : r ∈ e.safeReceivers := by
      rw [← hrs]
      exact List.mem_append_right rs List.mem_cons_self
    have hr := Expr.safeReceivers_of_append hrs
    obtain ⟨x, hx, hy⟩ := refers_plain hw hc (he.safeReceivers r hmem) (hr ▸ List.prefix_rfl)
      hpins hs.left
    obtain ⟨hset, hheld⟩ := yields_set (hy.evals hw hs.left) hs.right.left
    refine yields_guardCode hmem hx hset fun y v s' hrun hxy hv hpassed => ?_
    have hkeeps := hset.keeps hrun
    have hpins' : Pinned I w b (d + 1) (rs ++ [r]) (pins ++ [some (.ofVar (nameOf b d))]) s' := by
      refine (hpins.keeps hkeeps).append hlength hpassed (Nat.le_succ d) fun t ht => ?_
      obtain ⟨z, rfl⟩ := (hxy ▸ hy).eq_reference (isContext_of_needsTemporary hc hkept)
      exact ⟨z, v, rfl, hv, d, Nat.lt_succ_self d, (Option.some.inj ht).symm, hheld v s' hrun⟩
    have ih := yields_guarded hw ht he (by rw [List.append_assoc]; exact hrs)
      (by rw [List.length_append, List.length_append, hlength]; rfl) hpins'
      (hs.right.right.keeps hkeeps)
    refine yields_mono (Nat.le_succ d) ?_
    rw [meaning, ← settled_bind_get]
    exact yields_eval ih
  | _, _, _, _, _, _, @GuardedCode.copied _ _ d n m pins r e rs' c t _ hc ht, he, rs, s, hrs,
      hlength, hpins, hs => by
    have hmem : r ∈ e.safeReceivers := by
      rw [← hrs]
      exact List.mem_append_right rs List.mem_cons_self
    have hr := Expr.safeReceivers_of_append hrs
    obtain ⟨x, hx, hy⟩ := refers_plain hw hc (he.safeReceivers r hmem) (hr ▸ List.prefix_rfl)
      hpins hs.left
    have hguard := hy.evals hw hs.left
    refine yields_guardCode hmem hx hguard fun y v s' hrun _ _ hpassed => ?_
    have hkeeps := hguard.keeps hrun
    have hpins' : Pinned I w b d (rs ++ [r]) (pins ++ [none]) s' :=
      (hpins.keeps hkeeps).append hlength hpassed (Nat.le_refl d) fun t ht => nomatch ht
    have ih := yields_guarded hw ht he (by rw [List.append_assoc]; exact hrs)
      (by rw [List.length_append, List.length_append, hlength]; rfl) hpins'
      (hs.right.keeps hkeeps)
    rw [meaning, ← settled_bind_get]
    exact yields_eval ih

theorem refers_plain (hw : w.Avoids b) : ∀ {d n : Nat} {pins : Pins} {e : Expr} {m : Lowered},
    PlainCode (w.answers J) b d n pins e m → e.Every (Expr.Avoids b) →
    ∀ {rs : List Expr} {s : Store V}, e.safeReceivers <+: rs → Pinned I w b d rs pins s →
    Ready b n s → ∃ r, I.spine w e = r.map some ∧ Refers I w b d s m r
  | _, _, _, _, _, .context, he, rs, s, hrs, hpins, hs => ⟨.ok .context, by rw [spine]; rfl, .context⟩
  | _, _, _, _, _, @PlainCode.read _ _ _ _ _ _ r name c found hc hfound, he, rs, s, hrs, hpins,
      hs => by
    rw [Expr.Every] at he
    obtain ⟨x, hx, hy⟩ := refers_plain hw hc he.2 hrs hpins hs
    refine ⟨_, ?_, refers_member hw hs hy hfound⟩
    rw [spine, hx]
    simp only [bind_pure_some]
    rw [after_map_some]
  | _, _, _, _, _, @PlainCode.safeRead _ _ _ _ _ _ r name c found hc hfound, he, rs, s, hrs,
      hpins, hs => by
    rw [Expr.Every] at he
    obtain ⟨x, y, hx, hy, hmember, -⟩ := refers_receiver hw hc he.2 hrs hpins hs
    refine ⟨_, ?_, refers_member hw hs hy hfound⟩
    rw [spine, unlessNull_eq, hx, after_ok, bind_pure_some, except_bind, hmember]
  | _, _, _, _, _, .index hc hk, he, rs, s, hrs, hpins, hs => by
    rw [Expr.Every] at he
    obtain ⟨x, hx, hy⟩ := refers_plain hw hc he.2.1 hrs hpins hs.left
    have hkey := computes_of_yields (yields_code hw hk he.2.2)
    rw [spine, hx, after_ending]
    refine refers_ending ?_
    rw [run_key]
    simp only [bind_assoc]
    rw [← bind_assoc]
    refine yields_bind (hy.evals hw hs.left) fun v s' hkeeps => ?_
    refine yields_bind (hkey s' (hs.right.keeps hkeeps)) fun u s'' _ => ?_
    exact yields_lift_bind fun _ _ => yields_pure
  | _, _, _, _, _, .erased hname hargs, he, rs, s, hrs, hpins, hs => by
    rw [Expr.Every] at he
    cases computes_codes hw hargs he.2.2 with
    | cons ha hnil =>
        cases hnil
        rw [spine, if_pos hname]
        exact refers_erased ha hs
  | _, _, _, _, _, @PlainCode.method _ _ _ _ _ _ _ r name args c ts found hname hargs hc hfound,
      he, rs, s, hrs, hpins, hs => by
    rw [Expr.Every] at he
    obtain ⟨x, hx, hy⟩ := refers_plain hw hc he.2.1 hrs hpins hs.right
    have hcodes := computes_codes hw hargs he.2.2
    rw [spine, hname, if_neg Bool.false_ne_true, hx, after_ending]
    refine refers_ending (yields_invocationCode hw hs.right hy hfound fun s' hk => ?_)
    exact yields_runAll hcodes (hs.left.keeps hk)
  | _, _, _, _, _, .safeErased hname hargs, he, rs, s, hrs, hpins, hs => by
    rw [Expr.Every] at he
    cases computes_codes hw hargs he.2.2 with
    | cons ha hnil =>
        cases hnil
        obtain ⟨x, hx⟩ := hpins.passed _ (hrs.subset (List.mem_append_right _ List.mem_cons_self))
        rw [spine, unlessNull_eq, hx, after_ok, if_pos hname]
        exact refers_erased ha hs
  | _, _, _, _, _, @PlainCode.safeMethod _ _ _ _ _ _ _ r name args c ts found hname hargs hc
      hfound, he, rs, s, hrs, hpins, hs => by
    rw [Expr.Every] at he
    obtain ⟨x, y, hx, hy, -, hcall⟩ := refers_receiver hw hc he.2.1 hrs hpins hs.right
    have hcodes := computes_codes hw hargs he.2.2
    rw [spine, unlessNull_eq, hx, after_ok, hname, if_neg Bool.false_ne_true, hcall]
    refine refers_ending (yields_invocationCode hw hs.right hy hfound fun s' hk => ?_)
    exact yields_runAll hcodes (hs.left.keeps hk)
  | _, _, _, _, _, .call hargs hf, he, rs, s, hrs, hpins, hs => by
    rw [Expr.Every] at he
    rw [spine]
    refine refers_ending (yields_apply (yields_code hw hf he.2.1 s hs.right) fun s' hk => ?_)
    exact yields_runAll (computes_codes hw hargs he.2.2) (hs.left.keeps hk)
  | _, _, _, _, _, .conditional hc hy hz, he, rs, s, hrs, hpins, hs => by
    rw [Expr.Every] at he
    have hc := computes_of_yields (yields_code hw hc he.2.1)
    have hy := computes_of_yields (yields_code hw hy he.2.2.1)
    have hz := computes_of_yields (yields_code hw hz he.2.2.2)
    rw [spine]
    refine refers_ending ?_
    rw [run_choose, bind_assoc]
    refine yields_bind (hc s hs.left) fun v s' hk => ?_
    split
    · exact yields_map (hy s' (hs.right.left.keeps hk))
    · exact yields_map (hz s' (hs.right.right.keeps hk))
  | _, _, _, _, _, @PlainCode.binary _ _ _ _ _ _ _ o op l r lt rt hop hl hr, he, rs, s, hrs,
      hpins, hs => by
    rw [Expr.Every] at he
    have hl := computes_of_yields (yields_code hw hl he.2.1)
    have hr := computes_of_yields (yields_code hw hr he.2.2)
    rw [spine, hop]
    refine refers_ending ?_
    rw [run_operation I (sourceOperator?_ne_assign hop), bind_assoc]
    refine yields_bind (hl s hs.left) fun v s' hk => ?_
    unfold combine
    cases I.decided op v with
    | some u => exact yields_pure
    | none =>
        dsimp only
        rw [bind_assoc]
        refine yields_bind (hr s' (hs.right.keeps hk)) fun u s'' _ => ?_
        exact yields_lift_bind fun _ _ => yields_pure
  | _, _, _, _, _, .not ht, he, rs, s, hrs, hpins, hs => by
    rw [Expr.Every] at he
    have ht := computes_of_yields (yields_code hw ht he.2)
    rw [spine]
    refine refers_ending ?_
    rw [run_negate, bind_assoc]
    exact yields_bind (ht s hs) fun v s' _ => yields_lift_bind fun _ _ => yields_pure
  | _, _, _, _, _, .present ht, he, rs, s, hrs, hpins, hs => by
    rw [Expr.Every] at he
    have ht := computes_of_yields (yields_code hw ht he.2)
    rw [spine]
    refine refers_ending ?_
    rw [run_assertPresent, bind_assoc]
    exact yields_bind (ht s hs) fun v s' _ => yields_lift_bind fun _ _ => yields_pure
  | _, _, _, _, _, .literal, he, rs, s, hrs, hpins, hs => by
    rw [spine, Term.ofValue]
    refine refers_ending ?_
    rw [run]
    exact yields_pure
  | _, _, _, _, _, .builtin hargs ht, he, rs, s, hrs, hpins, hs => by
    rw [Expr.Every] at he
    rw [ht]
    refine yields_written (fun f hf => ?_) (computes_codes hw hargs he.2) hs
    rw [hf] at he
    exact he.1.function f rfl
  | _, _, _, _, _, .write .., he, _, _, _, _, _ | _, _, _, _, _, .writeThrough .., he, _, _, _, _, _
  | _, _, _, _, _, .indexWrite .., he, _, _, _, _, _
  | _, _, _, _, _, .interpolation .., he, _, _, _, _, _ => by
    rw [Expr.Every] at he
    cases he.1.isPure

theorem refers_receiver (hw : w.Avoids b) : ∀ {d n : Nat} {pins : Pins} {r : Expr} {m : Lowered},
    ReceiverCode (w.answers J) b d n pins r m → r.Every (Expr.Avoids b) →
    ∀ {rs : List Expr} {s : Store V}, r.safeReceivers ++ [r] <+: rs → Pinned I w b d rs pins s →
    Ready b n s → ∃ x y, I.checked w r = .ok (some x) ∧ Refers I w b d s m (.ok y) ∧
      (∀ name, I.member w x name = I.member w y name) ∧
      ∀ name vs, I.callMember w x name vs = I.callMember w y name vs
  | _, _, _, r, _, .kept hpin, he, rs, s, hrs, hpins, hs => by
    obtain ⟨r', x, v, k, hr', hx, hv, hk, rfl, hval⟩ := hpins.held _ _ hpin
    have hr : rs[r.safeReceivers.length]? = some r := by
      obtain ⟨rest, rfl⟩ := hrs
      simp
    rw [hr] at hr'
    cases hr'
    refine ⟨.reference x, .reference (.value v), hx, ?_, ?_, ?_⟩
    · exact .code (yields_ofVar hval)
    · exact member_congr hv
    · exact callMember_congr hv
  | _, _, _, r, _, .copied hpin hc, he, rs, s, hrs, hpins, hs => by
    have hmem : r ∈ rs := hrs.subset (List.mem_append_right _ List.mem_cons_self)
    obtain ⟨x, hx⟩ := hpins.passed r hmem
    obtain ⟨y, hy, hrefers⟩ := refers_plain hw hc he ((List.prefix_append _ _).trans hrs) hpins hs
    refine ⟨x, x, hx, ?_, fun _ => rfl, fun _ _ => rfl⟩
    rw [spine_of_checked hx] at hy
    cases y with
    | error z => cases hy
    | ok y =>
        cases hy
        exact hrefers

end

end Derivable

/-! ### Written out collections mean the same -/

mutual

theorem spine_written : ∀ e : Expr, I.spine w e.written = I.spine w e
  | .read p r name => by
    change I.spine w (.read p r.written name) = _
    rw [spine, spine, spine_written r]
  | .safeRead p r name => by
    change I.spine w (.safeRead p r.written name) = _
    rw [spine, spine, spine_written r]
  | .index p o k => by
    change I.spine w (.index p o.written k.written) = _
    rw [spine, spine, spine_written o, spine_written k]
  | .method p r name args => by
    change I.spine w (.method p r.written name (Expr.writtenAll args)) = _
    rw [spine, spine, spine_written r, values_written args, Expr.isErasure_written]
  | .safeMethod p r name args => by
    change I.spine w (.safeMethod p r.written name (Expr.writtenAll args)) = _
    rw [spine, spine, spine_written r, values_written args, Expr.isErasure_written]
  | .call p f args => by
    change I.spine w (.call p f.written (Expr.writtenAll args)) = _
    rw [spine, spine, spine_written f, values_written args, Expr.safeReceivers_written,
      List.isEmpty_map]
  | .conditional p c y z => by
    change I.spine w (.conditional p c.written y.written z.written) = _
    rw [spine, spine, spine_written c, spine_written y, spine_written z]
  | .binary p o l r => by
    change I.spine w (.binary p o l.written r.written) = _
    rw [spine, spine, spine_written l, spine_written r]
  | .not p e => by
    change I.spine w (.not p e.written) = _
    rw [spine, spine, spine_written e]
  | .present p e => by
    change I.spine w (.present p e.written) = _
    rw [spine, spine, spine_written e]
  | .array p es => by
    change I.spine w (.builtin p .array (Expr.writtenAll es)) = _
    rw [spine, spine, values_written es]
  | .map p ks es => by
    change I.spine w (.builtin p (.map ks) (Expr.writtenAll es)) = _
    rw [spine, spine, entries_written ks es]
  | .builtin p kind es => by
    change I.spine w (.builtin p kind (Expr.writtenAll es)) = _
    cases kind with
    | map ks => rw [spine, spine, entries_written ks es]
    | array | pipe slot offset | call f => rw [spine, spine, values_written es]
  | .context .. | .literal .. | .quote .. | .chain .. | .interpolation .. | .pipe .. | .write ..
  | .indexWrite .. => rfl

theorem values_written : ∀ es : List Expr, I.values w (Expr.writtenAll es) = I.values w es
  | [] => rfl
  | e :: es => by
    change I.values w (e.written :: Expr.writtenAll es) = _
    rw [values, values, spine_written e, values_written es]

theorem entries_written : ∀ (ks : List MapKey) (es : List Expr),
    I.entries w ks (Expr.writtenAll es) = I.entries w ks es
  | [], es => by
    cases es <;> rfl
  | k :: ks, [] => rfl
  | k :: ks, e :: es => by
    change I.entries w (k :: ks) (e.written :: Expr.writtenAll es) = _
    rw [entries, entries, spine_written e, entries_written ks es]

end

/-! ### Properties -/

/-- Declarations come first, and declare their variables as null. -/
theorem exec_declare_append (names : List Text) (ss : List Stmt) (s : Store V) :
    ∃ s' : Store V, (∀ x, s' x = if x ∈ names then some I.null else s x) ∧
      (I.exec (names.map (.declare none {} · none) ++ ss)).run s = (I.exec ss).run s' := by
  induction names generalizing s with
  | nil => exact ⟨s, fun x => by simp, rfl⟩
  | cons name names ih =>
      obtain ⟨s', hs', hrun⟩ := ih fun x => if x = name then some I.null else s x
      refine ⟨s', fun x => ?_, ?_⟩
      · rw [hs']
        by_cases hx : x ∈ names <;> by_cases hn : x = name <;> simp [hx, hn]
      · rw [List.map_cons, List.cons_append, exec, StateT.run_bind]
        exact hrun

/-- The declarations of a stack make its variables ready. -/
theorem exec_declarations_append (stack : TemporaryStack) (ss : List Stmt) : ∃ s : Store V,
    Ready stack.binding stack.count s ∧
      (I.exec (stack.declarations ++ ss)).run (fun _ => none) = (I.exec ss).run s := by
  obtain ⟨s, hs, hrun⟩ := exec_declare_append (I := I)
    ((List.range stack.count).map (nameOf stack.binding)) ss fun _ => none
  refine ⟨s, ⟨fun k hk => ?_, fun x hx => ?_⟩, ?_⟩
  · rw [hs, if_pos (List.mem_map_of_mem (List.mem_range.mpr hk))]
    rfl
  · rw [hs, if_neg]
    intro hmem
    obtain ⟨k, _, rfl⟩ := List.mem_map.mp hmem
    exact hx k rfl
  · rw [List.map_map] at hrun
    exact hrun

/-- The value of a term from a store, without the store it leaves. -/
theorem Yields.run' {p : StateT (Store V) (Except ε) α} {s : Store V} {r : Except ε α}
    (h : Yields b d p s r) : p.run' s = r := by
  unfold Yields at h
  change Prod.fst <$> p.run s = r
  rcases hrun : p.run s with x | ⟨a, s'⟩
  · rw [hrun] at h
    rw [h]
    rfl
  · rw [hrun] at h
    rw [h.1]
    rfl

/-- A constant has the value it was declared with. -/
theorem run'_const (name : Text) {t : Term} {s : Store V} {r : Except ε V}
    (h : Yields b d (I.eval t) s r) :
    (do I.exec [.const name t]; I.eval (.ofVar name)).run' s = r := by
  have hstart : I.exec [.const name t] = do
      let v ← I.eval t
      declare name v
      return () := by
    rw [Stmt.const, exec, exec]
  unfold Yields at h
  rw [hstart, bind_assoc]
  change Prod.fst <$> ((I.eval t).run s >>= _) = r
  rcases hrun : (I.eval t).run s with x | ⟨v, s'⟩
  · rw [hrun] at h
    rw [h]
    rfl
  · rw [hrun] at h
    rw [h.1]
    have hdeclared : (if name = name then some v else s' name) = some v := if_pos rfl
    exact (yields_eval (yields_ofVar (I := I) (b := b) (d := d)
      (s := fun x => if x = name then some v else s' x) hdeclared)).run'

end Interpretation

section Property

variable {σ V ε : Type}

/-- A host with fixed locals, whose builtins are written out. -/
def Ambient.host (w : Ambient) (notify : StateM σ Unit)
    (interpolate : List Term → Except Failure Term) : Host σ where
  context := w.context
  lookup name := return w.locals name
  notify
  builtin kind args := .mk (pure (kind.write args))
  interpolate

/-- The host says the same in every state. -/
def Ambient.contract (w : Ambient) (notify : StateM σ Unit)
    (interpolate : List Term → Except Failure Term) : Contract (w.host notify interpolate) where
  holds _ := True
  later _ _ := True
  refl _ := trivial
  trans _ _ := trivial
  holds_later _ := trivial
  lookup _ name found := found = w.locals name
  builtin _ kind args t := t = kind.written args
  later_lookup _ _ := trivial
  lookup_later _ _ _ := rfl
  later_builtin _ _ _ := trivial
  builtin_later _ _ h _ := Builtin.eq_written_of_write (congrArg Prod.fst h)

/-- The value of a lowered property is that of its expression. -/
theorem propertyValue_eq_meaning (I : Interpretation V ε) {w : Ambient} {notify : StateM σ Unit}
    {interpolate : List Term → Except Failure Term} {e e' : Expr} {b : Text} {simple : Bool}
    {s s' : σ} {code : PropertyCode} (hw : w.Avoids b) (he : e.Every (Expr.Avoids b))
    (hreplace : e.replaceBuiltins BuiltinFactory.literal = .ok e')
    (hlower : outcome (lowerProperty (w.host notify interpolate) e' b simple) s = (.ok code, s')) :
    I.propertyValue code = I.meaning w e := by
  obtain ⟨t, stack, hbinding, hcode⟩ := lowerProperty_cases hlower
  have hmade := outcome_lowerBinding (makes_lower (C := w.contract notify interpolate) (b := b) e') (s := s) trivial
  rw [hbinding] at hmade
  obtain ⟨hb, -, s₁, -, -, hderived⟩ := hmade
  have he' : e'.Every (Expr.Avoids b) := by
    rw [Expr.eq_written_of_replaceBuiltins hreplace]
    exact he.written fun x y hx hpure _ hf _ => ⟨hpure ▸ hx.isPure, hf ▸ hx.function⟩
  obtain ⟨m, hm, rfl⟩ := hderived s₁ trivial
  have hcomputes : Interpretation.Computes I w b 0 stack.count e' m.code :=
    Interpretation.computes_of_yields (Interpretation.yields_code hw hm he')
  have hmeaning : I.meaning w e' = I.meaning w e := by
    rw [Expr.eq_written_of_replaceBuiltins hreplace, Interpretation.meaning,
      Interpretation.spine_written, Interpretation.meaning]
  rw [← hmeaning]
  rcases hcode with ⟨hcount, rfl⟩ | rfl
  · rw [hcount] at hcomputes
    exact (hcomputes _ ⟨fun k hk => absurd hk (Nat.not_lt_zero k), fun _ _ => rfl⟩).run'
  · obtain ⟨s₂, hready, hrun⟩ :=
      Interpretation.exec_declarations_append (I := I) stack [.const ("currVal_" ++ b) m.code]
    rw [hb] at hready
    rw [← Interpretation.run'_const ("currVal_" ++ b) (hcomputes s₂ hready)]
    unfold Interpretation.propertyValue
    change Prod.fst <$> ((I.exec _).run _ >>= _) = Prod.fst <$> ((I.exec _).run _ >>= _)
    rw [hrun]

end Property

/-! ### A sample -/

namespace Sample

def total : List Nat → Nat
  | [] => 0
  | v :: vs => v + total vs

/-- Numbers as values: null is zero, which has no members, and all else adds up. -/
def sums : Interpretation Nat Text where
  var x := .ok x.length
  literal v := if v = .null then 0 else 1
  array vs := 1 + total vs
  map es := 1 + total (es.map Prod.snd)
  symbol _ := .ok 1
  read v name := if v = 0 then .error name else .ok (v + name.length)
  key v k := if v = 0 then .error "[]" else .ok (v + k)
  method v name vs := if v = 0 then .error name else .ok (v - name.length + total vs)
  call f vs := if f = 0 then .error "()" else .ok (f + total vs)
  isTrue v := v != 0
  decided op v := if op = .and ∧ v = 0 then some 0 else none
  operate op v u := .ok (if op = .equals then (if v = u then 1 else 0) else v + u)
  negate v := .ok (1 - v)
  present v := .ok v
  stuck := "stuck"

/-- The context `ctx`, with a local `self` for itself and a local `item`. -/
def ambient : Ambient where
  context := .ofVar "ctx"
  locals name :=
    if name = "self" then some .context
    else if name = "item" then some (.term (.prop {} (.ofVar "ctx_r1") "item")) else none

/-- The expression `self.find(self.item)?.first[next()?.index].name`. -/
def access : Expr :=
  let p : Place := ⟨none, none⟩
  let self : Expr := .read p (.context p) "self"
  let found : Expr := .method p self "find" [.read p self "item"]
  let next : Expr := .method p (.context p) "next" []
  .read p (.index p (.safeRead p found "first") (.safeRead p next "index")) "name"

/-- Its code, with a temporary for the key while that of the object is live. -/
def accessCode : PropertyCode :=
  let found : Term := .applyMethod (.ofVar "ctx") "find" [.prop {} (.ofVar "ctx_r1") "item"]
  let next : Term := .applyMethod (.ofVar "ctx") "next" []
  let key := Answers.guardCode (.set (.ofVar "tmp_0_1") next) (.prop {} (.ofVar "tmp_0_1") "index")
  let name : Term := .prop {} (.key {} (.prop {} (.ofVar "tmp_0_0") "first") key) "name"
  { statements := [.declare none {} "tmp_0_0" none, .declare none {} "tmp_0_1" none,
      .const "currVal_0" (Answers.guardCode (.set (.ofVar "tmp_0_0") found) name)]
    value := .ofVar "currVal_0" }

theorem ambient_avoids : ambient.Avoids "0" := by
  refine ⟨fun x hx => ?_, fun name t ht x hx => ?_⟩
  · rw [List.mem_singleton.mp hx]
    exact unreserved_of_not_isTemporary rfl
  · dsimp only [ambient] at ht
    split at ht
    · cases ht
    · split at ht
      · cases ht
        rw [List.mem_singleton.mp hx]
        exact unreserved_of_not_isTemporary rfl
      · cases ht

theorem access_avoids : access.Every (Expr.Avoids "0") := by
  have havoids : ∀ e : Expr, e.isPure = true → e.function? = none → e.Avoids "0" := by
    intro e hpure hf
    refine ⟨hpure, fun f h => ?_⟩
    rw [hf] at h
    cases h
  simp only [access, Expr.Every, Expr.EveryAll, and_true]
  repeat' apply And.intro
  all_goals exact havoids _ rfl rfl

theorem propertyValue_accessCode :
    outcome (lowerProperty (ambient.host (pure ()) (fun _ => .ok .null) : Host Unit) access "0" true) ()
      = (.ok accessCode, ()) ∧
    sums.propertyValue accessCode = sums.meaning ambient access ∧
    sums.meaning ambient access = .ok 19 := by
  have hreplace : access.replaceBuiltins BuiltinFactory.literal = .ok access := rfl
  have hlower : outcome
      (lowerProperty (ambient.host (pure ()) (fun _ => .ok .null) : Host Unit) access "0" true) ()
      = (.ok accessCode, ()) := rfl
  exact ⟨hlower, propertyValue_eq_meaning sums ambient_avoids access_avoids hreplace hlower, rfl⟩

end Sample

end TemplateCompiler
