import TemplateCompiler.Proofs.Expr.Printing
import TemplateCompiler.Proofs.Lowering.Nodes
import TemplateCompiler.Proofs.Lowering.Resolver

/-!
# How lowering fails

A step fails with an error of the compiler, with one of the input or with a defect, and which of them it
can be depends on a few nodes only. `FailsOnly Q p` says that every failure of the step `p` is of the kind
`Q`. A kind that lowering may always have `Allows` the errors of the input and those of the stack.

* `Expr.FailsWithin host Q` : a node that fails in the ways `Q` only, if its parts do (`failsOnly_nodeCode`);
* `failsOnly_lower` : an expression of such nodes fails in these ways only;
* `FailsAlways Q p` : the step `p` does fail, and in one of the ways `Q`;
* `failsAlways_lowerStatements` : so do statements, if one of them does and those before it fail in no
  other way.
-/

namespace TemplateCompiler

variable {σ α β : Type} {Q : Failure → Prop}

def FailsOnly (Q : Failure → Prop) (p : Lower σ α) : Prop :=
  ∀ s f s', outcome p s = (.error f, s') → Q f

/-- A kind that has the errors of the input, and those of the stack of temporaries. -/
structure Allows (Q : Failure → Prop) : Prop where
  input : ∀ range cause, Q (.inRange range cause)
  stack : ∀ f : Failure, f.breaksStack = true → Q f

section Rules

theorem failsOnly_true {p : Lower σ α} : FailsOnly (fun _ => True) p := fun _ _ _ _ => trivial

theorem failsOnly_pure (a : α) : FailsOnly Q (pure a : Lower σ α) := by
  intro s f s' h
  rw [outcome_pure] at h
  cases h

theorem failsOnly_throw {f : Failure} (h : Q f) : FailsOnly Q (throw f : Lower σ α) := by
  intro s g s' hrun
  rw [outcome_throw] at hrun
  cases hrun
  exact h

/-- The second step may rely on the first. -/
theorem failsOnly_bind_ok {p : Lower σ β} {q : β → Lower σ α} (hp : FailsOnly Q p)
    (hq : ∀ a s s', outcome p s = (.ok a, s') → FailsOnly Q (q a)) : FailsOnly Q (p >>= q) := by
  intro s f s' h
  rw [outcome_bind] at h
  rcases hps : outcome p s with ⟨g | a, s₁⟩
  · rw [hps] at h
    cases h
    exact hp s f s' hps
  · rw [hps] at h
    exact hq a s s₁ hps s₁ f s' h

theorem failsOnly_bind {p : Lower σ β} {q : β → Lower σ α} (hp : FailsOnly Q p)
    (hq : ∀ a, FailsOnly Q (q a)) : FailsOnly Q (p >>= q) :=
  failsOnly_bind_ok hp fun a _ _ _ => hq a

theorem failsOnly_get : FailsOnly Q (get : Lower σ (Lowering σ)) := by
  intro s f s' h
  rw [outcome_get] at h
  cases h

theorem failsOnly_modify (g : Lowering σ → Lowering σ) :
    FailsOnly Q (modify g : Lower σ PUnit) := by
  intro s f s' h
  rw [outcome_modify] at h
  cases h

theorem failsOnly_onHost (step : StateM σ α) : FailsOnly Q (Lower.onHost step) := by
  intro s f s' h
  rw [outcome_onHost] at h
  cases h

theorem failsOnly_allocate : FailsOnly Q (Lower.allocate : Lower σ Temporary) :=
  fun _ _ _ h => nomatch h

theorem failsOnly_release (hQ : Allows Q) (t : Temporary) :
    FailsOnly Q (Lower.release t : Lower σ Unit) := by
  unfold Lower.release
  refine failsOnly_bind failsOnly_get fun s => ?_
  cases h : s.temporaries.release t with
  | ok temporaries => exact fun _ _ _ h => nomatch h
  | error e =>
      -- the stack's own failure is the only one there is
      have hbreaks : e.cause.breaksStack = true := by
        unfold TemporaryStack.release at h
        split at h
        · split at h
          · cases h
          · cases h
            rfl
        · cases h
          rfl
      exact failsOnly_throw (hQ.stack (.error e) hbreaks)

theorem failsOnly_printed {e : Expr} (h : ∀ d, e.print = .error d → Q (.defect d)) :
    FailsOnly Q (Lower.printed e : Lower σ Text) := by
  unfold Lower.printed
  split
  · exact failsOnly_pure _
  · next d hd => exact failsOnly_throw (h d hd)

end Rules

/-! ### The code of expressions -/

/-- How a node may fail, if its parts do not: with an error where it has no code, where what it prints has no
printed form, and as the host does with the code of the parts. -/
def Expr.FailsWithin (host : Host σ) (Q : Failure → Prop) : Expr → Prop
  | e@(chain ..) => ErrorsIn (fun d => Q (.defect d)) e.print ∧ ∀ c, Q (.illegal c)
  | array .. | map .. | pipe .. => ∀ c, Q (.illegal c)
  | interpolation p texts es => (texts.length = es.length + 1 ∨ ∀ c, Q (.illegal c)) ∧
    ∀ args f, host.interpolate args = .error f → Q (f.locateRange p.span)
  | binary _ o _ _ => (sourceOperator? o).isSome = true ∨ ∀ c, Q (.illegal c)
  | write _ _ _ v => ErrorsIn (fun d => Q (.defect d)) v.print
  | builtin _ kind es => ∀ ts s f s', ts.length = es.length →
    outcome (host.builtin kind ts) s = (.error f, s') → Q f
  | _ => True

/-- The guards and the code of a spine fail in some ways only. -/
structure Spine.FailsOnly (Q : Failure → Prop) (s : Spine σ) : Prop where
  guards : ∀ g ∈ s.guards, ∀ pins, TemplateCompiler.FailsOnly Q (g.receiver pins)
  plain : ∀ pins, TemplateCompiler.FailsOnly Q (s.plain pins)

namespace Spine

theorem failsOnly_guarded (hQ : Allows Q) {access : Pins → Lower σ Lowered}
    (h : ∀ pins, TemplateCompiler.FailsOnly Q (access pins)) : ∀ (gs : List (Guard σ)) (pins : Pins),
    (∀ g ∈ gs, ∀ pins, TemplateCompiler.FailsOnly Q (g.receiver pins)) →
    TemplateCompiler.FailsOnly Q (guarded access gs pins)
  | [], pins, _ => h pins
  | g :: gs, pins, hgs => by
    obtain ⟨hg, hrest⟩ := List.forall_mem_cons.mp hgs
    have ih := fun pins => failsOnly_guarded hQ h gs pins hrest
    rw [guarded]
    refine failsOnly_bind (hg pins) fun receiver => ?_
    split
    · refine failsOnly_bind failsOnly_allocate fun t => failsOnly_bind (ih _) fun code => ?_
      exact failsOnly_bind (failsOnly_release hQ t) fun _ => failsOnly_pure _
    · exact failsOnly_bind (ih _) fun code => failsOnly_pure _

theorem FailsOnly.made (hQ : Allows Q) {s : Spine σ} (h : s.FailsOnly Q) :
    TemplateCompiler.FailsOnly Q s.made :=
  failsOnly_guarded hQ h.plain s.guards [] h.guards

theorem FailsOnly.pinned {s : Spine σ} (h : s.FailsOnly Q) (pins : Pins) :
    TemplateCompiler.FailsOnly Q (s.pinned pins) := by
  unfold Spine.pinned
  split
  · exact failsOnly_pure _
  · exact h.plain pins

end Spine

section Code

variable {host : Host σ}

theorem failsOnly_fresh {code : Lower σ Term} (h : FailsOnly Q code) : FailsOnly Q code.fresh :=
  failsOnly_bind h fun _ => failsOnly_pure _

theorem failsOnly_code {made : Lower σ Lowered} (h : FailsOnly Q made) : FailsOnly Q made.code :=
  failsOnly_bind h fun _ => failsOnly_pure _

theorem failsOnly_localOf (r : Lowered) (name : Text) (used : Bool) :
    FailsOnly Q (Expr.localOf host r name used) := by
  unfold Expr.localOf
  split
  · refine failsOnly_bind (failsOnly_onHost _) fun found => ?_
    cases found with
    | some t => exact failsOnly_bind (failsOnly_modify _) fun _ => failsOnly_pure _
    | none => exact failsOnly_pure _
  · exact failsOnly_pure _

theorem failsOnly_readCode {code : Lower σ Lowered} (hc : FailsOnly Q code) (name : Text) :
    FailsOnly Q (Expr.readCode host name code) := by
  unfold Expr.readCode
  refine failsOnly_bind failsOnly_get fun s => failsOnly_bind hc fun c => ?_
  refine failsOnly_bind (failsOnly_localOf c name _) fun found => ?_
  cases found <;> exact failsOnly_pure _

theorem failsOnly_methodCode (hQ : Allows Q) {args : Lower σ (List Term)} {code : Lower σ Lowered}
    (ha : FailsOnly Q args) (hc : FailsOnly Q code) (place : Place) (r : Expr) (name : Text) :
    FailsOnly Q (Expr.methodCode host place r name args code) := by
  unfold Expr.methodCode
  refine failsOnly_bind ha fun ts => ?_
  split
  · split
    · exact failsOnly_pure _
    · exact failsOnly_throw (hQ.input _ _)
  · refine failsOnly_bind failsOnly_get fun s => failsOnly_bind hc fun c => ?_
    refine failsOnly_bind (failsOnly_localOf c name _) fun found => ?_
    cases found <;> exact failsOnly_pure _

theorem failsOnly_assignedText {e : Expr} (h : ∀ d, e.print = .error d → Q (.defect d)) :
    FailsOnly Q (Expr.assignedText e : Lower σ Text) := by
  unfold Expr.assignedText
  refine failsOnly_bind (failsOnly_printed h) fun t => ?_
  split <;> exact failsOnly_pure _

theorem failsOnly_targetCode (hQ : Allows Q) {code : Lower σ Lowered} (hc : FailsOnly Q code)
    (place : Place) (name : Text) {v : Expr} (hv : ∀ d, v.print = .error d → Q (.defect d)) :
    FailsOnly Q (Expr.targetCode host place name v code) := by
  unfold Expr.targetCode
  refine failsOnly_bind failsOnly_get fun s => failsOnly_bind hc fun c => ?_
  split
  · refine failsOnly_bind (failsOnly_onHost _) fun found => ?_
    split
    · exact failsOnly_bind (failsOnly_modify _) fun _ => failsOnly_pure _
    · exact failsOnly_bind (failsOnly_assignedText hv) fun t => failsOnly_throw (hQ.input _ _)
    · exact failsOnly_pure _
  · exact failsOnly_pure _

theorem failsOnly_builtin {kind : Builtin} {args : List Term}
    (h : ∀ s f s', outcome (host.builtin kind args) s = (.error f, s') → Q f) :
    FailsOnly Q (Lower.onHostE (host.builtin kind args)) := by
  intro s f s' hrun
  rw [outcome_onHostE] at hrun
  rcases hbuiltin : outcome (host.builtin kind args) s.host with ⟨g | t, u⟩
  · rw [hbuiltin] at hrun
    cases hrun
    exact h _ _ _ hbuiltin
  · rw [hbuiltin] at hrun
    cases hrun

theorem failsOnly_interpolate {range : Option Span}
    (h : ∀ args f, host.interpolate args = .error f → Q (f.locateRange range)) (args : List Term) :
    FailsOnly Q (match host.interpolate args with
      | .ok t => pure t
      | .error f => throw (f.locateRange range) : Lower σ Term) := by
  cases hrun : host.interpolate args with
  | ok t => exact failsOnly_pure t
  | error g => exact failsOnly_throw (h args g hrun)

theorem failsOnly_codes {child : Nat → Expr → Lower σ Lowered} {es : List Expr} : ∀ {n : Nat},
    (∀ i c, es[i]? = some c → FailsOnly Q (child (n + i) c)) → FailsOnly Q (Expr.codes child n es) := by
  induction es with
  | nil => exact fun _ => failsOnly_pure _
  | cons e es ih =>
      intro n h
      have hes : FailsOnly Q (Expr.codes child (n + 1) es) := ih fun i c hc => by
        rw [Nat.add_right_comm, Nat.add_assoc]
        exact h (i + 1) c hc
      exact failsOnly_bind (failsOnly_code (h 0 e rfl)) fun _ =>
        failsOnly_bind hes fun _ => failsOnly_pure _

/-- There is code for each of several expressions. -/
theorem length_of_codes {child : Nat → Expr → Lower σ Lowered} {es : List Expr} : ∀ {n : Nat} {ts : List Term}
    {s s' : Lowering σ}, outcome (Expr.codes child n es) s = (.ok ts, s') → ts.length = es.length := by
  induction es with
  | nil =>
      intro n ts s s' h
      cases h
      rfl
  | cons e es ih =>
      intro n ts s s' h
      obtain ⟨t, s₁, -, h⟩ := outcome_bind_ok.mp h
      obtain ⟨us, s₂, hus, h⟩ := outcome_bind_ok.mp h
      cases h
      rw [List.length_cons, List.length_cons, ih hus]

theorem failsOnly_nodeCode (hQ : Allows Q) {e : Expr} (hnode : e.FailsWithin host Q)
    {child : Nat → Expr → Lower σ Lowered}
    (h : ∀ i c, e.children[i]? = some c → FailsOnly Q (child i c)) :
    FailsOnly Q (e.nodeCode host child) := by
  have hcode {i : Nat} {c : Expr} (hc : e.children[i]? = some c) : FailsOnly Q (child i c).code :=
    failsOnly_code (h i c hc)
  have hargs {c : Expr} {es : List Expr} (hes : e.children = c :: es) : FailsOnly Q (Expr.codes child 1 es) :=
    failsOnly_codes fun i x hx => h (1 + i) x (by rw [hes, Nat.add_comm, List.getElem?_cons_succ, hx])
  have hall {es : List Expr} (hes : e.children = es) : FailsOnly Q (Expr.codes child 0 es) :=
    failsOnly_codes fun i x hx => h (0 + i) x (by rw [hes, Nat.zero_add, hx])
  cases e with
  | context p => exact failsOnly_bind (failsOnly_modify _) fun _ => failsOnly_pure _
  | chain p es =>
      exact failsOnly_fresh (failsOnly_bind (failsOnly_printed hnode.1) fun _ => failsOnly_throw (hnode.2 _))
  | conditional p a b c | indexWrite p a b c =>
      exact failsOnly_fresh (failsOnly_bind (hcode (i := 0) rfl) fun _ =>
        failsOnly_bind (hcode (i := 1) rfl) fun _ =>
          failsOnly_bind (hcode (i := 2) rfl) fun _ => failsOnly_pure _)
  | read p r name | safeRead p r name => exact failsOnly_readCode (h 0 r rfl) name
  | write p r name v =>
      exact failsOnly_fresh (failsOnly_bind (failsOnly_targetCode hQ (h 0 r rfl) p name hnode) fun _ =>
        failsOnly_bind (hcode (i := 1) rfl) fun _ => failsOnly_pure _)
  | index p a b =>
      exact failsOnly_fresh (failsOnly_bind (h 0 a rfl) fun _ =>
        failsOnly_bind (hcode (i := 1) rfl) fun _ => failsOnly_pure _)
  | method p r name args | safeMethod p r name args =>
      exact failsOnly_fresh (failsOnly_methodCode hQ (hargs rfl) (h 0 r rfl) p r name)
  | call p f args =>
      exact failsOnly_fresh (failsOnly_bind (hargs rfl) fun _ =>
        failsOnly_bind (hcode (i := 0) rfl) fun _ => failsOnly_pure _)
  | binary p o a b =>
      rw [Expr.nodeCode]
      refine failsOnly_fresh ?_
      split
      · next hop =>
          rcases hnode with hcode | hthrow
          · rw [hop] at hcode
            cases hcode
          · exact failsOnly_throw (hthrow _)
      · exact failsOnly_bind (hcode (i := 0) rfl) fun _ =>
          failsOnly_bind (hcode (i := 1) rfl) fun _ => failsOnly_pure _
  | not p a | present p a =>
      exact failsOnly_fresh (failsOnly_bind (hcode (i := 0) rfl) fun _ => failsOnly_pure _)
  | literal p v => exact failsOnly_fresh (failsOnly_pure _)
  | array p es | map p ks es | pipe p a name args => exact failsOnly_fresh (failsOnly_throw (hnode _))
  | interpolation p texts es =>
      have hvalues := failsOnly_bind (hall rfl) fun values => failsOnly_interpolate hnode.2
        (.ofNat es.length :: Expr.interpolationArgs texts values)
      rw [Expr.nodeCode]
      refine failsOnly_fresh ?_
      split
      · next hne => exact failsOnly_bind (failsOnly_throw (hnode.1.resolve_left hne _)) fun _ => hvalues
      · exact hvalues
  | quote p s t l => exact failsOnly_fresh (failsOnly_throw (hQ.input _ _))
  | builtin p kind args =>
      refine failsOnly_fresh (failsOnly_bind_ok (hall rfl) fun ts s s' hrun => ?_)
      exact failsOnly_builtin fun u f u' => hnode ts u f u' (length_of_codes hrun)

/-- Lowering an expression fails in the ways of its nodes only. -/
theorem failsOnly_spine (hQ : Allows Q) (e : Expr) :
    e.Every (Expr.FailsWithin host Q) → (e.spine host).FailsOnly Q := by
  induction e using Expr.induct with
  | step e ih =>
      intro h
      obtain ⟨hnode, hchildren⟩ := Expr.every_iff.mp h
      have hspine : ∀ c ∈ e.children, (c.spine host).FailsOnly Q := fun c hc =>
        ih c hc (Expr.everyAll_iff.mp hchildren c hc)
      constructor
      · cases hr : e.receiver? with
        | none =>
            rw [spine_guards, Expr.safeReceivers_of_receiver?_eq_none hr]
            exact fun g hg => absurd hg List.not_mem_nil
        | some r =>
            obtain ⟨es, hes⟩ := Expr.children_of_receiver? hr
            have hreceiver := hspine r (hes ▸ List.mem_cons_self)
            rw [Expr.guards_of_receiver? hr]
            refine List.forall_mem_append.mpr ⟨hreceiver.guards, fun g hg => ?_⟩
            cases List.mem_singleton.mp (List.mem_ite_nil_right.mp hg).2
            exact hreceiver.plain
      · intro pins
        rw [Expr.plain_eq_nodeCode]
        refine failsOnly_nodeCode hQ hnode fun i c hc => ?_
        have hchild := hspine c (List.mem_of_getElem? hc)
        unfold Expr.childCode
        split
        · split
          · exact hchild.pinned pins
          · exact hchild.plain pins
        · exact hchild.made hQ

theorem failsOnly_lower (hQ : Allows Q) {e : Expr} (h : e.Every (Expr.FailsWithin host Q)) :
    FailsOnly Q (e.lower host) :=
  failsOnly_code ((failsOnly_spine hQ e h).made hQ)

theorem failsOnly_lowerAllStatements {es : List Expr} (h : ∀ e ∈ es, FailsOnly Q (e.lowerStatements host)) :
    FailsOnly Q (Expr.lowerAllStatements host es) := by
  induction es with
  | nil =>
      rw [Expr.lowerAllStatements]
      exact failsOnly_pure _
  | cons e es ih =>
      obtain ⟨he, hes⟩ := List.forall_mem_cons.mp h
      rw [Expr.lowerAllStatements]
      exact failsOnly_bind he fun _ => failsOnly_bind (ih hes) fun _ => failsOnly_pure _

/-- An expression other than a chain fails as its code does, or with an error if it is no statement. -/
theorem failsOnly_statement {e : Expr} (hlower : FailsOnly Q (e.lower host)) (hchain : ∀ p es, e ≠ .chain p es)
    (hno : e.isContext = true ∨ e.isInterpolation = true →
      Expr.ErrorsIn (fun d => Q (.defect d)) e.print ∧ ∀ c, Q (.illegal c)) :
    FailsOnly Q (e.lowerStatements host) := by
  cases e with
  | chain p es => exact absurd rfl (hchain p es)
  | context | interpolation =>
      obtain ⟨hprints, hthrow⟩ := hno (by simp [Expr.isContext, Expr.isInterpolation])
      rw [Expr.lowerStatements]
      exact failsOnly_bind (failsOnly_printed hprints) fun _ => failsOnly_throw (hthrow _)
  | _ =>
      rw [Expr.lowerStatements]
      · exact failsOnly_bind hlower fun _ => failsOnly_pure _
      all_goals intros; contradiction

/-- The bare receiver and an interpolation are no statements. -/
theorem failsOnly_lowerStatements (hQ : Allows Q) {e : Expr} (h : e.Every (Expr.FailsWithin host Q))
    (hchain : ∀ p es, e ≠ .chain p es) (hcontext : e.isContext = false)
    (hinterpolation : e.isInterpolation = false) : FailsOnly Q (e.lowerStatements host) := by
  refine failsOnly_statement (failsOnly_lower hQ h) hchain ?_
  rintro (hyes | hyes)
  · exact absurd (hcontext.symm.trans hyes) Bool.false_ne_true
  · exact absurd (hinterpolation.symm.trans hyes) Bool.false_ne_true

end Code

/-! ### Steps that do fail -/

/-- A step fails from every state, and in some ways only. -/
def FailsAlways (Q : Failure → Prop) (p : Lower σ α) : Prop :=
  ∀ s, ∃ f s', outcome p s = (.error f, s') ∧ Q f

theorem FailsAlways.bind {p : Lower σ β} {q : β → Lower σ α} (h : FailsAlways Q p) :
    FailsAlways Q (p >>= q) := by
  intro s
  obtain ⟨f, s', hrun, hf⟩ := h s
  refine ⟨f, s', ?_, hf⟩
  rw [outcome_bind, hrun]

theorem failsAlways_bind {p : Lower σ β} {q : β → Lower σ α} (hp : FailsOnly Q p)
    (hq : ∀ a, FailsAlways Q (q a)) : FailsAlways Q (p >>= q) := by
  intro s
  rw [outcome_bind]
  rcases hrun : outcome p s with ⟨f | a, s₁⟩
  · exact ⟨f, s₁, rfl, hp s f s₁ hrun⟩
  · exact hq a s₁

/-- A step that does not succeed fails in the ways it can. -/
theorem failsAlways_of_never {p : Lower σ α} (hnever : ∀ s a s', outcome p s ≠ (.ok a, s'))
    (h : FailsOnly Q p) : FailsAlways Q p := by
  intro s
  rcases hrun : outcome p s with ⟨f | a, s'⟩
  · exact ⟨f, s', rfl, h s f s' hrun⟩
  · exact absurd hrun (hnever s a s')

section Statements

variable {host : Host σ}

theorem failsOnly_items (e : Expr) : (∀ y ∈ e.items, FailsOnly Q (y.lowerStatements host)) →
    FailsOnly Q (e.lowerStatements host) := by
  induction e using Expr.induct with
  | step e ih =>
      intro h
      cases e with
      | chain p es =>
          rw [Expr.items] at h
          rw [Expr.lowerStatements]
          exact failsOnly_lowerAllStatements fun c hc => ih c hc fun y hy =>
            h y (Expr.mem_itemsAll.mpr ⟨c, hc, hy⟩)
      | _ => exact h _ List.mem_cons_self

mutual

/-- Statements fail at an item, if those before it fail in no other way. -/
theorem failsAlways_lowerStatements {x : Expr} (hx : FailsAlways Q (x.lowerStatements host)) :
    ∀ (e : Expr) {before after : List Expr}, e.items = before ++ x :: after →
    (∀ y ∈ before, FailsOnly Q (y.lowerStatements host)) → FailsAlways Q (e.lowerStatements host)
  | .chain p es, before, after, heq, hbefore => by
    rw [Expr.items] at heq
    rw [Expr.lowerStatements]
    exact failsAlways_lowerAllStatements hx es heq hbefore
  | .context .., _, _, heq, _ | .conditional .., _, _, heq, _ | .read .., _, _, heq, _
  | .write .., _, _, heq, _ | .safeRead .., _, _, heq, _ | .index .., _, _, heq, _
  | .indexWrite .., _, _, heq, _ | .method .., _, _, heq, _ | .safeMethod .., _, _, heq, _
  | .call .., _, _, heq, _ | .binary .., _, _, heq, _ | .not .., _, _, heq, _
  | .present .., _, _, heq, _ | .literal .., _, _, heq, _ | .array .., _, _, heq, _
  | .map .., _, _, heq, _ | .interpolation .., _, _, heq, _ | .pipe .., _, _, heq, _
  | .quote .., _, _, heq, _ | .builtin .., _, _, heq, _ => by
    have hmem : x ∈ [_] := heq ▸ List.mem_append_right _ List.mem_cons_self
    rw [← List.mem_singleton.mp hmem]
    exact hx

theorem failsAlways_lowerAllStatements {x : Expr} (hx : FailsAlways Q (x.lowerStatements host)) :
    ∀ (es : List Expr) {before after : List Expr}, Expr.itemsAll es = before ++ x :: after →
    (∀ y ∈ before, FailsOnly Q (y.lowerStatements host)) →
    FailsAlways Q (Expr.lowerAllStatements host es)
  | [], before, after, heq, _ =>
    absurd heq.symm (List.append_ne_nil_of_right_ne_nil before (List.cons_ne_nil x after))
  | e :: es, before, after, heq, hbefore => by
    rw [Expr.itemsAll] at heq
    rw [Expr.lowerAllStatements]
    rcases List.append_eq_append_iff.mp heq with ⟨between, rfl, hes⟩ | ⟨between, he, hes⟩
    · -- the item stands behind those of the first expression
      obtain ⟨hfirst, hbetween⟩ := List.forall_mem_append.mp hbefore
      exact failsAlways_bind (failsOnly_items e hfirst) fun _ =>
        (failsAlways_lowerAllStatements hx es hes hbetween).bind
    · rcases List.cons_eq_append_iff.mp hes with ⟨rfl, hes⟩ | ⟨more, rfl, hes⟩
      · have hrest : Expr.itemsAll es = [] ++ x :: after := hes.symm
        rw [List.append_nil] at he
        exact failsAlways_bind (failsOnly_items e (he ▸ hbefore)) fun _ =>
          (failsAlways_lowerAllStatements hx es hrest (List.forall_mem_nil _)).bind
      · exact (failsAlways_lowerStatements hx e he hbefore).bind

end

end Statements

end TemplateCompiler
