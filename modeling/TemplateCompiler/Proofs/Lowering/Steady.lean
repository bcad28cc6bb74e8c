import TemplateCompiler.Proofs.Lowering.Parts
import TemplateCompiler.Proofs.Lowering.Soundness

/-!
# What a step does by itself

What a step of a lowering does is settled by the state of the host and by how many temporaries are live.
It makes no difference which temporaries were made before, or whether the context is known to be used.

* `Report` : what a step does in such a state;
* `Account` : what is said of code and of whether making it used the context, for each way code is put
  together;
* `Steady` : steps with a report, of which the account is right; the `steady_` lemmas give it for each way
  a step is put together, `steady_spine` for the code of an expression;
* `Reports.concludes` : what comes of a binding;
* `Host.counting` : a host that counts the bindings it is told of.
-/

namespace TemplateCompiler

open TemporaryStack (nameOf)

variable {σ α β : Type}

/-- What a step does. -/
inductive Report (σ α : Type) where
  /-- It has a result, for which the first `needs` variables are needed, and for which the context is
  `used` or not. -/
  | done (result : α) (needs : Nat) (used : Bool) (host : σ)
  | failed (failure : Failure) (host : σ)

def Report.host : Report σ α → σ
  | done _ _ _ h | failed _ h => h

/-- Whether something is true of the result, if there is one. -/
def Report.Holds (post : α → Bool → Prop) : Report σ α → Prop
  | done a _ used _ => post a used
  | failed .. => True

/-- A state before a step: what the step depends on. -/
structure Lowering.Before (s : Lowering σ) (b : Text) (h : σ) (d : Nat) : Prop where
  binding : s.temporaries.binding = b
  host : s.host = h
  depth : s.temporaries.depth = d

/-- A state after a step that was taken from the state `s`. -/
structure Lowering.After (s s' : Lowering σ) (n : Nat) (used : Bool) (h : σ) : Prop where
  host : s'.host = h
  settles : s.temporaries.Settles s'.temporaries n
  used : s'.usesContext = (s.usesContext || used)

/-- Whether a report is right about a run from a state. -/
def Report.Tells (s : Lowering σ) (run : Except Failure α × Lowering σ) : Report σ α → Prop
  | done a n used h => ∃ s', run = (.ok a, s') ∧ s.After s' n used h
  | failed f h => ∃ s', run = (.error f, s') ∧ s'.host = h

/-- A report that is right about a step from all states alike. -/
def Reports (b : Text) (h : σ) (d : Nat) (p : Lower σ α) (r : Report σ α) : Prop :=
  ∀ s : Lowering σ, s.Before b h d → r.Tells s (outcome p s)

section Reports

variable {b : Text} {h h₁ : σ} {d n : Nat} {used : Bool}

namespace Lowering

variable {s s₁ s₂ : Lowering σ} {h₂ : σ} {m : Nat} {used' : Bool}

theorem Before.refl (hs : s.Before b h d) : s.After s 0 false h :=
  ⟨hs.host, .refl _, (Bool.or_false _).symm⟩

theorem Before.after (hs : s.Before b h d) (hs₁ : s.After s₁ n used h₁) : s₁.Before b h₁ d where
  binding := hs₁.settles.binding.trans hs.binding
  host := hs₁.host
  depth := by rw [← hs.depth, TemporaryStack.depth, hs₁.settles.live, TemporaryStack.depth]

theorem After.trans (hs₁ : s.After s₁ n used h₁) (hs₂ : s₁.After s₂ m used' h₂) :
    s.After s₂ (max n m) (used || used') h₂ where
  host := hs₂.host
  settles := hs₁.settles.trans hs₂.settles
  used := by rw [hs₂.used, hs₁.used, Bool.or_assoc]

end Lowering

/-- What a step does after another: `n` and `used` are those of the first. -/
def Report.later (n : Nat) (used : Bool) : Report σ α → Report σ α
  | done a m used' h => done a (max n m) (used || used') h
  | failed f h => failed f h

theorem reports_pure (a : α) : Reports b h d (pure a) (.done a 0 false h) :=
  fun s hs => ⟨s, rfl, hs.refl⟩

theorem reports_throw (f : Failure) : Reports b h d (throw f : Lower σ α) (.failed f h) :=
  fun s hs => ⟨s, rfl, hs.host⟩

theorem Reports.bind_failed {p : Lower σ β} {q : β → Lower σ α} {f : Failure}
    (hp : Reports b h d p (.failed f h₁)) : Reports b h d (p >>= q) (.failed f h₁) := by
  intro s hs
  obtain ⟨s₁, hrun, hhost⟩ := hp s hs
  rw [outcome_bind, hrun]
  exact ⟨s₁, rfl, hhost⟩

/-- One step after the other: the second starts where the first left the host, under the same
temporaries. -/
theorem Reports.bind {p : Lower σ β} {q : β → Lower σ α} {a : β} {r : Report σ α}
    (hp : Reports b h d p (.done a n used h₁)) (hq : Reports b h₁ d (q a) r) :
    Reports b h d (p >>= q) (r.later n used) := by
  intro s hs
  obtain ⟨s₁, hrun, hs₁⟩ := hp s hs
  rw [outcome_bind, hrun]
  have hrest := hq s₁ (hs.after hs₁)
  cases r with
  | done t m used' h₂ =>
      obtain ⟨s₂, hrun', hs₂⟩ := hrest
      exact ⟨s₂, hrun', hs₁.trans hs₂⟩
  | failed f h₂ => exact hrest

/-- A step whose result is changed at the end. -/
theorem Reports.map {p : Lower σ β} {a : β} (hp : Reports b h d p (.done a n used h₁)) (g : β → α) :
    Reports b h d (p >>= fun a => pure (g a)) (.done (g a) n used h₁) := by
  have hmap := hp.bind (q := fun a => pure (g a)) (reports_pure (g a))
  rwa [Report.later, Nat.max_zero, Bool.or_false] at hmap

end Reports

/-- An account of code that is made with a host for the binding `b`. -/
structure Account (host : Host σ) (b : Text) where
  /-- How often the host was told of a binding that uses the context. -/
  told : σ → Nat
  told_lookup : ∀ name s, told ((host.lookup name).run s).2 = told s
  told_builtin : ∀ kind ts s, told (outcome (host.builtin kind ts) s).2 = told s
  /-- What is said of code and of whether making it used the context. -/
  fits : List Term → Bool → Prop
  nil : fits [] false
  append : ∀ {ts us u v}, fits ts u → fits us v → fits (ts ++ us) (u || v)
  /-- Only the variables of code matter. -/
  congr : ∀ {ts us u}, (∀ x, x ∈ Term.variablesAll us ↔ x ∈ Term.variablesAll ts) → fits ts u → fits us u
  context : fits [host.context] true
  found : ∀ {name s f}, ((host.lookup name).run s).1 = some f → fits [(f.made host.context).code] false
  temporary : ∀ n, fits [.ofVar (nameOf b n)] false
  /-- The nodes that it is an account of. -/
  permits : Expr → Prop
  builtin : ∀ {p kind es ts u s t s'}, permits (.builtin p kind es) → ts.length = es.length → fits ts u →
    outcome (host.builtin kind ts) s = (.ok t, s') → fits [t] u
  interpolate : ∀ {ts u t}, fits ts u → host.interpolate ts = .ok t → fits [t] u

variable {host : Host σ} {b : Text}

namespace Account

variable {A : Account host b} {ts us heads : List Term} {t u : Term} {used used' : Bool}

theorem madeOf (h : A.fits ts used) (hus : Term.MadeOf us heads ts) : A.fits us used :=
  A.congr (fun _ => hus.mem_variablesAll) h

theorem cons (h : A.fits [t] used) (hs : A.fits ts used') : A.fits (t :: ts) (used || used') :=
  A.append h hs

/-- A value that is kept in a temporary. -/
theorem set (n : Nat) (h : A.fits [t] used) : A.fits [.set (.ofVar (nameOf b n)) t] used := by
  have hboth := A.cons (A.temporary n) h
  rw [Bool.false_or] at hboth
  have hvariables : Term.variablesAll [.set (.ofVar (nameOf b n)) t] =
      Term.variablesAll [.ofVar (nameOf b n), t] := rfl
  exact A.congr (fun x => by rw [hvariables]) hboth

theorem guardCode (h : A.fits [t] used) (hcode : A.fits [u] used') :
    A.fits [Answers.guardCode t u] (used || used') :=
  A.madeOf (A.cons h hcode) (Term.madeOf_guardCode t u)

end Account

/-- A step that does the same whatever was done before it, and of which the account is right. -/
def Steady (A : Account host b) (p : Lower σ α) (post : α → Bool → Prop) : Prop :=
  ∀ h d, ∃ r, Reports b h d p r ∧ A.told r.host = A.told h ∧ r.Holds post

abbrev SteadyCode (A : Account host b) (p : Lower σ Term) : Prop := Steady A p fun t used => A.fits [t] used

abbrev SteadyMade (A : Account host b) (p : Lower σ Lowered) : Prop :=
  Steady A p fun m used => A.fits [m.code] used

/-! ### Putting steps together -/

section Rules

variable {A : Account host b} {post : α → Bool → Prop}

theorem steady_pure {a : α} (h : post a false) : Steady A (pure a) post :=
  fun h' _ => ⟨.done a 0 false h', reports_pure a, rfl, h⟩

theorem steady_throw (f : Failure) : Steady A (throw f) post :=
  fun h _ => ⟨.failed f h, reports_throw f, rfl, trivial⟩

theorem steady_mono {p : Lower σ α} {mid : α → Bool → Prop} (hp : Steady A p mid)
    (h : ∀ a used, mid a used → post a used) : Steady A p post := by
  intro h' d
  obtain ⟨r, htells, htold, hmid⟩ := hp h' d
  refine ⟨r, htells, htold, ?_⟩
  cases r with
  | done a n used h' => exact h a used hmid
  | failed f h' => trivial

theorem steady_bind {p : Lower σ β} {q : β → Lower σ α} {mid : β → Bool → Prop} (hp : Steady A p mid)
    (hq : ∀ a, Steady A (q a) fun t used' => ∀ used, mid a used → post t (used || used')) :
    Steady A (p >>= q) post := by
  intro h d
  obtain ⟨r, hr, htold, hmid⟩ := hp h d
  cases r with
  | failed f h₁ => exact ⟨.failed f h₁, hr.bind_failed, htold, trivial⟩
  | done a n used h₁ =>
      obtain ⟨r', hr', htold', hpost⟩ := hq a h₁ d
      refine ⟨r'.later n used, hr.bind hr', ?_, ?_⟩
      · cases r' <;> exact htold'.trans htold
      · cases r' with
        | failed f h₂ => trivial
        | done t m used' h₂ => exact hpost used hmid

/-- A step whose result is changed at the end. -/
theorem steady_map {p : Lower σ β} {g : β → α} {mid : β → Bool → Prop} (hp : Steady A p mid)
    (h : ∀ a used, mid a used → post (g a) used) : Steady A (p >>= fun a => pure (g a)) post := by
  refine steady_bind hp fun a => steady_pure fun used hused => ?_
  rw [Bool.or_false]
  exact h a used hused

/-- A temporary is live while `q` runs. Only its name is looked at, and the name tells how many
temporaries are live below it. -/
def Lower.bracket (q : Text → Lower σ β) (g : Text → β → α) : Lower σ α := do
  let t ← Lower.allocate
  let a ← q t.name
  Lower.release t
  return g t.name a

theorem steady_bracket {q : Text → Lower σ β} {g : Text → β → α} {mid : β → Bool → Prop}
    (hq : ∀ n, Steady A (q (nameOf b n)) mid)
    (h : ∀ n a used, mid a used → post (g (nameOf b n) a) used) :
    Steady A (Lower.bracket q g) post := by
  intro h' d
  obtain ⟨r, htells, htold, hmid⟩ := hq d h' (d + 1)
  -- `q` starts with one more live temporary, whose name is settled by the depth
  have hstart : ∀ s : Lowering σ, s.Before b h' d → ∃ t s₁,
      outcome (Lower.allocate : Lower σ Temporary) s = (.ok t, s₁) ∧ t.name = nameOf b d ∧
      s₁.Before b h' (d + 1) ∧ s₁.usesContext = s.usesContext ∧
      s₁.temporaries.live = t :: s.temporaries.live ∧
      s₁.temporaries.count = max s.temporaries.count (d + 1) := by
    rintro s ⟨rfl, rfl, rfl⟩
    exact ⟨s.temporaries.allocate.1, { s with temporaries := s.temporaries.allocate.2 }, rfl, rfl,
      ⟨rfl, rfl, rfl⟩, rfl, rfl, rfl⟩
  cases r with
  | failed f h₁ =>
      refine ⟨.failed f h₁, fun s hs => ?_, htold, trivial⟩
      obtain ⟨t, s₁, halloc, hname, hbefore, -⟩ := hstart s hs
      obtain ⟨s₂, hrun, hhost⟩ := htells s₁ hbefore
      rw [Lower.bracket, outcome_bind, halloc]
      dsimp only
      rw [hname, outcome_bind, hrun]
      exact ⟨s₂, rfl, hhost⟩
  | done a n used h₁ =>
      refine ⟨.done (g (nameOf b d) a) (max (d + 1) n) used h₁, fun s hs => ?_, htold, h d a used hmid⟩
      obtain ⟨t, s₁, halloc, hname, hbefore, hused, hlive, hcount⟩ := hstart s hs
      obtain ⟨s₂, hrun, hs₂⟩ := htells s₁ hbefore
      rw [Lower.bracket, outcome_bind, halloc]
      dsimp only
      rw [hname, outcome_bind, hrun]
      dsimp only
      rw [outcome_bind, outcome_release (hs₂.settles.live.trans hlive)]
      refine ⟨_, rfl, hs₂.host, ⟨?_, rfl, ?_⟩, hs₂.used.trans (hused ▸ rfl)⟩
      · exact hs₂.settles.binding.trans (hbefore.binding.trans hs.binding.symm)
      · rw [← Nat.max_assoc, ← hcount]
        exact hs₂.settles.count

end Rules

/-! ### The parts of a lowering -/

section Steps

variable {A : Account host b}

theorem SteadyCode.fresh {p : Lower σ Term} (hp : SteadyCode A p) : SteadyMade A p.fresh :=
  steady_map hp fun _ _ h => h

theorem SteadyMade.code {p : Lower σ Lowered} (hp : SteadyMade A p) : SteadyCode A p.code :=
  steady_map hp fun _ _ h => h

theorem steady_contextCode : SteadyMade A (Expr.contextCode host) :=
  fun h _ => ⟨.done ⟨host.context, true⟩ 0 true h, fun s hs => ⟨{ s with usesContext := true }, rfl, hs.host,
    .refl _, (Bool.or_true s.usesContext).symm⟩, rfl, A.context⟩

theorem steady_printed (e : Expr) : Steady A (Lower.printed e) fun _ _ => True := by
  unfold Lower.printed
  split
  · exact steady_pure trivial
  · exact steady_throw _

theorem steady_onHostE {step : ExceptT Failure (StateM σ) α}
    (htold : ∀ h, A.told (outcome step h).2 = A.told h) :
    Steady A (Lower.onHostE step) fun t used => used = false ∧ ∃ h h', outcome step h = (.ok t, h') := by
  intro h d
  have htold := htold h
  rcases hrun : outcome step h with ⟨f | t, h₁⟩
  · rw [hrun] at htold
    refine ⟨.failed f h₁, fun s hs => ?_, htold, trivial⟩
    rw [outcome_onHostE, hs.host, hrun]
    exact ⟨_, rfl, rfl⟩
  · rw [hrun] at htold
    refine ⟨.done t 0 false h₁, fun s hs => ?_, htold, rfl, h, h₁, hrun⟩
    rw [outcome_onHostE, hs.host, hrun]
    exact ⟨_, rfl, rfl, .refl _, (Bool.or_false _).symm⟩

/-! #### Members -/

/-- What a member of `receiver` is found to be, and the state it leaves. -/
def Expr.findLocal (host : Host σ) (receiver : Lowered) (name : Text) (h : σ) : Option Found × σ :=
  if receiver.isContext then (host.lookup name).run h else (none, h)

theorem outcome_localOf (r : Lowered) (name : Text) (used : Bool) (s : Lowering σ) :
    outcome (Expr.localOf host r name used) s =
      (.ok ((Expr.findLocal host r name s.host).1.map (Found.made host.context)),
        { s with
          host := (Expr.findLocal host r name s.host).2
          usesContext :=
            if (Expr.findLocal host r name s.host).1.isSome then used else s.usesContext }) := by
  unfold Expr.localOf Expr.findLocal
  split
  · rw [outcome_bind, outcome_onHost]
    cases h : ((host.lookup name).run s.host).1 <;> rfl
  · rfl

theorem Account.told_findLocal (A : Account host b) (r : Lowered) (name : Text) (h : σ) :
    A.told (Expr.findLocal host r name h).2 = A.told h := by
  unfold Expr.findLocal
  split
  · exact A.told_lookup name h
  · rfl

theorem Account.fits_findLocal (A : Account host b) {r : Lowered} {name : Text} {h : σ} {f : Found}
    (hf : (Expr.findLocal host r name h).1 = some f) : A.fits [(f.made host.context).code] false := by
  unfold Expr.findLocal at hf
  split at hf
  · exact A.found hf
  · cases hf

/-- The receiver of a member, and the local that the member is instead. -/
def Expr.memberOf (host : Host σ) (name : Text) (receiver : Lower σ Lowered) :
    Lower σ (Lowered × Option Lowered) := do
  let usedBefore := (← get).usesContext
  let r ← receiver
  return (r, ← localOf host r name usedBefore)

/-- A local does not use the context, whatever its receiver did. -/
theorem steady_memberOf {code : Lower σ Lowered} (hc : SteadyMade A code) (name : Text) :
    Steady A (Expr.memberOf host name code) fun m used => A.fits [(m.2.getD m.1).code] used := by
  intro h d
  obtain ⟨report, htells, htold, hfits⟩ := hc h d
  have hstart : ∀ s : Lowering σ, outcome (Expr.memberOf host name code) s = outcome (code >>= fun c =>
      Expr.localOf host c name s.usesContext >>= fun found => pure (c, found)) s :=
    fun s => by rw [Expr.memberOf, outcome_bind, outcome_get]
  cases report with
  | failed f h₁ =>
      refine ⟨.failed f h₁, fun s hs => ?_, htold, trivial⟩
      obtain ⟨s₁, hrun, hhost⟩ := htells s hs
      rw [hstart, outcome_bind, hrun]
      exact ⟨s₁, rfl, hhost⟩
  | done c n used h₁ =>
      refine ⟨.done (c, (Expr.findLocal host c name h₁).1.map (Found.made host.context)) n
        (if (Expr.findLocal host c name h₁).1.isSome then false else used)
        (Expr.findLocal host c name h₁).2,
        fun s hs => ?_, (A.told_findLocal c name h₁).trans htold, ?_⟩
      · obtain ⟨s₁, hrun, rfl, hsettles, hused⟩ := htells s hs
        rw [hstart, outcome_bind, hrun]
        dsimp only
        rw [outcome_bind, outcome_localOf]
        refine ⟨_, rfl, rfl, hsettles, ?_⟩
        cases (Expr.findLocal host c name s₁.host).1 with
        | some t => exact (Bool.or_false _).symm
        | none => exact hused
      · cases hfound : (Expr.findLocal host c name h₁).1 with
        | some f => exact A.fits_findLocal hfound
        | none => exact hfits

theorem steady_readCode {code : Lower σ Lowered} (hc : SteadyMade A code) (name : Text) :
    SteadyMade A (Expr.readCode host name code) := by
  have heq : Expr.readCode host name code = Expr.memberOf host name code >>= fun m =>
      pure (m.2.getD ⟨.prop {} m.1.code name, false⟩) := by
    unfold Expr.readCode Expr.memberOf
    simp only [bind_assoc, pure_bind]
    refine bind_congr fun s => bind_congr fun c => bind_congr fun found => ?_
    cases found <;> rfl
  rw [heq]
  refine steady_map (steady_memberOf hc name) fun m used h => ?_
  obtain ⟨c, found⟩ := m
  cases found with
  | some t => exact h
  | none => exact A.madeOf h (Term.madeOf_prop c.code name {})

theorem steady_methodCode {args : Lower σ (List Term)} {code : Lower σ Lowered}
    (ha : Steady A args fun ts used => A.fits ts used) (hc : SteadyMade A code) (place : Place) (r : Expr)
    (name : Text) : SteadyCode A (Expr.methodCode host place r name args code) := by
  cases herasure : Expr.isErasure r name with
  | true =>
      unfold Expr.methodCode
      refine steady_bind ha fun ts => ?_
      rw [if_pos herasure]
      split
      · next t =>
          refine steady_pure fun used h => ?_
          rw [Bool.or_false]
          exact A.madeOf h (Term.madeOf_erased t)
      · exact steady_throw _
  | false =>
      have heq : Expr.methodCode host place r name args code = args >>= fun ts =>
          Expr.memberOf host name code >>= fun m =>
            pure ((m.2.map fun f => .apply f.code ts).getD (.applyMethod m.1.code name ts)) := by
        unfold Expr.methodCode Expr.memberOf
        simp only [herasure, Bool.false_eq_true, if_false, bind_assoc, pure_bind]
        refine bind_congr fun ts => bind_congr fun s => bind_congr fun c => bind_congr fun found => ?_
        cases found <;> rfl
      rw [heq]
      refine steady_bind ha fun ts => steady_map (steady_memberOf hc name) fun m used' h used hts => ?_
      obtain ⟨c, found⟩ := m
      rw [Bool.or_comm]
      cases found with
      | some f => exact A.madeOf (A.cons h hts) (Term.madeOf_apply f.code ts)
      | none => exact A.madeOf (A.cons h hts) (Term.madeOf_applyMethod c.code ts name)

theorem outcome_printed (e : Expr) :
    ∃ x : Except Failure Text, ∀ s, outcome (Lower.printed e : Lower σ Text) s = (x, s) := by
  unfold Lower.printed
  cases e.print with
  | error d => exact ⟨.error (.defect d), fun _ => rfl⟩
  | ok t => exact ⟨.ok t, fun _ => rfl⟩

/-- The text of an assigned value does not depend on the state, which is left alone. -/
theorem outcome_assignedText (e : Expr) :
    ∃ x : Except Failure Text, ∀ s, outcome (Expr.assignedText e : Lower σ Text) s = (x, s) := by
  obtain ⟨x, hx⟩ := outcome_printed (σ := σ) e
  cases x with
  | error f =>
      refine ⟨.error f, fun s => ?_⟩
      rw [Expr.assignedText, outcome_bind, hx]
  | ok t => cases e <;> exact ⟨.ok _, fun s => by rw [Expr.assignedText, outcome_bind, hx]; rfl⟩

/-- What is assigned to: a property of the receiver, or the property that a local stands for. -/
def Expr.target? (receiver : Lowered) (name : Text) : Option Lowered → Option Term
  | none => some (.prop {} receiver.code name)
  | some ⟨.prop note o field, _⟩ => some (.prop note o field)
  | some _ => none

theorem outcome_targetCode (host : Host σ) (place : Place) (name : Text) (v : Expr)
    (code : Lower σ Lowered) : ∃ f : Failure, ∀ s, outcome (Expr.targetCode host place name v code) s =
      match outcome code s with
      | (.error g, s₁) => (.error g, s₁)
      | (.ok c, s₁) =>
        let found := Expr.findLocal host c name s₁.host
        match Expr.target? c name (found.1.map (Found.made host.context)) with
        | some t => (.ok t, { s₁ with
            host := found.2
            usesContext := if found.1.isSome then s.usesContext else s₁.usesContext })
        | none => (.error f, { s₁ with host := found.2 }) := by
  obtain ⟨x, hx⟩ := outcome_assignedText (σ := σ) v
  refine ⟨match x with | .ok t => .inRange place.span (.readOnly t name) | .error f => f, fun s => ?_⟩
  rw [Expr.targetCode, outcome_bind, outcome_get]
  dsimp only
  rw [outcome_bind]
  rcases outcome code s with ⟨g | c, s₁⟩
  · rfl
  · dsimp only
    rw [Expr.findLocal]
    split
    · rw [outcome_bind, outcome_onHost]
      dsimp only
      rcases (host.lookup name).run s₁.host with ⟨_ | t, h⟩
      · rfl
      · dsimp only [Option.map_some]
        generalize t.made host.context = m
        obtain ⟨u, self⟩ := m
        cases u
        case prop => rfl
        all_goals
          dsimp only [Expr.target?]
          rw [outcome_bind, hx]
          cases x <;> rfl
    · rfl

theorem steady_targetCode {code : Lower σ Lowered} (hc : SteadyMade A code) (place : Place)
    (name : Text) (v : Expr) : Steady A (Expr.targetCode host place name v code) fun t used =>
      A.fits [t] used ∧ ∃ note o field, t = .prop note o field := by
  intro h d
  obtain ⟨report, htells, htold, hfits⟩ := hc h d
  obtain ⟨f, hrun⟩ := outcome_targetCode host place name v code
  cases report with
  | failed g h₁ =>
      refine ⟨.failed g h₁, fun s hs => ?_, htold, trivial⟩
      obtain ⟨s₁, hcode, hhost⟩ := htells s hs
      rw [hrun, hcode]
      exact ⟨s₁, rfl, hhost⟩
  | done c n used h₁ =>
      have htold := (A.told_findLocal c name h₁).trans htold
      cases htarget : Expr.target? c name
          ((Expr.findLocal host c name h₁).1.map (Found.made host.context)) with
      | none =>
          refine ⟨.failed f (Expr.findLocal host c name h₁).2, fun s hs => ?_, htold, trivial⟩
          obtain ⟨s₁, hcode, rfl, -, -⟩ := htells s hs
          rw [hrun, hcode]
          dsimp only
          rw [htarget]
          exact ⟨_, rfl, rfl⟩
      | some t =>
          refine ⟨.done t n (if (Expr.findLocal host c name h₁).1.isSome then false else used)
            (Expr.findLocal host c name h₁).2, fun s hs => ?_, htold, ?_⟩
          · obtain ⟨s₁, hcode, rfl, hsettles, hused⟩ := htells s hs
            rw [hrun, hcode]
            dsimp only
            rw [htarget]
            refine ⟨_, rfl, rfl, hsettles, ?_⟩
            cases (Expr.findLocal host c name s₁.host).1 with
            | some t => exact (Bool.or_false _).symm
            | none => exact hused
          · cases hfound : (Expr.findLocal host c name h₁).1 with
            | none =>
                rw [hfound] at htarget
                cases htarget
                exact ⟨A.madeOf hfits (Term.madeOf_prop c.code name {}), {}, c.code, name, rfl⟩
            | some u =>
                rw [hfound] at htarget
                have hu := A.fits_findLocal hfound
                rw [Option.map_some] at htarget
                generalize u.made host.context = m at htarget hu
                obtain ⟨w, self⟩ := m
                cases w <;> cases htarget
                exact ⟨hu, _, _, _, rfl⟩

/-! #### Builtins and interpolations -/

theorem steady_builtin {p : Place} {kind : Builtin} {es : List Expr} {args : Lower σ (List Term)}
    (hpermits : A.permits (.builtin p kind es))
    (ha : Steady A args fun ts used => ts.length = es.length ∧ A.fits ts used) :
    SteadyCode A (do Lower.onHostE (host.builtin kind (← args))) := by
  refine steady_bind ha fun ts => ?_
  refine steady_mono (steady_onHostE (A.told_builtin kind ts)) ?_
  rintro t _ ⟨rfl, h, h', hrun⟩ used ⟨hlength, hfits⟩
  rw [Bool.or_false]
  exact A.builtin hpermits hlength hfits hrun

theorem steady_interpolate {texts : List Text} {es : List Expr} {args : Lower σ (List Term)}
    (htexts : texts.length = es.length + 1)
    (ha : Steady A args fun ts used => ts.length = es.length ∧ A.fits ts used) (range : Option Span) :
    SteadyCode A (do
      let values ← args
      match host.interpolate (.ofNat es.length :: Expr.interpolationArgs texts values) with
      | .ok t => return t
      | .error f => throw (f.locateRange range)) := by
  refine steady_bind ha fun ts => ?_
  split
  · next t ht =>
      refine steady_pure ?_
      rintro used ⟨hlength, hfits⟩
      obtain ⟨heads, hargs⟩ := Term.exists_madeOf_interpolationArgs (show ts.length < texts.length by omega)
      rw [Bool.or_false]
      exact A.interpolate (A.madeOf hfits ((Term.madeOf_ofValue (.int es.length)).append hargs)) ht
  · exact steady_throw _

end Steps

/-! ### The code of expressions -/

/-- Pins that are temporaries of the binding `b`. -/
def Pins.Of (b : Text) (pins : Pins) : Prop := ∀ t, some t ∈ pins → ∃ n, t = .ofVar (nameOf b n)

theorem Pins.Of.concat {pins : Pins} {pin : Option Term} (h : pins.Of b)
    (hpin : ∀ t, pin = some t → ∃ n, t = .ofVar (nameOf b n)) : Pins.Of b (pins ++ [pin]) := by
  intro t ht
  rcases List.mem_append.mp ht with ht | ht
  · exact h t ht
  · exact hpin t (List.mem_singleton.mp ht).symm

theorem Pins.of_nil : Pins.Of b [] := fun _ ht => absurd ht List.not_mem_nil

theorem Pins.Of.concat_none {pins : Pins} (h : pins.Of b) : Pins.Of b (pins ++ [none]) :=
  h.concat fun _ ht => absurd ht.symm (Option.some_ne_none _)

/-- The guards and the code of a spine are steady. -/
structure Spine.Steady (A : Account host b) (s : Spine σ) : Prop where
  guards : ∀ g ∈ s.guards, ∀ pins : Pins, pins.Of b → SteadyMade A (g.receiver pins)
  plain : ∀ pins : Pins, pins.Of b → SteadyMade A (s.plain pins)

namespace Spine

variable {A : Account host b}

theorem steady_leaf {code : Lower σ Term} (h : SteadyCode A code) : (leaf code).Steady A :=
  ⟨fun _ hg => (nomatch hg), fun _ _ => h.fresh⟩

theorem steady_guarded {access : Pins → Lower σ Lowered}
    (h : ∀ pins : Pins, pins.Of b → SteadyMade A (access pins)) :
    ∀ (gs : List (Guard σ)) (pins : Pins), pins.Of b →
    (∀ g ∈ gs, ∀ pins : Pins, pins.Of b → SteadyMade A (g.receiver pins)) →
    SteadyMade A (guarded access gs pins)
  | [], pins, hpins, _ => h pins hpins
  | g :: gs, pins, hpins, hgs => by
    obtain ⟨hg, hrest⟩ := List.forall_mem_cons.mp hgs
    rw [guarded]
    refine steady_bind (hg pins hpins) fun receiver => ?_
    split
    · change TemplateCompiler.Steady A (Lower.bracket
        (fun name => guarded access gs (pins ++ [some (Term.ofVar name)]))
        fun name (made : Lowered) =>
          (⟨Answers.guardCode (.set (.ofVar name) receiver.code) made.code, false⟩ : Lowered)) _
      refine steady_bracket (fun n => steady_guarded h gs _ (hpins.concat ?_) hrest) ?_
      · rintro t ⟨⟩
        exact ⟨n, rfl⟩
      · intro n code used' hcode used hreceiver
        exact A.guardCode (A.set n hreceiver) hcode
    · refine steady_map (steady_guarded h gs _ hpins.concat_none hrest) ?_
      intro code used' hcode used hreceiver
      exact A.guardCode hreceiver hcode

theorem Steady.made {s : Spine σ} (h : s.Steady A) : SteadyMade A s.made :=
  steady_guarded h.plain s.guards [] Pins.of_nil h.guards

theorem Steady.lower {s : Spine σ} (h : s.Steady A) : SteadyCode A s.lower := h.made.code

theorem Steady.pinned {s : Spine σ} (h : s.Steady A) {pins : Pins} (hpins : pins.Of b) :
    SteadyMade A (s.pinned pins) := by
  unfold Spine.pinned
  split
  · next t ht =>
      obtain ⟨n, rfl⟩ := hpins t (List.mem_of_getElem? ht)
      exact steady_pure (A.temporary n)
  · exact h.plain pins hpins

/-- A safe access over a spine guards the receiver, too. -/
theorem Steady.safeGuards {s : Spine σ} (h : s.Steady A) (r : Expr) :
    ∀ g ∈ s.safeGuards r, ∀ pins : Pins, pins.Of b → SteadyMade A (g.receiver pins) :=
  List.forall_mem_append.mpr ⟨h.guards, List.forall_mem_singleton.mpr h.plain⟩

end Spine

section Code

variable {A : Account host b}

/-- Two values, one after the other. -/
theorem SteadyCode.pair {p q : Lower σ Term} {g : Term → Term → Term} (hp : SteadyCode A p)
    (hq : SteadyCode A q) (h : ∀ t u used, A.fits [t, u] used → A.fits [g t u] used) :
    SteadyCode A (p >>= fun t => q >>= fun u => pure (g t u)) :=
  steady_bind hp fun t => steady_map hq fun u _ hu _ ht => h t u _ (A.cons ht hu)

mutual

theorem steady_spine : ∀ e : Expr, e.Every A.permits → (e.spine host).Steady A
  | .context p, _ => by
    rw [Expr.spine]
    exact ⟨fun _ hg => (nomatch hg), fun _ _ => steady_contextCode⟩
  | .read p r name, h => by
    have hr := steady_spine r h.2
    rw [Expr.spine]
    exact ⟨hr.guards, fun pins hpins => steady_readCode (hr.plain pins hpins) name⟩
  | .safeRead p r name, h => by
    have hr := steady_spine r h.2
    rw [Expr.spine]
    exact ⟨hr.safeGuards r, fun pins hpins => steady_readCode (hr.pinned hpins) name⟩
  | .index p o k, h => by
    have ho := steady_spine o h.2.1
    have hk := (steady_spine k h.2.2).lower
    rw [Expr.spine]
    refine ⟨ho.guards, fun pins hpins => SteadyCode.fresh ?_⟩
    refine steady_bind (ho.plain pins hpins) fun t => steady_map hk fun u _ hu _ ht => ?_
    exact A.madeOf (A.cons ht hu) (Term.madeOf_key t.code u {})
  | .method p r name args, h => by
    have hr := steady_spine r h.2.1
    have hargs := steady_mono (steady_lowerAll args h.2.2) fun _ _ h => h.2
    rw [Expr.spine]
    exact ⟨hr.guards, fun pins hpins =>
      (steady_methodCode hargs (hr.plain pins hpins) p r name).fresh⟩
  | .safeMethod p r name args, h => by
    have hr := steady_spine r h.2.1
    have hargs := steady_mono (steady_lowerAll args h.2.2) fun _ _ h => h.2
    rw [Expr.spine]
    exact ⟨hr.safeGuards r, fun pins hpins =>
      (steady_methodCode hargs (hr.pinned hpins) p r name).fresh⟩
  | .write p r name v, h => by
    have hr := (steady_spine r h.2.1).made
    have hv := (steady_spine v h.2.2).lower
    rw [Expr.spine]
    refine Spine.steady_leaf (steady_bind (steady_targetCode hr p name v) fun t => ?_)
    refine steady_map hv fun u used' hu used ht => ?_
    obtain ⟨ht, note, o, field, rfl⟩ := ht
    exact A.madeOf (A.cons ht hu) (Term.madeOf_operation _ _ .assign rfl _)
  | .indexWrite p o k v, h => by
    have ho := (steady_spine o h.2.1).lower
    have hk := (steady_spine k h.2.2.1).lower
    have hv := (steady_spine v h.2.2.2).lower
    rw [Expr.spine]
    refine Spine.steady_leaf (steady_bind ho fun t => steady_bind hk fun u => ?_)
    refine steady_map hv fun w used₃ hw used₂ hu used₁ ht => ?_
    have hkey := A.madeOf (A.cons ht hu) (Term.madeOf_key t u {})
    rw [← Bool.or_assoc]
    exact A.madeOf (A.cons hkey hw) (Term.madeOf_operation _ _ .assign rfl _)
  | .call p f args, h => by
    have hf := (steady_spine f h.2.1).lower
    have hargs := steady_lowerAll args h.2.2
    rw [Expr.spine]
    refine Spine.steady_leaf (steady_bind hargs fun ts => steady_map hf fun t used' ht used hts => ?_)
    -- the arguments are made first, but the code has the function first
    rw [Bool.or_comm]
    exact A.madeOf (A.cons ht hts.2) (Term.madeOf_apply t ts)
  | .conditional p c y n, h => by
    have hc := (steady_spine c h.2.1).lower
    have hy := (steady_spine y h.2.2.1).lower
    have hn := (steady_spine n h.2.2.2).lower
    rw [Expr.spine]
    refine Spine.steady_leaf (steady_bind hc fun t => steady_bind hy fun u => ?_)
    refine steady_map hn fun w used₃ hw used₂ hu used₁ ht => ?_
    exact A.madeOf (A.cons ht (A.cons hu hw)) (Term.madeOf_choose t u w)
  | .binary p o l r, h => by
    have hl := (steady_spine l h.2.1).lower
    have hr := (steady_spine r h.2.2).lower
    rw [Expr.spine]
    refine Spine.steady_leaf ?_
    split
    · exact steady_throw _
    · next op hop =>
        refine hl.pair hr fun t u _ htu => A.madeOf htu (Term.madeOf_operation t u op ?_ _)
        exact Operator.assigned?_of_ne (sourceOperator?_ne_assign hop) t
  | .not p e, h => by
    have he := (steady_spine e h.2).lower
    rw [Expr.spine]
    exact Spine.steady_leaf (steady_map he fun t _ ht => A.madeOf ht (Term.madeOf_negate t))
  | .present p e, h => by
    have he := (steady_spine e h.2).lower
    rw [Expr.spine]
    exact Spine.steady_leaf (steady_map he fun t _ ht => A.madeOf ht (Term.madeOf_assertPresent t))
  | .literal p v, _ => by
    rw [Expr.spine]
    exact Spine.steady_leaf (steady_pure (A.madeOf A.nil (Term.madeOf_ofValue v)))
  | .interpolation p texts es, h => by
    have hes := steady_lowerAll es h.2
    rw [Expr.spine]
    refine Spine.steady_leaf ?_
    by_cases htexts : texts.length = es.length + 1
    · rw [if_neg (not_not_intro htexts)]
      exact steady_interpolate htexts hes p.span
    · rw [if_pos htexts]
      exact steady_throw _
  | .builtin p kind args, h => by
    have hargs := steady_lowerAll args h.2
    rw [Expr.spine]
    exact Spine.steady_leaf (steady_builtin h.1 hargs)
  | .chain p es, _ => by
    rw [Expr.spine]
    exact Spine.steady_leaf (steady_bind (steady_printed _) fun _ => steady_throw _)
  | .quote p s t l, _ | .array p es, _ | .map p ks es, _ | .pipe p e name args, _ => by
    rw [Expr.spine]
    exact Spine.steady_leaf (steady_throw _)

theorem steady_lowerAll : ∀ es : List Expr, Expr.EveryAll A.permits es →
    Steady A (Expr.lowerAll host es) fun ts used => ts.length = es.length ∧ A.fits ts used
  | [], _ => by
    rw [Expr.lowerAll]
    exact steady_pure ⟨rfl, A.nil⟩
  | e :: es, h => by
    have he := (steady_spine e h.1).lower
    have hes := steady_lowerAll es h.2
    rw [Expr.lowerAll]
    refine steady_bind he fun t => steady_map hes fun ts used' hts used ht => ?_
    exact ⟨congrArg (· + 1) hts.1, A.cons ht hts.2⟩

end

theorem steady_lower {e : Expr} (h : e.Every A.permits) : SteadyCode A (e.lower host) :=
  (steady_spine e h).lower

mutual

theorem steady_lowerStatements : ∀ e : Expr, e.Every A.permits →
    Steady A (e.lowerStatements host) fun ss used => ∃ ts, ss = ts.map Stmt.ofTerm ∧ A.fits ts used
  | .chain p es, h => by
    rw [Expr.lowerStatements]
    exact steady_lowerAllStatements es h.2
  | .context p, _ | .interpolation p texts es, _ => by
    rw [Expr.lowerStatements]
    exact steady_bind (steady_printed _) fun _ => steady_throw _
  | .conditional .., h | .read .., h | .write .., h | .safeRead .., h | .index .., h | .indexWrite .., h
  | .method .., h | .safeMethod .., h | .call .., h | .binary .., h | .not .., h | .present .., h
  | .literal .., h | .array .., h | .map .., h | .pipe .., h | .quote .., h | .builtin .., h =>
    steady_map (steady_lower h) fun t _ ht => ⟨[t], rfl, ht⟩

theorem steady_lowerAllStatements : ∀ es : List Expr, Expr.EveryAll A.permits es →
    Steady A (Expr.lowerAllStatements host es) fun ss used =>
      ∃ ts, ss = ts.map Stmt.ofTerm ∧ A.fits ts used
  | [], _ => by
    rw [Expr.lowerAllStatements]
    exact steady_pure ⟨[], rfl, A.nil⟩
  | e :: es, h => by
    rw [Expr.lowerAllStatements]
    refine steady_bind (steady_lowerStatements e h.1) fun ss =>
      steady_map (steady_lowerAllStatements es h.2) fun ss' _ hss' _ hss => ?_
    obtain ⟨ts, rfl, hts⟩ := hss
    obtain ⟨ts', rfl, hts'⟩ := hss'
    exact ⟨ts ++ ts', List.map_append.symm, A.append hts hts'⟩

end

end Code

/-! ### Bindings -/

/-- What a report says of a binding: the host is told of a use of the context after a success. -/
def Report.Concludes (host : Host σ) (b : Text) (run : Except Failure (α × TemporaryStack) × σ) :
    Report σ α → Prop
  | done a n used h => ∃ stack : TemporaryStack, stack.binding = b ∧ stack.count = n ∧
      run = (.ok (a, stack), if used then (host.notify.run h).2 else h)
  | failed f h => run = (.error f, h)

theorem Reports.concludes {code : Lower σ α} {r : Report σ α} {h : σ} (hr : Reports b h 0 code r)
    (host : Host σ) : r.Concludes host b (outcome (lowerBinding host b code) h) := by
  have hstart := hr { host := h, temporaries := { binding := b } } ⟨rfl, rfl, rfl⟩
  rw [outcome_lowerBinding_eq]
  cases r with
  | failed f h' =>
      obtain ⟨final, hrun, rfl⟩ := hstart
      rw [hrun]
      rfl
  | done a n used h' =>
      obtain ⟨final, hrun, rfl, hsettles, hused⟩ := hstart
      have hdepth : final.temporaries.depth = 0 := by rw [TemporaryStack.depth, hsettles.live]; rfl
      refine ⟨final.temporaries, hsettles.binding, hsettles.count.trans (Nat.zero_max n), ?_⟩
      rw [hrun]
      dsimp only
      rw [if_neg (not_not_intro hdepth), hused]
      rfl

/-! ### Counting -/

/-- A step of a host, next to marks that it does not know of. -/
def beside {μ : Type} (step : StateM σ α) : StateM (σ × μ) α :=
  fun s => ((step.run s.1).1, (step.run s.1).2, s.2)

/-- The host, and how often it was told of a binding that uses the context. -/
def Host.counting (host : Host σ) : Host (σ × Nat) where
  context := host.context
  lookup name := beside (host.lookup name)
  notify := do
    beside host.notify
    modify fun s => (s.1, s.2 + 1)
  builtin kind ts := ExceptT.mk (beside (host.builtin kind ts).run)
  interpolate := host.interpolate

/-- Being told of a use counts once. -/
theorem counting_notify (host : Host σ) (used : Bool) (s : σ × Nat) :
    (if used then (host.counting.notify.run s).2 else s).2 = s.2 + used.toNat := by
  cases used <;> rfl

/-- The account that says nothing of code. -/
def Account.silent (host : Host σ) (b : Text) : Account host.counting b where
  told := Prod.snd
  told_lookup _ _ := rfl
  told_builtin _ _ _ := rfl
  fits _ _ := True
  nil := trivial
  append _ _ := trivial
  congr _ _ := trivial
  context := trivial
  found _ := trivial
  temporary _ := trivial
  permits _ := True
  builtin _ _ _ _ := trivial
  interpolate _ _ := trivial

end TemplateCompiler
