import TemplateCompiler.Proofs.Expr.Receivers
import TemplateCompiler.Proofs.Expr.Convertible
import TemplateCompiler.Proofs.Lowering.Failing

/-!
# Internal failures

An internal failure says that the compiler itself is wrong. Lowering what has code never fails in that
way: `Ordinary` steps fail for the input's sake only, or for the stack's, which is never wrong for a
resolver (`settled_lowerBinding`). Two kinds of text are read into what has no code:

* a handler with the bare receiver `this` for an item;
* a binding without a token, although it is not blank: an empty chain.

`internal_failures` : these, and no others, fail internally, unless what comes before them fails.
-/

namespace TemplateCompiler

def Failure.isInternal : Failure → Bool
  | error e => e.internal
  | defect _ => false

variable {σ α β : Type}

/-- The failures of a step are not internal, but for those of the stack of temporaries. -/
def Ordinary (p : Lower σ α) : Prop :=
  FailsOnly (fun f => f.isInternal = true → f.breaksStack = true) p

theorem allows_ordinary : Allows fun f => f.isInternal = true → f.breaksStack = true :=
  ⟨fun _ _ h => (nomatch h), fun _ h _ => h⟩

/-- A step fails internally, and not for the stack's sake. -/
def Blames (p : Lower σ α) (s : Lowering σ) : Prop :=
  ∃ f s', outcome p s = (.error f, s') ∧ f.isInternal = true ∧ f.breaksStack = false

theorem Ordinary.not_blames {p : Lower σ α} (h : Ordinary p) (s : Lowering σ) : ¬Blames p s := by
  rintro ⟨f, s', hrun, hinternal, hstack⟩
  rw [h s f s' hrun hinternal] at hstack
  cases hstack

/-- The first step blames, or it succeeds and the second one does. -/
theorem blames_bind {p : Lower σ β} {q : β → Lower σ α} {s : Lowering σ} :
    Blames (p >>= q) s ↔
      Blames p s ∨ ∃ a s', outcome p s = (.ok a, s') ∧ Blames (q a) s' := by
  unfold Blames
  rw [outcome_bind]
  rcases outcome p s with ⟨g | a, s₁⟩
  · simp
  · constructor
    · exact fun h => .inr ⟨a, s₁, rfl, h⟩
    · rintro (⟨f, s', hrun, -⟩ | ⟨b, s', hrun, h⟩)
      · cases hrun
      · cases hrun
        exact h

theorem not_blames_pure (a : α) (s : Lowering σ) : ¬Blames (pure a : Lower σ α) s :=
  (show Ordinary _ from failsOnly_pure a).not_blames s

/-! ### The code of expressions -/

section Code

variable {host : Host σ}

/-- What has code fails for the input's sake, or because a written value has no printed form. -/
theorem Expr.Plain.failsWithin (hhost : ∀ f, host.CanFail f → f.isInternal = false) {e : Expr} (h : e.Plain) :
    e.Every (Expr.FailsWithin host fun f => f.isInternal = true → f.breaksStack = true) := by
  refine Expr.Every.imp₂ (fun x hx _ => ?_) h h
  cases x with
  | chain | interpolation => cases hx.1
  | array | map | pipe => cases hx.2
  | binary => exact .inl hx.1
  | write => exact fun d _ hinternal => nomatch hinternal
  | builtin p kind es =>
      intro ts s f s' _ hrun hinternal
      rw [hhost f (.inl ⟨kind, ts, s, s', hrun⟩)] at hinternal
      cases hinternal
  | _ => trivial

theorem ordinary_interpolate (hhost : ∀ f, host.CanFail f → f.isInternal = false) (args : List Term)
    (range : Option Span) :
    Ordinary (match host.interpolate args with
      | .ok t => pure t
      | .error f => throw (f.locateRange range) : Lower σ Term) := by
  refine failsOnly_interpolate (fun args f h hinternal => ?_) args
  rw [hhost _ (.inr ⟨args, range, f, h, rfl⟩)] at hinternal
  cases hinternal

theorem ordinary_lower (hhost : ∀ f, host.CanFail f → f.isInternal = false) {e : Expr} (h : e.Plain) :
    Ordinary (e.lower host) := failsOnly_lower allows_ordinary (h.failsWithin hhost)

theorem ordinary_lowerStatements (hhost : ∀ f, host.CanFail f → f.isInternal = false) {e : Expr} (h : e.Plain)
    (hcontext : e.isContext = false) : Ordinary (e.lowerStatements host) :=
  failsOnly_lowerStatements allows_ordinary (h.failsWithin hhost) (fun p es heq => by cases heq; cases h.1.1)
    hcontext (h.isInterpolation_eq_false e)

end Code

/-! ### Expressions one after the other -/

/-- A step whose result is changed at the end. -/
theorem blames_map {p : Lower σ β} {g : β → α} {s : Lowering σ} :
    Blames (p >>= fun b => pure (g b)) s ↔ Blames p s := by
  rw [blames_bind]
  refine or_iff_left ?_
  rintro ⟨b, s', -, h⟩
  exact not_blames_pure _ _ h

/-- Expressions are lowered from left to right. The first one that is bad is to blame, if those before it
do not fail. -/
theorem blames_sequence_iff {step : Expr → Lower σ β} {run : List Expr → Lower σ α} {join : β → α → α}
    {bad : Expr → Bool} {start : α} (hnil : run [] = pure start)
    (hcons : ∀ e es, run (e :: es) = step e >>= fun b => run es >>= fun a => pure (join b a)) :
    ∀ {es : List Expr}, (∀ x ∈ es, (bad x = true ∧ ∀ s, Blames (step x) s) ∨ Ordinary (step x)) →
    ∀ s, Blames (run es) s ↔ ∃ before x after, es = before ++ x :: after ∧ bad x = true ∧
      (∀ s, Blames (step x) s) ∧ ∃ a s', outcome (run before) s = (.ok a, s')
  | [], _, s => by
    rw [hnil]
    refine iff_of_false (not_blames_pure _ _) ?_
    rintro ⟨before, x, after, heq, -⟩
    exact List.append_ne_nil_of_right_ne_nil before (List.cons_ne_nil x after) heq.symm
  | e :: es, h, s => by
    obtain ⟨he, hes⟩ := List.forall_mem_cons.mp h
    have ih := blames_sequence_iff hnil hcons hes
    rw [hcons, blames_bind]
    constructor
    · rintro (hblame | ⟨b, s₁, hstep, hrest⟩)
      · rcases he with ⟨hbad, hall⟩ | hordinary
        · refine ⟨[], e, es, rfl, hbad, hall, start, s, ?_⟩
          rw [hnil, outcome_pure]
        · exact absurd hblame (hordinary.not_blames s)
      · obtain ⟨before, x, after, rfl, hbad, hall, a, s', hrun⟩ := (ih s₁).mp (blames_map.mp hrest)
        refine ⟨e :: before, x, after, rfl, hbad, hall, join b a, s', ?_⟩
        rw [hcons]
        exact outcome_bind_ok.mpr ⟨b, s₁, hstep, outcome_bind_ok.mpr ⟨a, s', hrun, rfl⟩⟩
    · rintro ⟨before, x, after, heq, hbad, hall, a, s', hrun⟩
      rcases List.cons_eq_append_iff.mp heq with ⟨rfl, hx⟩ | ⟨before', rfl, hes'⟩
      · obtain ⟨rfl, -⟩ := List.cons_eq_cons.mp hx
        exact .inl (hall s)
      · rw [hcons] at hrun
        obtain ⟨b, s₁, hstep, hrun⟩ := outcome_bind_ok.mp hrun
        obtain ⟨a', s₂, hrun, -⟩ := outcome_bind_ok.mp hrun
        refine .inr ⟨b, s₁, hstep, blames_map.mpr ((ih s₁).mpr ?_)⟩
        exact ⟨before', x, after, hes', hbad, hall, a', s₂, hrun⟩

section Sequences

variable {host : Host σ}

/-- A chain without items has no code. -/
theorem blames_lower_of_isBlank {e : Expr} (h : e.isBlank = true) (s : Lowering σ) :
    Blames (e.lower host) s := by
  cases e with
  | chain p es =>
      cases es with
      | nil =>
          rw [Expr.lower, Expr.spine]
          exact ⟨_, _, rfl, rfl, rfl⟩
      | cons => cases h
  | _ => cases h

theorem blames_lowerStatements_of_isContext {e : Expr} (h : e.isContext = true) (s : Lowering σ) :
    Blames (e.lowerStatements host) s := by
  cases e with
  | context p =>
      rw [Expr.lowerStatements]
      exact ⟨_, _, rfl, rfl, rfl⟩
  | _ => cases h

/-- Expressions fail internally at one that is blank, if those before it do not fail. -/
theorem blames_lowerAll_iff (hhost : ∀ f, host.CanFail f → f.isInternal = false) {es : List Expr}
    (h : ∀ x ∈ es, x.isBlank = true ∨ x.Plain) (s : Lowering σ) :
    Blames (Expr.lowerAll host es) s ↔ ∃ before x after, es = before ++ x :: after ∧ x.isBlank = true ∧
      ∃ ts s', outcome (Expr.lowerAll host before) s = (.ok ts, s') := by
  have hkind : ∀ x ∈ es, (x.isBlank = true ∧ ∀ s, Blames (x.lower host) s) ∨ Ordinary (x.lower host) :=
    fun x hx => (h x hx).imp (fun hblank => ⟨hblank, blames_lower_of_isBlank hblank⟩)
      (ordinary_lower hhost)
  have hnil : Expr.lowerAll host [] = pure [] := by rw [Expr.lowerAll]
  have hcons : ∀ e es, Expr.lowerAll host (e :: es) =
      e.lower host >>= fun t => Expr.lowerAll host es >>= fun ts => pure (t :: ts) := fun e es => by
    rw [Expr.lowerAll]
    rfl
  rw [blames_sequence_iff hnil hcons hkind s]
  constructor
  · rintro ⟨before, x, after, heq, hblank, -, hrun⟩
    exact ⟨before, x, after, heq, hblank, hrun⟩
  · rintro ⟨before, x, after, heq, hblank, hrun⟩
    exact ⟨before, x, after, heq, hblank, blames_lower_of_isBlank hblank, hrun⟩

/-- The items of a handler fail internally at one that is the bare receiver, if those before it do not
fail. -/
theorem blames_lowerAllStatements_iff (hhost : ∀ f, host.CanFail f → f.isInternal = false) {es : List Expr}
    (h : ∀ x ∈ es, x.Plain) (s : Lowering σ) :
    Blames (Expr.lowerAllStatements host es) s ↔
      ∃ before x after, es = before ++ x :: after ∧ x.isContext = true ∧
        ∃ ss s', outcome (Expr.lowerAllStatements host before) s = (.ok ss, s') := by
  have hkind : ∀ x ∈ es, (x.isContext = true ∧ ∀ s, Blames (x.lowerStatements host) s) ∨
      Ordinary (x.lowerStatements host) := by
    intro x hx
    cases hcontext : x.isContext with
    | true => exact .inl ⟨rfl, blames_lowerStatements_of_isContext hcontext⟩
    | false => exact .inr (ordinary_lowerStatements hhost (h x hx) hcontext)
  have hnil : Expr.lowerAllStatements host [] = pure [] := by rw [Expr.lowerAllStatements]
  have hcons : ∀ e es, Expr.lowerAllStatements host (e :: es) =
      e.lowerStatements host >>= fun ss =>
        Expr.lowerAllStatements host es >>= fun more => pure (ss ++ more) := fun e es => by
    rw [Expr.lowerAllStatements]
  rw [blames_sequence_iff hnil hcons hkind s]
  constructor
  · rintro ⟨before, x, after, heq, hcontext, -, hrun⟩
    exact ⟨before, x, after, heq, hcontext, hrun⟩
  · rintro ⟨before, x, after, heq, hcontext, hrun⟩
    exact ⟨before, x, after, heq, hcontext, blames_lowerStatements_of_isContext hcontext, hrun⟩

end Sequences

/-! ### Bindings -/

def FailsInternally (p : Hosted σ α) (s : σ) : Prop :=
  ∃ f s', outcome p s = (.error f, s') ∧ f.isInternal = true

def Succeeds (p : Hosted σ α) (s : σ) : Prop := ∃ a s', outcome p s = (.ok a, s')

/-- A run that only changes its result at the end. -/
theorem failsInternally_map {p : Hosted σ β} {q : β → Hosted σ α} {s : σ}
    (hq : ∀ b s, Succeeds (q b) s) : FailsInternally (p >>= q) s ↔ FailsInternally p s := by
  unfold FailsInternally
  rw [outcome_bind]
  rcases outcome p s with ⟨f | b, s'⟩
  · constructor
    · rintro ⟨g, t, hg, hinternal⟩
      cases hg
      exact ⟨f, s', rfl, hinternal⟩
    · rintro ⟨g, t, hg, hinternal⟩
      cases hg
      exact ⟨f, s', rfl, hinternal⟩
  · obtain ⟨a, s'', hrun⟩ := hq b s'
    constructor
    · rintro ⟨f, t, hf, -⟩
      change outcome (q b) s' = _ at hf
      rw [hrun] at hf
      cases hf
    · rintro ⟨f, t, hf, -⟩
      cases hf

theorem succeeds_map {p : Hosted σ β} {q : β → Hosted σ α} {s : σ} (hq : ∀ b s, Succeeds (q b) s) :
    Succeeds (p >>= q) s ↔ Succeeds p s := by
  constructor
  · rintro ⟨a, s', h⟩
    obtain ⟨b, s₁, hrun, -⟩ := outcome_bind_ok.mp h
    exact ⟨b, s₁, hrun⟩
  · rintro ⟨b, s₁, hrun⟩
    obtain ⟨a, s', hq⟩ := hq b s₁
    exact ⟨a, s', outcome_bind_ok.mpr ⟨b, s₁, hrun, hq⟩⟩

section Bindings

variable {context : Term} {lookup : Text → StateM σ (Option Found)} {notify : StateM σ Unit}
  {limit : Int} {b : Text}

theorem isInternal_of_canFail_ofResolver {f : Failure}
    (h : (Host.ofResolver context lookup notify limit).CanFail f) : f.isInternal = false := by
  obtain ⟨n, rfl⟩ := Host.exists_of_canFail_ofResolver h
  rfl

/-- A binding fails internally, or succeeds, as its code does with an empty stack. -/
theorem lowerBinding_iff {post : Answers → Nat → Nat → α → Prop} {code : Lower σ α}
    (h : Makes (Host.ofResolverContract context lookup notify limit) b code post) (s : σ) :
    (FailsInternally (lowerBinding (Host.ofResolver context lookup notify limit) b code) s ↔
      Blames code { host := s, temporaries := { binding := b } }) ∧
    (Succeeds (lowerBinding (Host.ofResolver context lookup notify limit) b code) s ↔
      ∃ a s', outcome code { host := s, temporaries := { binding := b } } = (.ok a, s')) := by
  have hsettled := settled_lowerBinding h s
  unfold FailsInternally Succeeds Blames
  rw [outcome_lowerBinding_eq] at hsettled ⊢
  rcases hrun : outcome code { host := s, temporaries := { binding := b } } with ⟨f | a, final⟩
  · rw [hrun] at hsettled
    have hf : f.breaksStack = false := hsettled
    refine ⟨⟨?_, ?_⟩, ⟨?_, ?_⟩⟩
    · rintro ⟨g, s', hg, hinternal⟩
      cases hg
      exact ⟨f, final, rfl, hinternal, hf⟩
    · rintro ⟨g, s', hg, hinternal, -⟩
      cases hg
      exact ⟨f, final.host, rfl, hinternal⟩
    · rintro ⟨t, s', ht⟩
      cases ht
    · rintro ⟨t, s', ht⟩
      cases ht
  · rw [hrun] at hsettled
    dsimp only at hsettled ⊢
    split at hsettled
    · -- temporaries that are left live are the stack's failure
      cases hsettled
    · next hdepth =>
        rw [if_neg hdepth]
        refine ⟨⟨?_, ?_⟩, ⟨?_, ?_⟩⟩
        · rintro ⟨g, s', hg, -⟩
          cases hg
        · rintro ⟨g, s', hg, -⟩
          cases hg
        · rintro -
          exact ⟨a, final, rfl⟩
        · rintro -
          exact ⟨_, _, rfl⟩

theorem lowerProperty_failsInternally_iff (e : Expr) (simple : Bool) (s : σ) :
    FailsInternally (lowerProperty (Host.ofResolver context lookup notify limit) e b simple) s ↔
      FailsInternally (lowerBinding (Host.ofResolver context lookup notify limit) b
        (e.lower (Host.ofResolver context lookup notify limit))) s := by
  refine failsInternally_map ?_
  rintro ⟨t, stack⟩ u
  dsimp only
  split
  · exact ⟨_, u, rfl⟩
  · exact ⟨_, u, rfl⟩

/-- The code of a value is that of its parts one after the other. -/
theorem blames_lower_iff {host : Host σ} (hhost : ∀ f, host.CanFail f → f.isInternal = false) {e : Expr}
    (h : e.Valued Expr.Plain) (s : Lowering σ) :
    Blames (e.lower host) s ↔ Blames (Expr.lowerAll host e.values) s := by
  have hsingle : ∀ x : Expr, Blames (x.lower host) s ↔ Blames (Expr.lowerAll host [x]) s := by
    intro x
    rw [Expr.lowerAll, Expr.lowerAll]
    exact blames_map.symm
  cases e with
  | interpolation p texts es =>
      have htexts := h.texts p texts es rfl
      change _ ↔ Blames (Expr.lowerAll host es) s
      rw [Expr.lower, Expr.spine, Spine.lower_leaf]
      change Blames (if texts.length ≠ es.length + 1 then _ else _) s ↔ _
      rw [if_neg (not_not_intro htexts), blames_bind]
      refine or_iff_left ?_
      rintro ⟨values, s', -, hrest⟩
      exact (ordinary_interpolate hhost _ p.span).not_blames s' hrest
  | _ => exact hsingle _

/-- A value fails internally at a part that is blank, if those before it do not fail. -/
theorem lowerProperty_blank_iff {e : Expr} (h : e.Valued Expr.Plain) (simple : Bool) (s : σ) :
    FailsInternally (lowerProperty (Host.ofResolver context lookup notify limit) e b simple) s ↔
      ∃ before x after, e.values = before ++ x :: after ∧ x.isBlank = true ∧
        Succeeds (lowerBinding (Host.ofResolver context lookup notify limit) b
          (Expr.lowerAll (Host.ofResolver context lookup notify limit) before)) s := by
  have hhost : ∀ f, (Host.ofResolver context lookup notify limit).CanFail f → f.isInternal = false :=
    fun _ => isInternal_of_canFail_ofResolver
  rw [lowerProperty_failsInternally_iff, (lowerBinding_iff (makes_lower e) s).1,
    blames_lower_iff hhost h, blames_lowerAll_iff hhost h.values]
  refine exists_congr fun before => exists_congr fun x => exists_congr fun after => ?_
  rw [(lowerBinding_iff (makes_lowerAll before) s).2]

/-- The statements of an expression are those of its items one after the other. -/
theorem lowerStatements_iff {host : Host σ} (e : Expr) (s : Lowering σ) :
    (Blames (e.lowerStatements host) s ↔ Blames (Expr.lowerAllStatements host e.parts) s) ∧
    ((∃ ss s', outcome (e.lowerStatements host) s = (.ok ss, s')) ↔
      ∃ ss s', outcome (Expr.lowerAllStatements host e.parts) s = (.ok ss, s')) := by
  have hsingle : ∀ x : Expr, Expr.lowerAllStatements host [x] =
      x.lowerStatements host >>= fun ss => pure (ss ++ []) := by
    intro x
    rw [Expr.lowerAllStatements, Expr.lowerAllStatements]
    rfl
  have hiff : ∀ x : Expr,
      (Blames (x.lowerStatements host) s ↔ Blames (Expr.lowerAllStatements host [x]) s) ∧
      ((∃ ss s', outcome (x.lowerStatements host) s = (.ok ss, s')) ↔
        ∃ ss s', outcome (Expr.lowerAllStatements host [x]) s = (.ok ss, s')) := by
    intro x
    rw [hsingle]
    refine ⟨blames_map.symm, ⟨?_, ?_⟩⟩
    · rintro ⟨ss, s', hrun⟩
      exact ⟨ss ++ [], s', outcome_bind_ok.mpr ⟨ss, s', hrun, rfl⟩⟩
    · rintro ⟨ss, s', hrun⟩
      obtain ⟨ss', s₁, hrun, -⟩ := outcome_bind_ok.mp hrun
      exact ⟨ss', s₁, hrun⟩
  cases e with
  | chain p es =>
      rw [Expr.lowerStatements, Expr.parts]
      exact ⟨Iff.rfl, Iff.rfl⟩
  | _ => exact hiff _

theorem parts_written (e : Expr) : e.written.parts = e.parts.map Expr.written := by
  cases e with
  | chain p es => exact Expr.rebuildAll_eq_map _ es
  | _ => rfl

/-- A handler without pipes fails internally, or succeeds, as its items do with their collections
replaced. -/
theorem lowerAction_iff {e : Expr} (he : e.Every fun x => x.isPipe = false) (s : σ) :
    (FailsInternally (lowerAction (Host.ofResolver context lookup notify limit) e b) s ↔
      Blames (Expr.lowerAllStatements (Host.ofResolver context lookup notify limit)
        (e.parts.map Expr.written)) { host := s, temporaries := { binding := b } }) ∧
    (Succeeds (lowerAction (Host.ofResolver context lookup notify limit) e b) s ↔
      ∃ ss s', outcome (Expr.lowerAllStatements (Host.ofResolver context lookup notify limit)
        (e.parts.map Expr.written)) { host := s, temporaries := { binding := b } } = (.ok ss, s')) := by
  have hbody : actionBody (Host.ofResolver context lookup notify limit) e b =
      lowerBinding (Host.ofResolver context lookup notify limit) b
        (e.written.lowerStatements (Host.ofResolver context lookup notify limit)) := by
    rw [actionBody, Expr.replaceBuiltins_eq_ok e he]
  have hmade := lowerBinding_iff (b := b) (makes_lowerStatements (b := b)
    (C := Host.ofResolverContract context lookup notify limit) e.written) s
  obtain ⟨hblames, hruns⟩ := @lowerStatements_iff _ (Host.ofResolver context lookup notify limit) e.written
    { host := s, temporaries := { binding := b } }
  rw [← parts_written, ← hblames, ← hruns, ← hmade.1, ← hmade.2, ← hbody]
  have hkeep : ∀ (body : List Stmt × TemporaryStack) (u : σ), Succeeds (pure (withPreventDefault b
      (body.2.declarations ++ body.1)) : Hosted σ ActionCode) u := fun body u => ⟨_, u, rfl⟩
  exact ⟨failsInternally_map hkeep, succeeds_map hkeep⟩

theorem no_pipe_of_parts {e : Expr} (h : ∀ x ∈ e.parts, x.Every fun y => y.isPipe = false) :
    e.Every fun y => y.isPipe = false := by
  cases e with
  | chain p es => exact ⟨rfl, Expr.everyAll_iff.mpr h⟩
  | _ => exact h _ List.mem_cons_self

/-- A handler fails internally at an item that is the bare receiver, if those before it do not fail. -/
theorem lowerAction_context_iff {e : Expr}
    (h : ∀ x ∈ e.parts, x.Coded ∧ x.Every fun y => y.isPipe = false) (s : σ) :
    FailsInternally (lowerAction (Host.ofResolver context lookup notify limit) e b) s ↔
      ∃ before p after, e.parts = before ++ .context p :: after ∧
        Succeeds (lowerAction (Host.ofResolver context lookup notify limit) (.chain p before) b) s := by
  have hhost : ∀ f, (Host.ofResolver context lookup notify limit).CanFail f → f.isInternal = false :=
    fun _ => isInternal_of_canFail_ofResolver
  have hplain : ∀ y ∈ e.parts.map Expr.written, y.Plain := by
    intro y hy
    obtain ⟨x, hx, rfl⟩ := List.mem_map.mp hy
    exact Expr.plain_of_replaceBuiltins x (h x hx).1 (Expr.replaceBuiltins_eq_ok x (h x hx).2)
  rw [(lowerAction_iff (no_pipe_of_parts fun x hx => (h x hx).2) s).1,
    blames_lowerAllStatements_iff hhost hplain]
  have hbefore : ∀ {before x after} (p : Place), e.parts = before ++ x :: after →
      (Succeeds (lowerAction (Host.ofResolver context lookup notify limit) (.chain p before) b) s ↔
        ∃ ss s', outcome (Expr.lowerAllStatements (Host.ofResolver context lookup notify limit)
          (before.map Expr.written)) { host := s, temporaries := { binding := b } } = (.ok ss, s')) := by
    intro before x after p heq
    refine (lowerAction_iff (no_pipe_of_parts (e := .chain p before) fun y hy => ?_) s).2
    exact (h y (by rw [heq]; exact List.mem_append_left _ hy)).2
  constructor
  · rintro ⟨before', x', after', heq, hcontext, hrun⟩
    obtain ⟨before, rest, hparts, rfl, hrest⟩ := List.map_eq_append_iff.mp heq
    obtain ⟨x, after, rfl, rfl, rfl⟩ := List.map_eq_cons_iff.mp hrest
    rw [Expr.isContext_written] at hcontext
    cases x with
    | context p => exact ⟨before, p, after, hparts, (hbefore p hparts).mpr hrun⟩
    | _ => cases hcontext
  · rintro ⟨before, p, after, heq, hsucceeds⟩
    refine ⟨before.map Expr.written, .context p, after.map Expr.written, ?_, rfl, ?_⟩
    · rw [heq, List.map_append, List.map_cons]
      rfl
    · exact (hbefore p heq).mp hsucceeds

theorem isInternal_of_replaceBuiltins {e : Expr} {f : Failure}
    (h : e.replaceBuiltins BuiltinFactory.literal = .error f) : f.isInternal = false := by
  refine Expr.errorsIn_rebuildM (Q := fun f => f.isInternal = false) (fun x d hd => ?_) e f h
  cases x with
  | pipe p e name args =>
      cases hd
      rfl
  | _ => cases hd

end Bindings

/-- A text that is read fails internally in two cases only. A handler does at an item that is the bare
receiver, and a value at a part that is blank, unless what comes before it fails in another way. The
pipes of a value are never at fault. -/
theorem internal_failures (context : Term) (lookup : Text → StateM σ (Option Found))
    (notify : StateM σ Unit) (limit : Int) (input location : Text) (absolute : Int) (b : Text)
    (simple : Bool) (s : σ) :
    (∀ e, parseAction input location absolute = .ok e →
      (FailsInternally (lowerAction (.ofResolver context lookup notify limit) e b) s ↔
        ∃ before p after, e.parts = before ++ .context p :: after ∧
          Succeeds (lowerAction (.ofResolver context lookup notify limit) (.chain p before) b) s)) ∧
    ∀ e, (parseBinding input location absolute = .ok e ∨
        parseInterpolation input location absolute = some (.ok e)) →
      (∀ f, e.replaceBuiltins BuiltinFactory.literal = .error f → f.isInternal = false) ∧
      ∀ e', e.replaceBuiltins BuiltinFactory.literal = .ok e' →
        (FailsInternally (lowerProperty (.ofResolver context lookup notify limit) e' b simple) s ↔
          ∃ before x after, e'.values = before ++ x :: after ∧ x.isBlank = true ∧
            Succeeds (lowerBinding (.ofResolver context lookup notify limit) b
              (Expr.lowerAll (.ofResolver context lookup notify limit) before)) s) := by
  refine ⟨fun e he => lowerAction_context_iff (parts_of_parseAction he) s, fun e he => ?_⟩
  have hvalued : e.Valued Expr.Coded := he.elim valued_of_parseBinding valued_of_parseInterpolation
  exact ⟨fun f => isInternal_of_replaceBuiltins, fun e' he' =>
    lowerProperty_blank_iff (hvalued.plain he') simple s⟩

namespace Sample

/-- The handler `this` fails internally, and so does a binding of a control character. -/
theorem this_fails_internally :
    (∃ e, parseAction "this" [] 0 = .ok e ∧ FailsInternally (lowerAction plainHost e "0") ()) ∧
    ∃ e e', parseBinding [1] [] 0 = .ok e ∧ e.replaceBuiltins BuiltinFactory.literal = .ok e' ∧
      FailsInternally (lowerProperty plainHost e' "0" true) () :=
  ⟨⟨_, rfl, _, _, rfl, rfl⟩, _, _, rfl, rfl, _, _, rfl, rfl⟩

/-- Reading a member of `this` does not fail internally. -/
theorem member_not_fails_internally :
    ∃ e, parseAction "this.a" [] 0 = .ok e ∧ ¬FailsInternally (lowerAction plainHost e "0") () := by
  refine ⟨_, rfl, fun h => ?_⟩
  obtain ⟨before, p, after, heq, -⟩ := ((internal_failures (.ofVar "ctx") (fun _ => pure none) (pure ()) 9
    "this.a" [] 0 "0" true ()).1 _ rfl).mp h
  rcases List.cons_eq_append_iff.mp heq with ⟨-, hx⟩ | ⟨rest, -, hx⟩
  · cases hx
  · exact List.append_ne_nil_of_right_ne_nil rest (List.cons_ne_nil _ after) hx.symm

end Sample

end TemplateCompiler
