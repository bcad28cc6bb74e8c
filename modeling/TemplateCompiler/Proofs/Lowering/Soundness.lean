import TemplateCompiler.Proofs.Run
import TemplateCompiler.Proofs.Lowering.Derivation
import TemplateCompiler.Lowering.Binding

/-!
# Lowering gives derivable code

A run of `Expr.lower` that succeeds gives code that the host's answers derive, needs as many
variables as the derivation says, and leaves the stack of temporaries as it was. A run that fails
does not fail for the stack's sake.

A host has a state, so that what it says may depend on when it is asked. A `Contract` says what can be
relied upon: what is true of its state (`holds`), how it grows (`later`), and that what it said is true of
every later state (`at`).

`Makes` is what is known of every step of a lowering; the `makes_` lemmas give it for each way a step
is put together, and `makes_lower` for the code of an expression.
-/

namespace TemplateCompiler

/-- Whether a cause is a stack of temporaries that was used in a wrong way. -/
def Cause.breaksStack : Cause → Bool
  | releasedOutOfOrder _ | usedAfterRelease _ | unreleased _ _ => true
  | _ => false

def Failure.breaksStack : Failure → Bool
  | error e => e.cause.breaksStack
  | defect _ => false

/-- What is written out is written out in full. -/
theorem Builtin.eq_written_of_write {kind : Builtin} {args : List Term} {t : Term}
    (h : kind.write args = .ok t) : t = kind.written args := by
  unfold Builtin.write at h
  split at h
  · cases h
  · cases h
    rfl

variable {σ α β : Type}

def Host.CanFail (host : Host σ) (f : Failure) : Prop :=
  (∃ kind args s s', outcome (host.builtin kind args) s = (.error f, s')) ∨
    ∃ args range g, host.interpolate args = .error g ∧ f = g.locateRange range

/-- The answers of a host, given what is known of locals and builtins. -/
def Host.answers (host : Host σ) (lookup : Text → Option Found → Prop)
    (builtin : Builtin → List Term → Term → Prop) : Answers where
  context := host.context
  lookup
  builtin
  interpolate args t := host.interpolate args = .ok t

/-- What can be relied upon in the answers of a host whose state changes. -/
structure Contract (host : Host σ) where
  /-- What is true of the state of the host. -/
  holds : σ → Prop
  /-- How the state of the host may change. -/
  later : σ → σ → Prop
  refl : ∀ {s}, holds s → later s s
  trans : ∀ {s t u}, later s t → later t u → later s u
  holds_later : ∀ {s u}, later s u → holds u
  /-- What is known of the local of a name in a state. -/
  lookup : σ → Text → Option Found → Prop
  /-- What is known of the code of a builtin in a state. -/
  builtin : σ → Builtin → List Term → Term → Prop
  later_lookup : ∀ {s} name, holds s → later s ((host.lookup name).run s).2
  lookup_later : ∀ {s u} name, holds s → later ((host.lookup name).run s).2 u →
    lookup u name ((host.lookup name).run s).1
  later_builtin : ∀ {kind args s t s' b d n es}, holds s →
    (host.answers (lookup s) (builtin s)).Codes b d n es args →
    outcome (host.builtin kind args) s = (.ok t, s') → later s s'
  builtin_later : ∀ {kind args s t s' u b d n es}, holds s →
    (host.answers (lookup s) (builtin s)).Codes b d n es args →
    outcome (host.builtin kind args) s = (.ok t, s') → later s' u → builtin u kind args t

def Contract.at {host : Host σ} (C : Contract host) (u : σ) : Answers :=
  host.answers (C.lookup u) (C.builtin u)

/-- A stack after a step that needed the first `n` variables: the same temporaries are live. -/
structure TemporaryStack.Settles (s s' : TemporaryStack) (n : Nat) : Prop where
  binding : s'.binding = s.binding
  live : s'.live = s.live
  count : s'.count = max s.count n

theorem TemporaryStack.Settles.refl (s : TemporaryStack) : s.Settles s 0 :=
  ⟨rfl, rfl, (Nat.max_zero _).symm⟩

theorem TemporaryStack.Settles.trans {s t u : TemporaryStack} {n m : Nat} (h : s.Settles t n)
    (h' : t.Settles u m) : s.Settles u (max n m) :=
  ⟨h'.binding.trans h.binding, h'.live.trans h.live, by rw [h'.count, h.count, Nat.max_assoc]⟩

/-- What is known of a step of lowering the binding `b`: after a success, `post` holds of the answers
in every later state, the number of live temporaries, the number of variables needed, and the result. -/
def Makes {host : Host σ} (C : Contract host) (b : Text) (p : Lower σ α)
    (post : Answers → Nat → Nat → α → Prop) : Prop :=
  ∀ s : Lowering σ, C.holds s.host → s.temporaries.binding = b →
    match outcome p s with
    | (.ok a, s') => C.later s.host s'.host ∧ ∃ n, s.temporaries.Settles s'.temporaries n ∧
        ∀ u, C.later s'.host u → post (C.at u) s.temporaries.depth n a
    | (.error f, _) => f.breaksStack → host.CanFail f

theorem outcome_onHost (step : StateM σ α) (s : Lowering σ) :
    outcome (Lower.onHost step) s = (.ok (step.run s.host).1, { s with host := (step.run s.host).2 }) :=
  rfl

theorem outcome_onHostE (step : ExceptT Failure (StateM σ) α) (s : Lowering σ) :
    outcome (Lower.onHostE step) s =
      ((outcome step s.host).1, { s with host := (outcome step s.host).2 }) := by
  rw [Lower.onHostE, outcome_bind, outcome_onHost]
  rcases h : outcome step s.host with ⟨f | a, s'⟩
  · have : StateT.run (ExceptT.run step) s.host = (.error f, s') := h
    dsimp only
    rw [this]
    rfl
  · have : StateT.run (ExceptT.run step) s.host = (.ok a, s') := h
    dsimp only
    rw [this]
    rfl

theorem outcome_release {t : Temporary} {below : List Temporary} {s : Lowering σ}
    (h : s.temporaries.live = t :: below) :
    outcome (Lower.release t) s =
      (.ok (), { s with temporaries := { s.temporaries with live := below } }) := by
  have hrelease : s.temporaries.release t = .ok { s.temporaries with live := below } := by
    rw [TemporaryStack.release, h]
    exact if_pos rfl
  rw [Lower.release, outcome_bind, outcome_get]
  dsimp only
  rw [hrelease]
  rfl

section Rules

variable {host : Host σ} {C : Contract host} {b : Text} {post : Answers → Nat → Nat → α → Prop}

theorem makes_pure {a : α} (h : ∀ A d, post A d 0 a) : Makes C b (pure a) post := by
  intro s hholds _
  rw [outcome_pure]
  exact ⟨C.refl hholds, 0, .refl _, fun u _ => h _ _⟩

theorem makes_throw {f : Failure} (h : f.breaksStack = false) : Makes C b (throw f) post := by
  intro s _ _
  rw [outcome_throw]
  intro hf
  rw [h] at hf
  cases hf

/-- One step after the other; what is known of the first is at hand for the second. -/
theorem makes_bind {p : Lower σ β} {q : β → Lower σ α} {mid : Answers → Nat → Nat → β → Prop}
    (hp : Makes C b p mid)
    (hq : ∀ a, Makes C b (q a) fun A d m t => ∀ n, mid A d n a → post A d (max n m) t) :
    Makes C b (p >>= q) post := by
  intro s hholds hs
  have h := hp s hholds hs
  rw [outcome_bind]
  rcases hps : outcome p s with ⟨f | a, s₁⟩
  · rw [hps] at h
    exact h
  · rw [hps] at h
    obtain ⟨hle, n, hn, hmid⟩ := h
    have h := hq a s₁ (C.holds_later hle) (hn.binding.trans hs)
    dsimp only
    rcases hqs : outcome (q a) s₁ with ⟨f | t, s₂⟩
    · rw [hqs] at h
      exact h
    · rw [hqs] at h
      obtain ⟨hle', m, hm, hpost⟩ := h
      refine ⟨C.trans hle hle', max n m, hn.trans hm, fun u hu => ?_⟩
      have hdepth : s₁.temporaries.depth = s.temporaries.depth := by
        rw [TemporaryStack.depth, hn.live, TemporaryStack.depth]
      have := hpost u hu n
      rw [hdepth] at this
      exact this (hmid u (C.trans hle' hu))

theorem makes_mono {p : Lower σ α} {mid : Answers → Nat → Nat → α → Prop} (hp : Makes C b p mid)
    (h : ∀ A d n a, mid A d n a → post A d n a) : Makes C b p post := by
  intro s hholds hs
  have := hp s hholds hs
  rcases hps : outcome p s with ⟨f | a, s'⟩
  · rw [hps] at this
    exact this
  · rw [hps] at this
    obtain ⟨hle, n, hn, hmid⟩ := this
    exact ⟨hle, n, hn, fun u hu => h _ _ _ _ (hmid u hu)⟩

/-- The answers that are known of a host have its context. -/
theorem makes_atHost {p : Lower σ α}
    (h : Makes C b p fun A d n a => A.context = host.context → post A d n a) : Makes C b p post := by
  intro s hholds hs
  have := h s hholds hs
  rcases hps : outcome p s with ⟨f | a, s'⟩
  · rw [hps] at this
    exact this
  · rw [hps] at this
    obtain ⟨hle, n, hn, hpost⟩ := this
    exact ⟨hle, n, hn, fun u hu => hpost u hu rfl⟩

/-- A first step that needs no variables. -/
theorem makes_bind_zero {p : Lower σ β} {q : β → Lower σ α} {mid : Answers → β → Prop}
    (hp : Makes C b p fun A _ n a => n = 0 ∧ mid A a)
    (hq : ∀ a, Makes C b (q a) fun A d m t => mid A a → post A d m t) :
    Makes C b (p >>= q) post := by
  refine makes_bind hp fun a => makes_mono (hq a) fun A d m t ht n hn => ?_
  rw [hn.1, Nat.zero_max]
  exact ht hn.2

/-- A step whose result is changed at the end. -/
theorem makes_map {p : Lower σ β} {g : β → α} {mid : Answers → Nat → Nat → β → Prop}
    (hp : Makes C b p mid) (h : ∀ A d n a, mid A d n a → post A d n (g a)) :
    Makes C b (p >>= fun a => pure (g a)) post := by
  refine makes_bind hp fun a => makes_pure fun A d n hn => ?_
  rw [Nat.max_zero]
  exact h A d n a hn

/-- A step that reads the state. -/
theorem makes_get {q : Lowering σ → Lower σ α} (h : ∀ s, Makes C b (q s) post) :
    Makes C b (get >>= q) post := by
  intro s hholds hs
  rw [outcome_bind, outcome_get]
  exact h s s hholds hs

/-- A step that notes whether the context is used. -/
theorem makes_modify {q : Lower σ α} (used : Bool) (h : Makes C b q post) :
    Makes C b (modify (fun s => { s with usesContext := used }) >>= fun _ => q) post := by
  intro s hholds hs
  rw [outcome_bind, outcome_modify]
  exact h { s with usesContext := used } hholds hs

theorem makes_lookup (name : Text) :
    Makes C b (Lower.onHost (host.lookup name)) fun A _ n found =>
      n = 0 ∧ A.lookup name found := by
  intro s hholds _
  exact ⟨C.later_lookup name hholds, 0, .refl _, fun u hu => ⟨rfl, C.lookup_later name hholds hu⟩⟩

/-- Asking the host for the code of a builtin, after its arguments were lowered. -/
theorem makes_builtin (kind : Builtin) {es : List Expr} {args : Lower σ (List Term)}
    (hargs : Makes C b args fun A d n ts => A.Codes b d n es ts) :
    Makes C b (do Lower.onHostE (host.builtin kind (← args))) fun A d n t =>
      ∃ ts, A.Codes b d n es ts ∧ A.builtin kind ts t := by
  intro s hholds hs
  have h := hargs s hholds hs
  rw [outcome_bind]
  rcases hrun : outcome args s with ⟨f | ts, s₁⟩
  · rw [hrun] at h
    exact h
  · rw [hrun] at h
    obtain ⟨hle, n, hn, hcodes⟩ := h
    have hholds₁ := C.holds_later hle
    dsimp only
    rw [outcome_onHostE]
    rcases hbuiltin : outcome (host.builtin kind ts) s₁.host with ⟨f | t, u₁⟩
    · exact fun _ => .inl ⟨kind, ts, _, _, hbuiltin⟩
    · have hts := hcodes s₁.host (C.refl hholds₁)
      have hle₁ := C.later_builtin hholds₁ hts hbuiltin
      refine ⟨C.trans hle hle₁, n, hn, fun u hu => ⟨ts, hcodes u (C.trans hle₁ hu), ?_⟩⟩
      exact C.builtin_later hholds₁ hts hbuiltin hu

/-- A temporary is live while `q` runs, and released after it. -/
theorem makes_bracket {q : Temporary → Lower σ β} {g : Temporary → β → α}
    {mid : Temporary → Answers → Nat → Nat → β → Prop} (hq : ∀ t, Makes C b (q t) (mid t))
    (h : ∀ t A d n a, t.name = TemporaryStack.nameOf b d → mid t A (d + 1) n a →
      post A d (max (d + 1) n) (g t a)) :
    Makes C b (do
      let t ← Lower.allocate
      let a ← q t
      Lower.release t
      return g t a) post := by
  intro s hholds hs
  let t : Temporary := s.temporaries.allocate.1
  let s₁ : Lowering σ := { s with temporaries := s.temporaries.allocate.2 }
  have hname : t.name = TemporaryStack.nameOf b s.temporaries.depth := by rw [← hs]; rfl
  have hstart : outcome (Lower.allocate : Lower σ Temporary) s = (.ok t, s₁) := rfl
  have hinner := hq t s₁ hholds hs
  rw [outcome_bind, hstart]
  dsimp only
  rw [outcome_bind]
  rcases hrun : outcome (q t) s₁ with ⟨f | a, s₂⟩
  · rw [hrun] at hinner
    exact hinner
  · rw [hrun] at hinner
    obtain ⟨hle, n, hn, hmid⟩ := hinner
    dsimp only
    -- the inner step has left `t` on top, so that it can be released
    rw [outcome_bind, outcome_release (show s₂.temporaries.live = t :: s.temporaries.live from hn.live)]
    refine ⟨hle, max (s.temporaries.depth + 1) n, ⟨hn.binding, rfl, ?_⟩, fun u hu => ?_⟩
    · have hcount : s₂.temporaries.count = max (max s.temporaries.count (s.temporaries.depth + 1)) n :=
        hn.count
      rw [hcount, Nat.max_assoc]
    · exact h t _ _ n a hname (hmid u hu)

end Rules

/-! ### The parts of a lowering -/

section Steps

open Answers

variable {host : Host σ} {C : Contract host} {b : Text}

theorem makes_contextCode :
    Makes C b (Expr.contextCode host) fun A _ n m => n = 0 ∧ m = ⟨A.context, true⟩ := by
  intro s hholds _
  exact ⟨C.refl hholds, 0, .refl _, fun _ _ => ⟨rfl, rfl⟩⟩

theorem makes_printed (e : Expr) : Makes C b (Lower.printed e) fun _ _ _ _ => True := by
  unfold Lower.printed
  split
  · exact makes_pure fun _ _ => trivial
  · exact makes_throw rfl

theorem makes_assignedText (e : Expr) : Makes C b (Expr.assignedText e) fun _ _ _ _ => True := by
  unfold Expr.assignedText
  refine makes_bind (makes_printed e) fun t => ?_
  split <;> exact makes_pure fun _ _ _ _ => trivial

theorem makes_fresh {code : Lower σ Term} {e : Expr} {pins : Pins}
    (h : Makes C b code fun A d n t => A.PlainCode b d n pins e ⟨t, false⟩) :
    Makes C b code.fresh fun A d n m => A.PlainCode b d n pins e m :=
  makes_map h fun _ _ _ _ ht => ht

theorem Answers.resolves_of_isContext {A : Answers} {r : Lowered} {name : Text} {found : Option Found}
    (hr : r.isContext = true) (h : A.lookup name found) : A.Resolves r name found := by
  rw [Answers.Resolves, if_pos hr]
  exact h

theorem makes_localOf (r : Lowered) (name : Text) (used : Bool) :
    Makes C b (Expr.localOf host r name used) fun A _ n made => n = 0 ∧
      ∃ found, A.Resolves r name found ∧ made = found.map (Found.made A.context) := by
  unfold Expr.localOf
  by_cases hr : r.isContext = true
  · rw [if_pos hr]
    refine makes_atHost (makes_bind_zero (makes_lookup name) fun found => ?_)
    cases found with
    | some f =>
        refine makes_modify used (makes_pure fun A _ h hA => ⟨rfl, some f, resolves_of_isContext hr h, ?_⟩)
        rw [hA]
        rfl
    | none => exact makes_pure fun A _ h hA => ⟨rfl, none, resolves_of_isContext hr h, rfl⟩
  · rw [if_neg hr]
    refine makes_pure fun A _ => ⟨rfl, none, ?_, rfl⟩
    rw [Answers.Resolves, if_neg hr]

theorem makes_readCode {mid : Answers → Nat → Nat → Lowered → Prop} {code : Lower σ Lowered}
    {name : Text} (hc : Makes C b code mid) :
    Makes C b (Expr.readCode host name code) fun A d n m =>
      ∃ c found, mid A d n c ∧ A.Resolves c name found ∧ m = A.memberCode c name found := by
  unfold Expr.readCode
  refine makes_get fun s => makes_bind hc fun c => makes_bind_zero (makes_localOf c name _) fun made => ?_
  cases made with
  | some m =>
      refine makes_pure fun A d ⟨found, hfound, hm⟩ n hn => ⟨c, found, ?_, hfound, ?_⟩
      · rwa [Nat.max_zero]
      · obtain ⟨f, rfl, hf⟩ := Option.map_eq_some_iff.mp hm.symm
        exact hf.symm
  | none =>
      refine makes_pure fun A d ⟨found, hfound, hm⟩ n hn => ⟨c, found, ?_, hfound, ?_⟩
      · rwa [Nat.max_zero]
      · rw [Option.map_eq_none_iff.mp hm.symm]
        rfl

theorem makes_methodCode {mid : Answers → Nat → Nat → Lowered → Prop}
    {midArgs : Answers → Nat → Nat → List Term → Prop} {args : Lower σ (List Term)}
    {code : Lower σ Lowered} {place : Place} {r : Expr} {name : Text} (ha : Makes C b args midArgs)
    (hc : Makes C b code mid) :
    Makes C b (Expr.methodCode host place r name args code) fun A d n t =>
      (Expr.isErasure r name = true ∧ ∃ a, midArgs A d n [a] ∧ t = .erased a) ∨
      (Expr.isErasure r name = false ∧ ∃ ts c found n₁ n₂, midArgs A d n₁ ts ∧ mid A d n₂ c ∧
        A.Resolves c name found ∧ n = max n₁ n₂ ∧ t = A.invocationCode c name ts found) := by
  unfold Expr.methodCode
  refine makes_bind ha fun ts => ?_
  cases he : Expr.isErasure r name with
  | true =>
      rw [if_pos rfl]
      split
      · next a =>
          refine makes_pure fun A d n hn => .inl ⟨rfl, a, ?_, rfl⟩
          rwa [Nat.max_zero]
      · exact makes_throw rfl
  | false =>
      rw [if_neg Bool.false_ne_true]
      refine makes_get fun s => makes_bind hc fun c => ?_
      refine makes_bind_zero (makes_localOf c name _) fun made => ?_
      cases made with
      | some m =>
          refine makes_pure fun A d ⟨found, hfound, hm⟩ n₂ hn₂ n₁ hn₁ =>
            .inr ⟨rfl, ts, c, found, n₁, n₂, hn₁, hn₂, hfound, ?_, ?_⟩
          · rw [Nat.max_zero]
          · obtain ⟨f, rfl, rfl⟩ := Option.map_eq_some_iff.mp hm.symm
            rfl
      | none =>
          refine makes_pure fun A d ⟨found, hfound, hm⟩ n₂ hn₂ n₁ hn₁ =>
            .inr ⟨rfl, ts, c, found, n₁, n₂, hn₁, hn₂, hfound, ?_, ?_⟩
          · rw [Nat.max_zero]
          · rw [Option.map_eq_none_iff.mp hm.symm]
            rfl

theorem makes_targetCode {mid : Answers → Nat → Nat → Lowered → Prop} {code : Lower σ Lowered}
    {place : Place} {v : Expr} {name : Text} (hc : Makes C b code mid) :
    Makes C b (Expr.targetCode host place name v code) fun A d n t =>
      ∃ c, mid A d n c ∧ ((A.Resolves c name none ∧ t = .prop {} c.code name) ∨
        ∃ note o field found, A.Resolves c name (some found) ∧
          (found.made A.context).code = .prop note o field ∧ t = .prop note o field) := by
  unfold Expr.targetCode
  refine makes_get fun s => makes_bind hc fun c => ?_
  by_cases hr : c.isContext = true
  · rw [if_pos hr]
    refine makes_atHost (makes_bind_zero (makes_lookup name) fun found => ?_)
    cases found with
    | none =>
        refine makes_pure fun A d h _ n hn => ⟨c, ?_, .inl ⟨resolves_of_isContext hr h, rfl⟩⟩
        rwa [Nat.max_zero]
    | some f =>
        dsimp only [Option.map_some]
        split
        · next note o field self hf =>
            refine makes_modify _ (makes_pure fun A d h hA n hn =>
              ⟨c, ?_, .inr ⟨note, o, field, f, resolves_of_isContext hr h, ?_, rfl⟩⟩)
            · rwa [Nat.max_zero]
            · rw [hA, Option.some.inj hf]
        · exact makes_bind (makes_assignedText v) fun t => makes_throw rfl
        · next hf => cases hf
  · rw [if_neg hr]
    refine makes_pure fun A d n hn => ⟨c, ?_, .inl ⟨?_, rfl⟩⟩
    · rwa [Nat.max_zero]
    · rw [Answers.Resolves, if_neg hr]

/-- Asking the host for the code of an interpolation. -/
theorem makes_interpolate (args : List Term) (range : Option Span) :
    Makes C b
      (match host.interpolate args with
        | .ok t => pure t
        | .error f => throw (f.locateRange range) : Lower σ Term)
      fun A _ n t => n = 0 ∧ A.interpolate args t := by
  intro s hholds _
  cases h : host.interpolate args with
  | ok t => exact ⟨C.refl hholds, 0, .refl _, fun _ _ => ⟨rfl, h⟩⟩
  | error f => exact fun _ => .inr ⟨args, range, f, h, rfl⟩

/-- The guards of a spine are its safe receivers, each with its plain code. -/
theorem spine_guards : ∀ e : Expr, (e.spine host).guards =
    e.safeReceivers.map fun r => ⟨(r.spine host).plain, r.needsTemporary⟩
  | .read _ r _ => by rw [Expr.spine, Expr.safeReceivers]; exact spine_guards r
  | .index _ o _ => by rw [Expr.spine, Expr.safeReceivers]; exact spine_guards o
  | .method _ r _ _ => by rw [Expr.spine, Expr.safeReceivers]; exact spine_guards r
  | .safeRead _ r _ => by
    rw [Expr.spine, Expr.safeReceivers, List.map_append, ← spine_guards r]
    rfl
  | .safeMethod _ r _ _ => by
    rw [Expr.spine, Expr.safeReceivers, List.map_append, ← spine_guards r]
    rfl
  | .context _ | .chain .. | .conditional .. | .write .. | .indexWrite .. | .call .. | .binary ..
  | .not .. | .present .. | .literal .. | .array .. | .map .. | .interpolation .. | .pipe ..
  | .quote .. | .builtin .. => by rw [Expr.spine]; rfl

/-- A guard for each receiver of a list, around the plain code of an expression. -/
theorem makes_guarded {e : Expr} {plain : Pins → Lower σ Lowered}
    (he : ∀ pins, Makes C b (plain pins) fun A d n t => A.PlainCode b d n pins e t) :
    ∀ (rs : List Expr), (∀ r ∈ rs, ∀ pins, Makes C b ((r.spine host).plain pins) fun A d n t =>
      A.PlainCode b d n pins r t) →
    ∀ pins, Makes C b
      (Spine.guarded plain (rs.map fun r => ⟨(r.spine host).plain, r.needsTemporary⟩) pins)
      fun A d n t => A.GuardedCode b d n pins rs e t
  | [], _, pins => by
    rw [List.map_nil, Spine.guarded]
    exact makes_mono (he pins) fun A d n t h => .plain h
  | r :: rs, hr, pins => by
    have ih := makes_guarded he rs fun r' h => hr r' (List.mem_cons_of_mem r h)
    rw [List.map_cons, Spine.guarded]
    refine makes_bind (hr r List.mem_cons_self pins) fun c => ?_
    cases hk : r.needsTemporary with
    | true =>
        rw [if_pos rfl]
        refine makes_bracket (fun t => ih (pins ++ [some (.ofVar t.name)])) ?_
        intro t A d m code hname hcode n hn
        rw [hname] at hcode ⊢
        exact .kept hk hn hcode
    | false =>
        rw [if_neg Bool.false_ne_true]
        exact makes_map (ih (pins ++ [none])) fun A d m code hcode n hn => .copied hk hn hcode

/-- What is known of an expression and of the receivers its spine guards. -/
def PlainMakes (C : Contract host) (b : Text) (e : Expr) : Prop :=
  ∀ r ∈ e :: e.safeReceivers, ∀ pins, Makes C b ((r.spine host).plain pins) fun A d n t =>
    A.PlainCode b d n pins r t

theorem PlainMakes.made {e : Expr} (h : PlainMakes C b e) :
    Makes C b (e.spine host).made fun A d n m => A.Code b d n e m := by
  rw [Spine.made, spine_guards]
  refine makes_mono (makes_guarded (h e List.mem_cons_self) e.safeReceivers ?_ []) ?_
  · exact fun r hr => h r (List.mem_cons_of_mem e hr)
  · exact fun A d n t ht => .spine ht

theorem PlainMakes.lower {e : Expr} (h : PlainMakes C b e) :
    Makes C b (e.spine host).lower fun A d n t => ∃ m, A.Code b d n e m ∧ t = m.code :=
  makes_map h.made fun _ _ _ m hm => ⟨m, hm, rfl⟩

/-- An expression that is no access guards nothing. -/
theorem PlainMakes.leaf {e : Expr} {code : Lower σ Term} (hs : e.spine host = .leaf code)
    (hr : e.safeReceivers = [])
    (h : ∀ pins, Makes C b code fun A d n t => A.PlainCode b d n pins e ⟨t, false⟩) :
    PlainMakes C b e := by
  intro r hmem pins
  rw [hr, List.mem_singleton] at hmem
  rw [hmem, hs]
  exact makes_fresh (h pins)

/-- An access with an ordinary receiver guards what the receiver guards. -/
theorem PlainMakes.access {e r : Expr} (hr : PlainMakes C b r) (he : e.safeReceivers = r.safeReceivers)
    (h : ∀ pins, Makes C b ((e.spine host).plain pins) fun A d n t => A.PlainCode b d n pins e t) :
    PlainMakes C b e := by
  intro r' hmem
  rw [he, List.mem_cons] at hmem
  rcases hmem with rfl | hmem
  · exact h
  · exact hr r' (List.mem_cons_of_mem r hmem)

/-- A safe access guards its receiver, too. -/
theorem PlainMakes.safeAccess {e r : Expr} (hr : PlainMakes C b r)
    (he : e.safeReceivers = r.safeReceivers ++ [r])
    (h : ∀ pins, Makes C b ((e.spine host).plain pins) fun A d n t => A.PlainCode b d n pins e t) :
    PlainMakes C b e := by
  intro r' hmem
  rw [he, List.mem_cons, List.mem_append, List.mem_singleton] at hmem
  rcases hmem with rfl | hmem | rfl
  · exact h
  · exact hr r' (List.mem_cons_of_mem r hmem)
  · exact hr r' List.mem_cons_self

theorem makes_pinned {r : Expr} (hr : PlainMakes C b r) (pins : Pins) :
    Makes C b ((r.spine host).pinned pins) fun A d n t => A.ReceiverCode b d n pins r t := by
  have hlength : (r.spine host).guards.length = r.safeReceivers.length := by
    rw [spine_guards, List.length_map]
  rw [Spine.pinned, hlength]
  split
  · next t ht => exact makes_pure fun A d => .kept ht
  · next hnone =>
      exact makes_mono (hr r List.mem_cons_self pins) fun A d n t ht => .copied hnone ht

mutual

theorem plainMakes : ∀ e : Expr, PlainMakes C b e
  | .context p => by
    intro r hmem pins
    rw [List.mem_singleton.mp (show r ∈ [Expr.context p] from hmem), Expr.spine]
    refine makes_mono makes_contextCode ?_
    rintro A d n m ⟨rfl, rfl⟩
    exact .context
  | .read p r name => by
    refine .access (plainMakes r) rfl fun pins => ?_
    rw [Expr.spine]
    refine makes_mono (makes_readCode (plainMakes r r List.mem_cons_self pins)) ?_
    rintro A d n t ⟨c, found, hc, hfound, rfl⟩
    exact .read hc hfound
  | .safeRead p r name => by
    refine .safeAccess (plainMakes r) rfl fun pins => ?_
    rw [Expr.spine]
    refine makes_mono (makes_readCode (makes_pinned (plainMakes r) pins)) ?_
    rintro A d n t ⟨c, found, hc, hfound, rfl⟩
    exact .safeRead hc hfound
  | .index p o k => by
    refine .access (plainMakes o) rfl fun pins => ?_
    rw [Expr.spine]
    refine makes_fresh (makes_bind (plainMakes o o List.mem_cons_self pins) fun c => ?_)
    refine makes_map (plainMakes k).lower ?_
    rintro A d m _ ⟨t, ht, rfl⟩ n hn
    exact .index hn ht
  | .method p r name args => by
    refine .access (plainMakes r) rfl fun pins => ?_
    rw [Expr.spine]
    refine makes_fresh (makes_mono (makes_methodCode (makes_lowerAll args)
      (plainMakes r r List.mem_cons_self pins)) ?_)
    rintro A d n t (⟨he, a, ha, rfl⟩ | ⟨he, ts, c, found, n₁, n₂, hts, hc, hfound, rfl, rfl⟩)
    · exact .erased he ha
    · exact .method he hts hc hfound
  | .safeMethod p r name args => by
    refine .safeAccess (plainMakes r) rfl fun pins => ?_
    rw [Expr.spine]
    refine makes_fresh (makes_mono (makes_methodCode (makes_lowerAll args)
      (makes_pinned (plainMakes r) pins)) ?_)
    rintro A d n t (⟨he, a, ha, rfl⟩ | ⟨he, ts, c, found, n₁, n₂, hts, hc, hfound, rfl, rfl⟩)
    · exact .safeErased he ha
    · exact .safeMethod he hts hc hfound
  | .write p r name v => by
    refine .leaf (by rw [Expr.spine]) rfl fun pins => ?_
    refine makes_bind (makes_targetCode (plainMakes r).made) fun target => ?_
    refine makes_map (plainMakes v).lower ?_
    rintro A d m _ ⟨t, ht, rfl⟩ n ⟨c, hc, ⟨hfound, rfl⟩ | ⟨note, o, field, found, hfound, hcode, rfl⟩⟩
    · exact .write hc hfound ht
    · exact .writeThrough hc hfound hcode ht
  | .indexWrite p o k v => by
    refine .leaf (by rw [Expr.spine]) rfl fun pins => ?_
    refine makes_bind (plainMakes o).lower fun c => makes_bind (plainMakes k).lower fun j => ?_
    refine makes_map (plainMakes v).lower ?_
    rintro A d k _ ⟨t, ht, rfl⟩ m ⟨j, hm, rfl⟩ n ⟨c, hn, rfl⟩
    exact .indexWrite hn hm ht
  | .call p f args => by
    refine .leaf (by rw [Expr.spine]) rfl fun pins => ?_
    refine makes_bind (makes_lowerAll args) fun ts => ?_
    refine makes_map (plainMakes f).lower ?_
    rintro A d m _ ⟨c, hc, rfl⟩ n hn
    exact .call hn hc
  | .conditional p c y z => by
    refine .leaf (by rw [Expr.spine]) rfl fun pins => ?_
    refine makes_bind (plainMakes c).lower fun ct => makes_bind (plainMakes y).lower fun yt => ?_
    refine makes_map (plainMakes z).lower ?_
    rintro A d k _ ⟨zt, hz, rfl⟩ m ⟨yt, hm, rfl⟩ n ⟨ct, hn, rfl⟩
    exact .conditional hn hm hz
  | .binary p o l r => by
    refine .leaf (by rw [Expr.spine]) rfl fun pins => ?_
    split
    · exact makes_throw rfl
    · next op hop =>
        refine makes_bind (plainMakes l).lower fun lt => ?_
        refine makes_map (plainMakes r).lower ?_
        rintro A d m _ ⟨rt, hr, rfl⟩ n ⟨lt, hn, rfl⟩
        exact .binary hop hn hr
  | .not p e => by
    refine .leaf (by rw [Expr.spine]) rfl fun pins => ?_
    refine makes_map (plainMakes e).lower ?_
    rintro A d n _ ⟨t, ht, rfl⟩
    exact .not ht
  | .present p e => by
    refine .leaf (by rw [Expr.spine]) rfl fun pins => ?_
    refine makes_map (plainMakes e).lower ?_
    rintro A d n _ ⟨t, ht, rfl⟩
    exact .present ht
  | .literal p v => by
    refine .leaf (by rw [Expr.spine]) rfl fun pins => ?_
    exact makes_pure fun A d => .literal
  | .interpolation p texts es => by
    refine .leaf (by rw [Expr.spine]) rfl fun pins => ?_
    by_cases hlength : texts.length = es.length + 1
    · rw [if_neg (not_not_intro hlength)]
      refine makes_bind (makes_lowerAll es) fun ts => ?_
      refine makes_mono (makes_interpolate _ p.span) fun A d m t ht n hn => ?_
      rw [ht.1, Nat.max_zero]
      exact .interpolation hlength hn ht.2
    · rw [if_pos hlength]
      exact makes_throw rfl
  | .builtin p kind args => by
    refine .leaf (by rw [Expr.spine]) rfl fun pins => ?_
    refine makes_mono (makes_builtin kind (makes_lowerAll args)) fun A d n t => ?_
    rintro ⟨ts, hts, ht⟩
    exact .builtin hts ht
  | .chain p es => by
    refine .leaf (by rw [Expr.spine]) rfl fun pins => ?_
    exact makes_bind (makes_printed _) fun t => makes_throw rfl
  | .array p es => .leaf (by rw [Expr.spine]) rfl fun pins => makes_throw rfl
  | .map p ks vs => .leaf (by rw [Expr.spine]) rfl fun pins => makes_throw rfl
  | .pipe p e name args => .leaf (by rw [Expr.spine]) rfl fun pins => makes_throw rfl
  | .quote p s t l => .leaf (by rw [Expr.spine]) rfl fun pins => makes_throw rfl

theorem makes_lowerAll : ∀ es : List Expr,
    Makes C b (Expr.lowerAll host es) fun A d n ts => A.Codes b d n es ts
  | [] => by
    rw [Expr.lowerAll]
    exact makes_pure fun A d => .nil
  | e :: es => by
    rw [Expr.lowerAll]
    refine makes_bind (plainMakes e).lower fun t => ?_
    refine makes_map (makes_lowerAll es) ?_
    rintro A d m ts hts n ⟨t, hn, rfl⟩
    exact .cons hn hts

end

/-- The code of an expression is derivable. -/
theorem makes_lower (e : Expr) :
    Makes C b (e.lower host) fun A d n t => ∃ m, A.Code b d n e m ∧ t = m.code :=
  (plainMakes e).lower

end Steps

/-! ### Statements and bindings -/

theorem Answers.Codes.append {A : Answers} {b : Text} {d m : Nat} {es' : List Expr}
    {ts' : List Term} (h' : A.Codes b d m es' ts') :
    ∀ {es ts n}, A.Codes b d n es ts → A.Codes b d (max n m) (es ++ es') (ts ++ ts')
  | _, _, _, .nil => by rwa [Nat.zero_max]
  | _, _, _, .cons ht hts => by
    rw [Nat.max_assoc]
    exact .cons ht (Answers.Codes.append h' hts)

section Statements

variable {host : Host σ} {C : Contract host} {b : Text}

/-- An expression that is no chain becomes a statement of its own. -/
theorem makes_statement {e : Expr}
    (hs : e.lowerStatements host = do return [.ofTerm (← e.lower host)]) (hi : e.items = [e]) :
    Makes C b (e.lowerStatements host) fun A d n ss =>
      ∃ ts, ss = ts.map Stmt.ofTerm ∧ A.Codes b d n e.items ts := by
  rw [hs, hi]
  refine makes_map (makes_lower e) ?_
  rintro A d n _ ⟨t, ht, rfl⟩
  refine ⟨[t.code], rfl, ?_⟩
  rw [← Nat.max_zero n]
  exact .cons ht .nil

mutual

/-- The statements of an expression are derivable code of its items. -/
theorem makes_lowerStatements : ∀ e : Expr, Makes C b (e.lowerStatements host) fun A d n ss =>
    ∃ ts, ss = ts.map Stmt.ofTerm ∧ A.Codes b d n e.items ts
  | .chain p es => by
    rw [Expr.lowerStatements, Expr.items]
    exact makes_lowerAllStatements es
  | .context p => by
    rw [Expr.lowerStatements]
    exact makes_bind (makes_printed _) fun t => makes_throw rfl
  | .interpolation p texts es => by
    rw [Expr.lowerStatements]
    exact makes_bind (makes_printed _) fun t => makes_throw rfl
  | .conditional .. | .read .. | .write .. | .safeRead .. | .index .. | .indexWrite ..
  | .method .. | .safeMethod .. | .call .. | .binary .. | .not .. | .present .. | .literal ..
  | .array .. | .map .. | .pipe .. | .quote .. | .builtin .. => by
    apply makes_statement
    · rw [Expr.lowerStatements] <;> simp
    · rw [Expr.items]
      simp

theorem makes_lowerAllStatements : ∀ es : List Expr,
    Makes C b (Expr.lowerAllStatements host es) fun A d n ss =>
      ∃ ts, ss = ts.map Stmt.ofTerm ∧ A.Codes b d n (Expr.itemsAll es) ts
  | [] => by
    rw [Expr.lowerAllStatements, Expr.itemsAll]
    exact makes_pure fun A d => ⟨[], rfl, .nil⟩
  | e :: es => by
    rw [Expr.lowerAllStatements, Expr.itemsAll]
    refine makes_bind (makes_lowerStatements e) fun ss => ?_
    refine makes_map (makes_lowerAllStatements es) ?_
    rintro A d m ss' ⟨ts', rfl, hts'⟩ n ⟨ts, rfl, hts⟩
    exact ⟨ts ++ ts', by rw [List.map_append], Answers.Codes.append hts' hts⟩

end

/-- What comes of a binding is what comes of its code under an empty stack. -/
theorem outcome_lowerBinding_eq (host : Host σ) (b : Text) (code : Lower σ α) (s : σ) :
    outcome (lowerBinding host b code) s =
      match outcome code { host := s, temporaries := { binding := b } } with
      | (.error f, final) => (.error f, final.host)
      | (.ok a, final) =>
        if final.temporaries.depth ≠ 0 then
          (.error (.illegal (.unreleased final.temporaries.depth b)), final.host)
        else (.ok (a, final.temporaries),
          if final.usesContext then (host.notify.run final.host).2 else final.host) := rfl

theorem outcome_lowerBinding_ok {host : Host σ} {b : Text} {code : Lower σ α} {s s' : σ} {a : α}
    {stack : TemporaryStack} (h : outcome (lowerBinding host b code) s = (.ok (a, stack), s')) :
    ∃ final : Lowering σ, outcome code { host := s, temporaries := { binding := b } } = (.ok a, final) ∧
      (s' = final.host ∨ s' = (host.notify.run final.host).2) := by
  rw [outcome_lowerBinding_eq] at h
  rcases hrun : outcome code { host := s, temporaries := { binding := b } } with ⟨f | a', final⟩
  · rw [hrun] at h
    cases h
  · rw [hrun] at h
    dsimp only at h
    split at h
    · cases h
    · cases h
      refine ⟨final, rfl, ?_⟩
      split
      · exact .inr rfl
      · exact .inl rfl

/-- A binding starts with an empty stack, and ends with one. -/
theorem outcome_lowerBinding {post : Answers → Nat → Nat → α → Prop} {code : Lower σ α}
    (h : Makes C b code post) {s : σ} (hs : C.holds s) :
    match outcome (lowerBinding host b code) s with
    | (.ok (a, stack), s') => stack.binding = b ∧ stack.live = [] ∧
        ∃ s₁, C.later s s₁ ∧ (s' = s₁ ∨ s' = (host.notify.run s₁).2) ∧
          ∀ u, C.later s₁ u → post (C.at u) 0 stack.count a
    | (.error f, _) => f.breaksStack → host.CanFail f := by
  have h := h { host := s, temporaries := { binding := b } } hs rfl
  rw [outcome_lowerBinding_eq]
  rcases hrun : outcome code { host := s, temporaries := { binding := b } } with ⟨f | a, final⟩
  · rw [hrun] at h
    exact h
  · rw [hrun] at h
    obtain ⟨hle, n, hn, hpost⟩ := h
    have hlive : final.temporaries.live = [] := hn.live
    have hdepth : final.temporaries.depth = 0 := by rw [TemporaryStack.depth, hlive]; rfl
    have hcount : final.temporaries.count = n := by rw [hn.count]; exact Nat.zero_max n
    dsimp only
    rw [if_neg (not_not_intro hdepth)]
    refine ⟨hn.binding, hlive, final.host, hle, ?_, fun u hu => ?_⟩
    · split
      · exact .inr rfl
      · exact .inl rfl
    · rw [hcount]
      exact hpost u hu

end Statements

/-! ### Bindings -/

/-- The code of a property, if it is lowered: a bare value without temporaries, or a constant after
the declarations of the temporaries. -/
theorem lowerProperty_cases {host : Host σ} {e : Expr} {b : Text} {simple : Bool} {s s' : σ}
    {code : PropertyCode} (h : outcome (lowerProperty host e b simple) s = (.ok code, s')) :
    ∃ t stack, outcome (lowerBinding host b (e.lower host)) s = (.ok (t, stack), s') ∧
      ((stack.count = 0 ∧ code = ⟨[], t⟩) ∨
        code = ⟨stack.declarations ++ [.const ("currVal_" ++ b) t], .ofVar ("currVal_" ++ b)⟩) := by
  unfold lowerProperty at h
  obtain ⟨⟨t, stack⟩, s₁, hbinding, h⟩ := outcome_bind_ok.mp h
  dsimp only at h
  split at h
  · next hsimple =>
      cases h
      exact ⟨t, stack, hbinding, .inl ⟨hsimple.1, rfl⟩⟩
  · cases h
    exact ⟨t, stack, hbinding, .inr rfl⟩

/-- The code of a handler, if it is lowered: its body after the declarations of the temporaries. -/
theorem lowerAction_cases {host : Host σ} {e : Expr} {b : Text} {s s' : σ} {code : ActionCode}
    (h : outcome (lowerAction host e b) s = (.ok code, s')) :
    ∃ e' body stack, e.replaceBuiltins BuiltinFactory.literal = .ok e' ∧
      outcome (lowerBinding host b (e'.lowerStatements host)) s = (.ok (body, stack), s') ∧
      code = withPreventDefault b (stack.declarations ++ body) := by
  unfold lowerAction at h
  obtain ⟨⟨body, stack⟩, s₁, hbody, h⟩ := outcome_bind_ok.mp h
  cases h
  unfold actionBody at hbody
  split at hbody
  · cases hbody
  · next e' hreplace => exact ⟨e', body, stack, hreplace, hbody, rfl⟩

/-- Without values there is nothing to keep. -/
theorem withPreventDefault_declarations (b : Text) (stack : TemporaryStack) :
    withPreventDefault b (stack.declarations ++ []) = ⟨stack.declarations, none⟩ := by
  have hlast : stack.declarations.getLast?.bind Stmt.value? = none := by
    rw [TemporaryStack.declarations, List.getLast?_map]
    cases (List.range stack.count).getLast? <;> rfl
  unfold withPreventDefault
  rw [List.append_nil, hlast]

/-- The last value of a handler is kept in a constant. -/
theorem withPreventDefault_concat (b : Text) (ss : List Stmt) (t : Term) :
    withPreventDefault b (ss ++ [.ofTerm t]) =
      ⟨ss ++ [preventDefaultStmt ("pd_" ++ b) t], some ("pd_" ++ b)⟩ := by
  unfold withPreventDefault
  rw [List.getLast?_concat, Option.bind_some, List.dropLast_concat]
  rfl

/-! ### The bodies of functions -/

theorem functionBody_append (ss ss' : List Stmt) (kept : Option Text) :
    (ActionCode.mk (ss ++ ss') kept).functionBody =
      (ActionCode.mk ss kept).functionBody ++ (ActionCode.mk ss' kept).functionBody :=
  List.map_append

theorem functionBody_declarations (stack : TemporaryStack) (kept : Option Text) :
    (ActionCode.mk stack.declarations kept).functionBody = stack.declarations := by
  unfold ActionCode.functionBody TemporaryStack.declarations
  rw [List.map_map]
  exact List.map_congr_left fun n _ => rfl

theorem functionBody_map_ofTerm (ts : List Term) (kept : Option Text) :
    (ActionCode.mk (ts.map Stmt.ofTerm) kept).functionBody = ts.map Stmt.ofTerm := by
  unfold ActionCode.functionBody
  rw [List.map_map]
  exact List.map_congr_left fun u _ => rfl

/-- The value that is kept is returned. -/
theorem functionBody_preventDefaultStmt (name : Text) (t : Term) :
    (ActionCode.mk [preventDefaultStmt name t] (some name)).functionBody =
      [.ret none (.operation .notIdentical (.erased t) (.ofValue (.bool false)) { type := some .bool })] := by
  unfold ActionCode.functionBody preventDefaultStmt Stmt.const
  rw [List.map_singleton]
  dsimp only
  rw [if_pos (beq_self_eq_true name)]

end TemplateCompiler
