import TemplateCompiler.Proofs.Lowering.Ending
import TemplateCompiler.Proofs.Lowering.Steady

/-!
# Rewriting on stacks

A rewrite that is under way need not be handed down from visit to visit. It may as well be kept beside the state
of the host, in stacks on which each conversion puts what it takes off its guards and keeps, and from which it
takes that again when it ends, in whatever way (`Expr.visitOnStacks`).

* `Follows m q p` : with the marks `m` beside the host, the step `q` does what `p` does without them, and leaves
  them as they were. The `follows_` lemmas give it for each way a step is put together, `follows_visitOnStacks`
  for a visit and the rewrite that it is handed;
* `LeavesEmpty` : a binding that starts on empty stacks ends on empty stacks, with what lowering makes of it
  (`leavesEmpty`).
-/

namespace TemplateCompiler

variable {σ μ α β : Type}

/-! ### Marks beside the state of a host -/

/-- The host, next to marks that it does not know of. -/
def Host.marking (host : Host σ) : Host (σ × μ) where
  context := host.context
  lookup name := beside (host.lookup name)
  notify := beside host.notify
  builtin kind ts := ExceptT.mk (beside (host.builtin kind ts).run)
  interpolate := host.interpolate

theorem Host.interpolate_marking (host : Host σ) :
    (host.marking : Host (σ × μ)).interpolate = host.interpolate := rfl

def Lowering.mark (s : Lowering σ) (m : μ) : Lowering (σ × μ) where
  host := (s.host, m)
  temporaries := s.temporaries
  usesContext := s.usesContext

namespace Lower

def marks : Lower (σ × μ) μ := do return (← get).host.2

def remark (g : μ → μ) (s : Lowering (σ × μ)) : Lowering (σ × μ) :=
  { s with host := (s.host.1, g s.host.2) }

/-- Changes the marks for a step, and changes them back when it ends, be it with a failure. -/
def during (enter leave : μ → μ) (p : Lower (σ × μ) α) : Lower (σ × μ) α :=
  ExceptT.mk fun s =>
    let (r, s') := p.run.run (remark enter s)
    (r, remark leave s')

end Lower

/-- With the marks `m` beside the host, the step `q` does what `p` does without them, and leaves them as they
were. -/
def Follows (m : μ) (q : Lower (σ × μ) α) (p : Lower σ α) : Prop :=
  ∀ s : Lowering σ, outcome q (s.mark m) = (outcome p s).map id (·.mark m)

section Rules

variable {m : μ}

theorem follows_pure (a : α) : Follows m (pure a : Lower (σ × μ) α) (pure a) := fun _ => rfl

theorem follows_throw (f : Failure) : Follows m (throw f : Lower (σ × μ) α) (throw f) := fun _ => rfl

theorem follows_bind {q : Lower (σ × μ) β} {p : Lower σ β} {q' : β → Lower (σ × μ) α} {p' : β → Lower σ α}
    (h : Follows m q p) (h' : ∀ a, Follows m (q' a) (p' a)) : Follows m (q >>= q') (p >>= p') := by
  intro s
  rw [outcome_bind, outcome_bind, h s]
  rcases outcome p s with ⟨f | a, s'⟩
  · rfl
  · exact h' a s'

theorem follows_get_bind {q : Lowering (σ × μ) → Lower (σ × μ) α} {p : Lowering σ → Lower σ α}
    (h : ∀ s, Follows m (q (s.mark m)) (p s)) : Follows m (get >>= q) (get >>= p) := by
  intro s
  rw [outcome_bind, outcome_bind, outcome_get, outcome_get]
  exact h s s

theorem follows_modify {g : Lowering (σ × μ) → Lowering (σ × μ)} {g' : Lowering σ → Lowering σ}
    (h : ∀ s, g (s.mark m) = (g' s).mark m) :
    Follows m (modify g : Lower (σ × μ) PUnit) (modify g') := by
  intro s
  rw [outcome_modify, outcome_modify, h s]
  rfl

theorem follows_onHost (step : StateM σ α) : Follows m (Lower.onHost (beside step)) (Lower.onHost step) :=
  fun _ => rfl

theorem follows_onHostE (step : ExceptT Failure (StateM σ) α) :
    Follows m (Lower.onHostE (ExceptT.mk (beside step.run))) (Lower.onHostE step) := by
  unfold Lower.onHostE
  refine follows_bind (follows_onHost step.run) fun r => ?_
  cases r with
  | ok a => exact follows_pure a
  | error f => exact follows_throw f

theorem follows_printed (e : Expr) : Follows m (Lower.printed e : Lower (σ × μ) Text) (Lower.printed e) := by
  unfold Lower.printed
  cases e.print with
  | ok t => exact follows_pure t
  | error d => exact follows_throw (.defect d)

theorem follows_allocate : Follows m (Lower.allocate : Lower (σ × μ) Temporary) Lower.allocate := fun _ => rfl

theorem follows_release (t : Temporary) :
    Follows m (Lower.release t : Lower (σ × μ) Unit) (Lower.release t) := by
  unfold Lower.release
  refine follows_get_bind fun s => ?_
  dsimp only [Lowering.mark]
  cases s.temporaries.release t with
  | ok temporaries => exact fun _ => rfl
  | error e => exact follows_throw (.error e)

/-- A step may look at the marks. -/
theorem follows_marks_bind {q : μ → Lower (σ × μ) α} {p : Lower σ α} (h : Follows m (q m) p) :
    Follows m (Lower.marks >>= q) p := by
  intro s
  rw [outcome_bind]
  exact h s

/-- A step under changed marks, where the change is undone. -/
theorem Follows.during {enter leave : μ → μ} {q : Lower (σ × μ) α} {p : Lower σ α}
    (h : Follows (enter m) q p) (hleave : leave (enter m) = m) :
    Follows m (Lower.during enter leave q) p := by
  intro s
  have hq : q.run.run (Lower.remark enter (s.mark m)) = (outcome p s).map id (·.mark (enter m)) := h s
  have hback (s' : Lowering σ) : Lower.remark leave (s'.mark (enter m)) = s'.mark m := by
    rw [Lower.remark, Lowering.mark, hleave]
    rfl
  change ((q.run.run (Lower.remark enter (s.mark m))).1,
    Lower.remark leave (q.run.run (Lower.remark enter (s.mark m))).2) = _
  rw [hq]
  exact Prod.ext rfl (hback _)

end Rules

/-! ### The code of nodes -/

section Code

variable {m : μ} {host : Host σ} {q : Lower (σ × μ) Lowered} {p : Lower σ Lowered}

theorem follows_code (h : Follows m q p) : Follows m q.code p.code :=
  follows_bind h fun _ => follows_pure _

theorem follows_fresh {q : Lower (σ × μ) Term} {p : Lower σ Term} (h : Follows m q p) :
    Follows m q.fresh p.fresh := follows_bind h fun _ => follows_pure _

theorem follows_contextCode : Follows m (Expr.contextCode host.marking) (Expr.contextCode host) :=
  follows_bind (follows_modify fun _ => rfl) fun _ => follows_pure _

theorem follows_localOf (r : Lowered) (name : Text) (used : Bool) :
    Follows m (Expr.localOf host.marking r name used) (Expr.localOf host r name used) := by
  unfold Expr.localOf
  split
  · refine follows_bind (follows_onHost (host.lookup name)) fun found => ?_
    cases found with
    | some f => exact follows_bind (follows_modify fun _ => rfl) fun _ => follows_pure (some _)
    | none => exact follows_pure none
  · exact follows_pure none

/-- What is made of a member of a receiver, or of a local. -/
theorem follows_member (h : Follows m q p) (name : Text) {g g' : Lowered → α} :
    Follows m
      (do
        let used := (← get).usesContext
        let r' ← q
        match ← Expr.localOf host.marking r' name used with
        | some t => return g t
        | none => return g' r')
      (do
        let used := (← get).usesContext
        let r' ← p
        match ← Expr.localOf host r' name used with
        | some t => return g t
        | none => return g' r') := by
  refine follows_get_bind fun s => follows_bind h fun r' => ?_
  refine follows_bind (follows_localOf r' name s.usesContext) fun found => ?_
  cases found with
  | some t => exact follows_pure (g t)
  | none => exact follows_pure (g' r')

theorem follows_readCode (h : Follows m q p) (name : Text) :
    Follows m (Expr.readCode host.marking name q) (Expr.readCode host name p) :=
  follows_member h name

theorem follows_methodCode {qs : Lower (σ × μ) (List Term)} {ps : Lower σ (List Term)}
    (hs : Follows m qs ps) (h : Follows m q p) (place : Place) (r : Expr) (name : Text) :
    Follows m (Expr.methodCode host.marking place r name qs q) (Expr.methodCode host place r name ps p) := by
  refine follows_bind hs fun args => ?_
  split
  · split
    · exact follows_pure _
    · exact follows_throw _
  · exact follows_member h name

theorem follows_assignedText (e : Expr) :
    Follows m (Expr.assignedText e : Lower (σ × μ) Text) (Expr.assignedText e) := by
  refine follows_bind (follows_printed e) fun t => ?_
  split <;> exact follows_pure _

theorem follows_targetCode (h : Follows m q p) (place : Place) (name : Text) (v : Expr) :
    Follows m (Expr.targetCode host.marking place name v q) (Expr.targetCode host place name v p) := by
  refine follows_get_bind fun s => follows_bind h fun r' => ?_
  split
  · refine follows_bind (follows_onHost (host.lookup name)) fun found => ?_
    dsimp only [Host.marking]
    split
    · exact follows_bind (follows_modify fun _ => rfl) fun _ => follows_pure _
    · exact follows_bind (follows_assignedText v) fun _ => follows_throw _
    · exact follows_pure _
  · exact follows_pure _

variable {child : Nat → Expr → Lower (σ × μ) Lowered} {child' : Nat → Expr → Lower σ Lowered}

theorem follows_codes (h : ∀ i c, Follows m (child i c) (child' i c)) :
    ∀ (es : List Expr) (n : Nat), Follows m (Expr.codes child n es) (Expr.codes child' n es)
  | [], _ => follows_pure []
  | e :: es, n => by
    rw [Expr.codes, Expr.codes]
    exact follows_bind (follows_code (h n e)) fun t =>
      follows_bind (follows_codes h es (n + 1)) fun _ => follows_pure _

/-- The code of a node leaves the marks as they were if that of its children does. -/
theorem follows_nodeCode (h : ∀ i c, Follows m (child i c) (child' i c)) (e : Expr) :
    Follows m (e.nodeCode host.marking child) (e.nodeCode host child') := by
  have hcodes := follows_codes h
  have hcode (i : Nat) (c : Expr) : Follows m (child i c).code (child' i c).code := follows_code (h i c)
  cases e with
  | context p => exact follows_contextCode
  | literal p v => exact follows_fresh (follows_pure _)
  | chain p es => exact follows_fresh (follows_bind (follows_printed _) fun _ => follows_throw _)
  | array | map | pipe | quote => exact follows_fresh (follows_throw _)
  | read p r name | safeRead p r name => exact follows_readCode (h 0 r) name
  | method p r name args | safeMethod p r name args =>
      exact follows_fresh (follows_methodCode (hcodes args 1) (h 0 r) p r name)
  | not p e | present p e => exact follows_fresh (follows_bind (hcode 0 e) fun _ => follows_pure _)
  | index p o k =>
      exact follows_fresh (follows_bind (h 0 o) fun _ => follows_bind (hcode 1 k) fun _ => follows_pure _)
  | conditional p a b c | indexWrite p a b c =>
      refine follows_fresh (follows_bind (hcode 0 a) fun _ => follows_bind (hcode 1 b) fun _ => ?_)
      exact follows_bind (hcode 2 c) fun _ => follows_pure _
  | write p r name v =>
      refine follows_fresh (follows_bind (follows_targetCode (h 0 r) p name v) fun _ => ?_)
      exact follows_bind (hcode 1 v) fun _ => follows_pure _
  | call p f args =>
      refine follows_fresh (follows_bind (hcodes args 1) fun _ => ?_)
      exact follows_bind (hcode 0 f) fun _ => follows_pure _
  | binary p o l r =>
      rw [Expr.nodeCode, Expr.nodeCode]
      refine follows_fresh ?_
      cases sourceOperator? o with
      | none => exact follows_throw _
      | some op => exact follows_bind (hcode 0 l) fun _ => follows_bind (hcode 1 r) fun _ => follows_pure _
  | interpolation p ts es =>
      rw [Expr.nodeCode, Expr.nodeCode, Host.interpolate_marking]
      refine follows_fresh ?_
      split
      case' isTrue => refine follows_bind (follows_throw _) fun _ => ?_
      all_goals
        refine follows_bind (hcodes es 0) fun values => ?_
        cases host.interpolate (.ofNat es.length :: Expr.interpolationArgs ts values) with
        | ok t => exact follows_pure t
        | error f => exact follows_throw _
  | builtin p kind args =>
      exact follows_fresh (follows_bind (hcodes args 0) fun ts => follows_onHostE (host.builtin kind ts))

end Code

/-! ### Visits -/

/-- Takes the latest conversion back, which kept a receiver if one was `kept`. -/
def Rewriting.revert (rw : Rewriting) (kept : Bool) : Rewriting where
  unguarded := rw.unguarded.tail
  kept := if kept then rw.kept.tail else rw.kept
  entered := rw.entered.tail

theorem Rewriting.revert_convert (rw : Rewriting) (p : Path) (e : Expr) (safe : Path)
    (temporary : Option Term) : (rw.convert p e safe temporary).revert temporary.isSome = rw := by
  cases temporary <;> rfl

/-- Converts the node `e` at `p` for a step, and takes the conversion back when the step ends. -/
def Lower.converting (p : Path) (e : Expr) (safe : Path) (temporary : Option Term)
    (step : Lower (σ × Rewriting) α) : Lower (σ × Rewriting) α :=
  Lower.during (·.convert p e safe temporary) (·.revert temporary.isSome) step

theorem Follows.converting {rw : Rewriting} {p : Path} {e : Expr} {safe : Path} {temporary : Option Term}
    {q : Lower (σ × Rewriting) α} {p' : Lower σ α} (h : Follows (rw.convert p e safe temporary) q p') :
    Follows rw (Lower.converting p e safe temporary q) p' :=
  h.during (rw.revert_convert p e safe temporary)

namespace Expr

variable (host : Host σ) (beyond : Failure)

/-- Visits the node `e` at `p` like `Expr.visit`, with the rewrite on stacks. -/
def visitOnStacks : Nat → Path → Expr → Lower (σ × Rewriting) Lowered
  | 0, _, _ => throw beyond
  | limit + 1, p, e => do
    let rw ← Lower.marks
    match rw.kept.lookup p, e.leftMost rw.unguarded p with
    | some t, _ => return ⟨t, false⟩
    | none, none => e.nodeCode host.marking fun i c => visitOnStacks limit (i :: p) c
    | none, some (safe, receiver) =>
      if rw.Permits p e then do
        let made ← visitOnStacks limit (0 :: safe) receiver
        if receiver.needsTemporary then
          let t ← Lower.allocate
          Lower.converting p e safe (some (.ofVar t.name)) do
            let access ← visitOnStacks limit p e
            Lower.release t
            return ⟨.choose (.isBlank (.set (.ofVar t.name) made.code)) .null (some access.code), false⟩
        else
          Lower.converting p e safe none do
            let access ← visitOnStacks limit p e
            return ⟨.choose (.isBlank made.code) .null (some access.code), false⟩
      else throw beyond

mutual

/-- Visits the node `e` at `p` for its statements like `Expr.visitStatements`, with the rewrites on stacks. -/
def statementsOnStacks (limit : Nat) : Path → Expr → Lower (σ × Rewriting) (List Stmt)
  | p, chain _ es => allStatementsOnStacks limit p 0 es
  | _, e@(context _) => do throw (.illegal (.notExpression (← Lower.printed e)))
  | _, e@(interpolation ..) => do throw (.illegal (.notExpression (← Lower.printed e)))
  | p, e => do return [.ofTerm (← (visitOnStacks host beyond limit p e).code)]

/-- Visits children of the node at `p` for their statements, from the child `i` on. -/
def allStatementsOnStacks (limit : Nat) : Path → Nat → List Expr → Lower (σ × Rewriting) (List Stmt)
  | _, _, [] => return []
  | p, i, e :: es => do
    let ss ← statementsOnStacks limit (i :: p) e
    return ss ++ (← allStatementsOnStacks limit p (i + 1) es)

end

end Expr

section Visits

variable {host : Host σ} {beyond : Failure}

/-- A visit with the rewrite on stacks is the visit that is handed the rewrite, and leaves the stacks as they
were. -/
theorem follows_visitOnStacks : ∀ (limit : Nat) (rw : Rewriting) (p : Path) (e : Expr),
    Follows rw (e.visitOnStacks host beyond limit p) (e.visit host (throw beyond) limit rw p)
  | 0, _, _, _ => follows_throw beyond
  | limit + 1, rw, p, e => by
    have ih := follows_visitOnStacks limit
    rw [Expr.visitOnStacks, Expr.visit]
    refine follows_marks_bind ?_
    cases rw.kept.lookup p with
    | some t => exact follows_pure _
    | none =>
        cases e.leftMost rw.unguarded p with
        | none => exact follows_nodeCode (fun i c => ih rw (i :: p) c) e
        | some found =>
            obtain ⟨safe, receiver⟩ := found
            dsimp only
            split
            · refine follows_bind (ih rw (0 :: safe) receiver) fun code => ?_
              -- the node itself is visited again, which is why the induction is on how deep visits may lie
              split
              · refine follows_bind follows_allocate fun t => Follows.converting ?_
                refine follows_bind (ih _ p e) fun access => ?_
                exact follows_bind (follows_release t) fun _ => follows_pure _
              · exact Follows.converting (follows_bind (ih _ p e) fun access => follows_pure _)
            · exact follows_throw beyond

mutual

theorem follows_statementsOnStacks (limit : Nat) : ∀ (p : Path) (e : Expr),
    Follows {} (e.statementsOnStacks host beyond limit p) (e.visitStatements host (throw beyond) limit p)
  | p, .chain _ es => by
    rw [Expr.statementsOnStacks, Expr.visitStatements]
    exact follows_allStatementsOnStacks limit p 0 es
  | _, .context _ | _, .interpolation .. => by
    rw [Expr.statementsOnStacks, Expr.visitStatements]
    exact follows_bind (follows_printed _) fun _ => follows_throw _
  | p, .conditional .. | p, .read .. | p, .write .. | p, .safeRead .. | p, .index .. | p, .indexWrite ..
  | p, .method .. | p, .safeMethod .. | p, .call .. | p, .binary .. | p, .not .. | p, .present ..
  | p, .literal .. | p, .array .. | p, .map .. | p, .pipe .. | p, .quote .. | p, .builtin .. =>
    follows_bind (follows_code (follows_visitOnStacks limit {} p _)) fun _ => follows_pure _

theorem follows_allStatementsOnStacks (limit : Nat) : ∀ (p : Path) (i : Nat) (es : List Expr),
    Follows {} (Expr.allStatementsOnStacks host beyond limit p i es)
      (Expr.visitAllStatements host (throw beyond) limit p i es)
  | _, _, [] => follows_pure []
  | p, i, e :: es => by
    rw [Expr.allStatementsOnStacks, Expr.visitAllStatements]
    refine follows_bind (follows_statementsOnStacks limit (i :: p) e) fun ss => ?_
    exact follows_bind (follows_allStatementsOnStacks limit p (i + 1) es) fun _ => follows_pure _

end

end Visits

/-! ### Bindings -/

/-- A binding that starts with the marks `m` ends with them. -/
theorem Follows.lowerBinding {m : μ} {q : Lower (σ × μ) α} {p : Lower σ α} (h : Follows m q p)
    (host : Host σ) (b : Text) (s : σ) :
    outcome (lowerBinding host.marking b q) (s, m) = (outcome (lowerBinding host b p) s).map id (·, m) := by
  have hstart : outcome q { host := (s, m), temporaries := { binding := b } } =
      (outcome p { host := s, temporaries := { binding := b } }).map id (·.mark m) :=
    h { host := s, temporaries := { binding := b } }
  rw [outcome_lowerBinding_eq, outcome_lowerBinding_eq, hstart]
  rcases outcome p { host := s, temporaries := { binding := b } } with ⟨f | a, final⟩
  · rfl
  · dsimp only [Prod.map, id, Lowering.mark]
    split
    · rfl
    · split <;> rfl

/-- What a binding makes of `e` on stacks that are empty at first is what lowering makes of it, and the stacks are
empty at the end, where visits may lie within each other twice as deep as there are nodes. -/
structure LeavesEmpty (host : Host σ) (b : Text) (e : Expr) (s : σ) : Prop where
  value : ∀ (beyond : Failure) (limit : Nat), 2 * e.nodes.length ≤ limit →
    outcome (lowerBinding host.marking b (e.visitOnStacks host beyond limit []).code) (s, {}) =
      (outcome (lowerBinding host b (e.lower host)) s).map id (·, {})
  statements : ∀ (beyond : Failure) (limit : Nat), 2 * e.nodes.length ≤ limit →
    outcome (lowerBinding host.marking b (e.statementsOnStacks host beyond limit [])) (s, {}) =
      (outcome (lowerBinding host b (e.lowerStatements host)) s).map id (·, {})

theorem leavesEmpty (host : Host σ) (b : Text) (e : Expr) (s : σ) : LeavesEmpty host b e s where
  value beyond limit h := by
    have hvisit : Follows {} (e.visitOnStacks host beyond limit []) (e.visit host (throw beyond) limit {} []) :=
      follows_visitOnStacks limit {} [] e
    rw [visit_eq_made e [] h] at hvisit
    exact (follows_code hvisit).lowerBinding host b s
  statements beyond limit h := by
    have hvisit : Follows {} (e.statementsOnStacks host beyond limit [])
        (e.visitStatements host (throw beyond) limit []) := follows_statementsOnStacks limit [] e
    rw [visitStatements_eq e [] h] at hvisit
    exact hvisit.lowerBinding host b s

end TemplateCompiler
