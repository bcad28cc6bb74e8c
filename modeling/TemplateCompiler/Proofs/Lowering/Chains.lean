import Mathlib.Tactic.Choose
import TemplateCompiler.Proofs.Expr.Children
import TemplateCompiler.Proofs.Lowering.Discipline
import TemplateCompiler.Proofs.Lowering.Internal
import TemplateCompiler.Proofs.Lowering.Steady

/-!
# Handlers of several actions

A handler of several actions is lowered like its actions one by one: every action finds the temporaries,
and what is known of the context, as it would by itself.

* `Handled` : what comes of a handler: its temporaries, its values and whether the host is told;
* `Handled.join` : what comes of handlers one after the other;
* `Handles` : what is lowered, for a host whose answers depend on nothing but the question;
* `lowerAction_chain` : a chain comes to what its items come to, one after the other.
-/

namespace TemplateCompiler

/-! ### What comes of a handler -/

/-- What comes of a handler. -/
structure Handled where
  /-- How many temporaries are declared. -/
  count : Nat
  /-- The values of its statements. -/
  values : List Term
  /-- Whether the host is told of a use of the context. -/
  told : Bool
deriving Inhabited

namespace Handled

/-- What comes of handlers one after the other: the temporaries are shared. -/
def join (xs : List Handled) : Handled where
  count := (xs.map count).foldr max 0
  values := xs.flatMap values
  told := xs.any told

/-- The declarations of the temporaries, and all values but the last. -/
def before (b : Text) (x : Handled) : List Stmt :=
  temporaryDeclarations b x.count ++ x.values.dropLast.map Stmt.ofTerm

/-- The code: the last value, if there is one, is kept in a constant. -/
def code (b : Text) (x : Handled) : ActionCode where
  statements := x.before b ++ x.values.getLast?.toList.map fun v => .const ("pd_" ++ b) v.verdict
  preventDefault := x.values.getLast?.map fun _ => "pd_" ++ b

/-- The body of a function: the last value, if there is one, is returned. -/
def functionBody (b : Text) (x : Handled) : List Stmt :=
  x.before b ++ x.values.getLast?.toList.map fun v => .ret none v.verdict

theorem join_cons (x : Handled) (xs : List Handled) :
    join (x :: xs) =
      ⟨max x.count (join xs).count, x.values ++ (join xs).values, x.told || (join xs).told⟩ := rfl

theorem withPreventDefault_eq (b : Text) (x : Handled) :
    withPreventDefault b (temporaryDeclarations b x.count ++ x.values.map Stmt.ofTerm) = x.code b := by
  obtain ⟨count, values, told⟩ := x
  rcases List.eq_nil_or_concat values with rfl | ⟨ts, t, rfl⟩
  · have h := withPreventDefault_declarations b { binding := b, count }
    rw [declarations_eq rfl] at h
    exact h.trans (congrArg (ActionCode.mk · none) (by simp [before]))
  · rw [List.concat_eq_append, List.map_append, ← List.append_assoc]
    refine (withPreventDefault_concat b _ t).trans ?_
    simp [code, before, Term.verdict, preventDefaultStmt]

theorem functionBody_code (b : Text) (x : Handled) : (x.code b).functionBody = x.functionBody b := by
  obtain ⟨count, values, told⟩ := x
  have hdeclared : ∀ kept, (ActionCode.mk (temporaryDeclarations b count) kept).functionBody =
      temporaryDeclarations b count := fun kept => by
    have h := functionBody_declarations { binding := b, count } kept
    rwa [declarations_eq rfl] at h
  rw [code, functionBody_append, before, functionBody_append, functionBody_map_ofTerm, hdeclared,
    functionBody, before]
  refine congrArg _ ?_
  dsimp only
  cases values.getLast? with
  | none => rfl
  | some v => exact functionBody_preventDefaultStmt ("pd_" ++ b) v

theorem preventDefault_eq_none_iff (b : Text) (x : Handled) :
    (x.code b).preventDefault = none ↔ x.values = [] := by
  rw [code, Option.map_eq_none_iff, List.getLast?_eq_none_iff]

end Handled

/-! ### Handlers of one host -/

/-- What a handler is lowered to, by a host that was told of `k` uses before. -/
structure Handles (host : Host Unit) (b : Text) (k : Nat) (e : Expr) (x : Handled) : Prop where
  /-- The statements, before the last value is looked at. -/
  body : ∃ stack : TemporaryStack, stack.declarations = temporaryDeclarations b x.count ∧
    outcome (actionBody host.counting e b) ((), k) =
      (.ok (x.values.map Stmt.ofTerm, stack), ((), k + x.told.toNat))
  code : outcome (lowerAction host.counting e b) ((), k) = (.ok (x.code b), ((), k + x.told.toNat))

variable {host : Host Unit} {b : Text} {k : Nat}

/-- A handler that is lowered the same after other handlers. -/
def Lowers (host : Host Unit) (b : Text) (k : Nat) (e : Expr) (x : Handled) : Prop :=
  ∃ e', e.replaceBuiltins BuiltinFactory.literal = .ok e' ∧
    Reports b ((), k) 0 (e'.lowerStatements host.counting)
      (.done (x.values.map Stmt.ofTerm) x.count x.told ((), k))

theorem Lowers.handles {e : Expr} {x : Handled} (h : Lowers host b k e x) : Handles host b k e x := by
  obtain ⟨e', hreplace, hreports⟩ := h
  obtain ⟨stack, hbinding, hcount, hrun⟩ := hreports.concludes host.counting
  have hdeclarations : stack.declarations = temporaryDeclarations b x.count := by
    rw [declarations_eq hbinding, hcount]
  have htold : (if x.told then (host.counting.notify.run ((), k)).2 else ((), k)) =
      ((), k + x.told.toNat) := Prod.ext rfl (counting_notify host x.told ((), k))
  have hbody : outcome (actionBody host.counting e b) ((), k) =
      (.ok (x.values.map Stmt.ofTerm, stack), ((), k + x.told.toNat)) := by
    rw [actionBody, hreplace, hrun, htold]
  refine ⟨⟨stack, hdeclarations, hbody⟩, ?_⟩
  rw [lowerAction, outcome_bind, hbody]
  dsimp only
  rw [hdeclarations, Handled.withPreventDefault_eq, outcome_pure]

/-- What succeeds after other handlers is lowered the same by itself. -/
theorem exists_lowers {e e' : Expr} {s s' : Lowering (Unit × Nat)} {ss : List Stmt}
    (hs : s.Before b ((), k) 0) (hreplace : e.replaceBuiltins BuiltinFactory.literal = .ok e')
    (hrun : outcome (e'.lowerStatements host.counting) s = (.ok ss, s')) :
    (∃ x, Lowers host b k e x) ∧ s'.Before b ((), k) 0 := by
  have hpermits : e'.Every fun _ => True := (Expr.every_iff_nodes e').mpr fun _ _ => trivial
  obtain ⟨r, hr, htold, hvalues⟩ := steady_lowerStatements (A := .silent host b) e' hpermits ((), k) 0
  have htells := hr s hs
  rw [hrun] at htells
  cases r with
  | failed f h =>
      obtain ⟨_, hfailed, -⟩ := htells
      cases hfailed
  | done ss n used h =>
      obtain ⟨_, hdone, hafter⟩ := htells
      cases hdone
      obtain ⟨ts, rfl, -⟩ := hvalues
      obtain rfl : h = ((), k) := Prod.ext rfl htold
      exact ⟨⟨⟨n, ts, used⟩, e', hreplace, hr⟩, hs.after hafter⟩

theorem exists_lowersAll {es : List Expr} : ∀ {es' : List Expr} {s s' : Lowering (Unit × Nat)}
    {ss : List Stmt}, s.Before b ((), k) 0 →
    Expr.rebuildAllM (Expr.replaceBuiltin BuiltinFactory.literal) es = .ok es' →
    outcome (Expr.lowerAllStatements host.counting es') s = (.ok ss, s') →
    ∀ e ∈ es, ∃ x, Lowers host b k e x := by
  induction es with
  | nil => exact fun _ _ _ => List.forall_mem_nil _
  | cons e es ih =>
      intro es' s s' ss hs hreplace hrun
      rw [Expr.rebuildAllM_cons] at hreplace
      obtain ⟨e', he, hreplace⟩ := except_bind_ok.mp hreplace
      obtain ⟨es', hes, hreplace⟩ := except_bind_ok.mp hreplace
      cases hreplace
      rw [Expr.lowerAllStatements] at hrun
      obtain ⟨ss₁, s₁, hfirst, hrun⟩ := outcome_bind_ok.mp hrun
      obtain ⟨ss₂, s₂, hrest, -⟩ := outcome_bind_ok.mp hrun
      -- the first item leaves the host and the depth as they were, so the others start as by themselves
      obtain ⟨hx, hs₁⟩ := exists_lowers hs he hfirst
      exact List.forall_mem_cons.mpr ⟨hx, ih hs₁ hes hrest⟩

/-- Handlers that are lowered the same after others are so one after the other. -/
theorem lowersAll_join {es : List Expr} {f : Expr → Handled}
    (h : ∀ e ∈ es, Lowers host b k e (f e)) :
    ∃ es', Expr.rebuildAllM (Expr.replaceBuiltin BuiltinFactory.literal) es = .ok es' ∧
      Reports b ((), k) 0 (Expr.lowerAllStatements host.counting es')
        (.done ((Handled.join (es.map f)).values.map Stmt.ofTerm) (Handled.join (es.map f)).count
          (Handled.join (es.map f)).told ((), k)) := by
  induction es with
  | nil =>
      refine ⟨[], rfl, ?_⟩
      rw [Expr.lowerAllStatements]
      exact reports_pure []
  | cons e es ih =>
      obtain ⟨⟨e', he, hfirst⟩, hes⟩ := List.forall_mem_cons.mp h
      obtain ⟨es', hes, hrest⟩ := ih hes
      refine ⟨e' :: es', ?_, ?_⟩
      · rw [Expr.rebuildAllM_cons, show e.rebuildM _ = _ from he, hes]
        rfl
      · have hrest := hrest.map fun ss => (f e).values.map Stmt.ofTerm ++ ss
        rw [Expr.lowerAllStatements, List.map_cons, Handled.join_cons, List.map_append]
        exact hfirst.bind (r := .done _ _ _ _) hrest

theorem lowers_chain {es : List Expr} {f : Expr → Handled} (p : Place)
    (h : ∀ e ∈ es, Lowers host b k e (f e)) : Lowers host b k (.chain p es) (.join (es.map f)) := by
  obtain ⟨es', hes, hreports⟩ := lowersAll_join h
  refine ⟨.chain p es', ?_, ?_⟩
  · rw [Expr.replaceBuiltins, Expr.rebuildM, hes]
    rfl
  · rwa [Expr.lowerStatements]

/-- A handler that is lowered ran its statements. -/
theorem exists_of_succeeds {e : Expr} (h : Succeeds (lowerAction host.counting e b) ((), k)) :
    ∃ e' s ss s', s.Before b ((), k) 0 ∧ e.replaceBuiltins BuiltinFactory.literal = .ok e' ∧
      outcome (e'.lowerStatements host.counting) s = (.ok ss, s') := by
  obtain ⟨code, s', h⟩ := h
  obtain ⟨e', body, stack, hreplace, hbinding, -⟩ := lowerAction_cases h
  obtain ⟨final, hrun, -⟩ := outcome_lowerBinding_ok hbinding
  exact ⟨e', _, body, final, ⟨rfl, rfl, rfl⟩, hreplace, hrun⟩

theorem succeeds_iff_exists_lowers {e : Expr} :
    Succeeds (lowerAction host.counting e b) ((), k) ↔ ∃ x, Lowers host b k e x := by
  constructor
  · intro h
    obtain ⟨e', s, ss, s', hs, hreplace, hrun⟩ := exists_of_succeeds h
    exact (exists_lowers hs hreplace hrun).1
  · rintro ⟨x, hx⟩
    exact ⟨_, _, hx.handles.code⟩

theorem forall_exists_lowers_of_chain {p : Place} {es : List Expr}
    (h : Succeeds (lowerAction host.counting (.chain p es) b) ((), k)) :
    ∀ e ∈ es, ∃ x, Lowers host b k e x := by
  obtain ⟨e', s, ss, s', hs, hreplace, hrun⟩ := exists_of_succeeds h
  rw [Expr.replaceBuiltins, Expr.rebuildM] at hreplace
  obtain ⟨es', hes, hreplace⟩ := except_bind_ok.mp hreplace
  cases hreplace
  rw [Expr.lowerStatements] at hrun
  exact exists_lowersAll hs hes hrun

/-- Lowering a chain of actions is lowering its items: it succeeds if all of them do, and comes to what
they come to one after the other. Only the last value of all is kept, or returned in the body of a
function. -/
theorem lowerAction_chain (host : Host Unit) (b : Text) (p : Place) (es : List Expr) (k : Nat) :
    (Succeeds (lowerAction host.counting (.chain p es) b) ((), k) ↔
      ∀ e ∈ es, Succeeds (lowerAction host.counting e b) ((), k)) ∧
    (Succeeds (lowerAction host.counting (.chain p es) b) ((), k) →
      ∃ f : Expr → Handled, (∀ e ∈ es, Handles host b k e (f e)) ∧
        let x := Handled.join (es.map f)
        Handles host b k (.chain p es) x ∧ (x.code b).functionBody = x.functionBody b ∧
          ((x.code b).preventDefault = none ↔ x.values = [])) := by
  refine ⟨⟨fun h e he => ?_, fun h => ?_⟩, fun h => ?_⟩
  · exact succeeds_iff_exists_lowers.mpr (forall_exists_lowers_of_chain h e he)
  · choose! f hf using fun e he => succeeds_iff_exists_lowers.mp (h e he)
    exact succeeds_iff_exists_lowers.mpr ⟨_, lowers_chain p hf⟩
  · choose! f hf using forall_exists_lowers_of_chain h
    exact ⟨f, fun e he => (hf e he).handles, (lowers_chain p hf).handles,
      Handled.functionBody_code b _, Handled.preventDefault_eq_none_iff b _⟩

namespace Sample

/-- The handler `f()?.a; f()?.a`. -/
def guardedTwice : Expr := .chain ⟨none, none⟩ [guardedRead, guardedRead]

/-- Two safe reads are lowered like one, twice, and share the temporary. -/
theorem guardedTwice_handles : Succeeds (lowerAction plainHost.counting guardedTwice "0") ((), 0) ∧
    ∃ x, Handles plainHost "0" 0 guardedRead x ∧ Handles plainHost "0" 0 guardedTwice (.join [x, x]) := by
  have hrun : Succeeds (lowerAction plainHost.counting guardedTwice "0") ((), 0) := ⟨_, _, rfl⟩
  obtain ⟨f, hitems, hchain, -⟩ := (lowerAction_chain plainHost "0" _ _ 0).2 hrun
  exact ⟨hrun, f guardedRead, hitems guardedRead List.mem_cons_self, hchain⟩

end Sample

end TemplateCompiler
