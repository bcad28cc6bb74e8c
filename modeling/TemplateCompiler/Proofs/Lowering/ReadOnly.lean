import TemplateCompiler.Proofs.Expr.Convertible
import TemplateCompiler.Proofs.Expr.Printing
import TemplateCompiler.Proofs.Lowering.Closure
import TemplateCompiler.Proofs.Lowering.Failing
import TemplateCompiler.Proofs.Lowering.Parts

/-!
# Locals are read only

A handler may write to a member of the context. If a resolver knows the member, that is a write to a local,
and it is allowed only where the local stands for a property.

* `Stmt.AssignsProperly b ss` : the statements assign to members, to entries and to the temporaries that
  they declare for the binding `b`, and to nothing else;
* `Expr.StandsForContext lookup r` : the receiver `r` is the context, or a local that is the context itself;
* `Expr.IsForbidden context lookup w` : the node `w` is a write to a local that is no property;
* `locals_readOnly` : all code assigns properly, and what has a forbidden write in it has no code. It
  fails for the input's sake, if nothing is wrong with the nodes that are lowered with the write
  (`Expr.isFair`).
-/

namespace TemplateCompiler

open TemporaryStack (nameOf)

/-! ### What code assigns to -/

/-- What is assigned to: a member, an entry or a temporary. -/
inductive Term.Target (b : Text) (declared : Nat → Prop) : Term → Prop
  | prop {note : Note} {o : Term} {name : Text} : Target b declared (.prop note o name)
  | key {note : Note} {o i : Term} : Target b declared (.key note o i)
  | temporary {k : Nat} : declared k → Target b declared (.ofVar (nameOf b k))

theorem Term.Target.mono {b : Text} {D D' : Nat → Prop} {t : Term} (hD : ∀ k, D k → D' k)
    (h : t.Target b D) : t.Target b D' := by
  cases h with
  | prop => exact .prop
  | key => exact .key
  | temporary hk => exact .temporary (hD _ hk)

def AssignsTo (P : Term → Prop) (nodes : List Term) : Prop :=
  ∀ note target value, .binary note .assign target value ∈ nodes → P target

/-- Statements assign to members, entries and the temporaries they declare. -/
def Stmt.AssignsProperly (b : Text) (ss : List Stmt) : Prop :=
  AssignsTo (Term.Target b fun k => .declare none {} (nameOf b k) none ∈ ss) (Stmt.nodesAll ss)

namespace AssignsTo

variable {P : Term → Prop} {c t u : Term} {ts us heads : List Term}

theorem mono {P' : Term → Prop} (hP : ∀ t, P t → P' t) (h : AssignsTo P ts) : AssignsTo P' ts :=
  fun note target value hmem => hP target (h note target value hmem)

theorem of_none (h : ∀ t ∈ ts, t.isAssignment = false) : AssignsTo P ts :=
  fun _ _ _ hmem => nomatch h _ hmem

theorem append (ht : AssignsTo P ts) (hu : AssignsTo P us) : AssignsTo P (ts ++ us) :=
  fun note target value hmem =>
    (List.mem_append.mp hmem).elim (ht note target value) (hu note target value)

theorem all (h : ∀ t ∈ ts, AssignsTo P t.nodes) : AssignsTo P (Term.nodesAll ts) := by
  induction ts with
  | nil => exact fun _ _ _ hmem => nomatch hmem
  | cons t ts ih =>
      obtain ⟨ht, hts⟩ := List.forall_mem_cons.mp h
      exact ht.append (ih hts)

theorem single (h : AssignsTo P t.nodes) : ∀ u ∈ [t], AssignsTo P u.nodes :=
  List.forall_mem_singleton.mpr h

/-- Terms that are made of others without an assignment. -/
theorem madeOf_all (h : Term.MadeOf us heads ts) (hheads : ∀ t ∈ heads, t.isAssignment = false)
    (hts : ∀ t ∈ ts, AssignsTo P t.nodes) : AssignsTo P (Term.nodesAll us) :=
  fun note target value hmem =>
    ((of_none hheads).append (all hts)) note target value (h.nodes.mem_iff.mp hmem)

theorem madeOf (h : Term.MadeOf [u] heads ts) (hheads : ∀ t ∈ heads, t.isAssignment = false)
    (hts : ∀ t ∈ ts, AssignsTo P t.nodes) : AssignsTo P u.nodes := by
  have hu := madeOf_all h hheads hts
  rwa [Term.nodesAll, Term.nodesAll, List.append_nil] at hu

theorem set (htarget : P t) (ht : AssignsTo P t.nodes) (hu : AssignsTo P u.nodes) :
    AssignsTo P (Term.set t u).nodes := by
  intro note target value hmem
  rcases List.mem_cons.mp hmem with heq | hmem
  · cases heq
    exact htarget
  · exact ht.append hu note target value hmem

theorem operation {op : Operator} (hop : op ≠ .assign) (note : Note) (ht : AssignsTo P t.nodes)
    (hu : AssignsTo P u.nodes) : AssignsTo P (Term.operation op t u note).nodes := by
  intro note target value hmem
  rcases List.mem_cons.mp hmem with heq | hmem
  · cases heq
    exact absurd rfl hop
  · exact ht.append hu note target value hmem

theorem apply (hc : AssignsTo P c.nodes) (hts : ∀ t ∈ ts, AssignsTo P t.nodes) :
    AssignsTo P (Term.apply c ts).nodes :=
  madeOf (Term.madeOf_apply c ts) (by simp [Term.apply, Term.isAssignment])
    (List.forall_mem_cons.mpr ⟨hc, hts⟩)

theorem ofList (hts : ∀ t ∈ ts, AssignsTo P t.nodes) : AssignsTo P (Term.ofList ts).nodes :=
  madeOf (Term.madeOf_ofList ts) (by simp [Term.ofList, Term.isAssignment]) hts

theorem value (v : Primitive) : AssignsTo P (Term.ofValue v).nodes :=
  of_none (List.forall_mem_singleton.mpr rfl)

/-- A builtin that is written out assigns as its arguments do. -/
theorem written (kind : Builtin) (hts : ∀ t ∈ ts, AssignsTo P t.nodes) :
    AssignsTo P (kind.written ts).nodes := by
  cases kind with
  | array => exact ofList hts
  | map keys =>
      refine madeOf (Term.madeOf_ofEntries ts keys) (by simp [Term.ofEntries, Term.isAssignment]) ?_
      exact fun t ht => hts t (List.mem_of_mem_take ht)
  | pipe slot offset =>
      exact ofList (List.forall_mem_cons.mpr ⟨value _, List.forall_mem_cons.mpr ⟨value _, hts⟩⟩)
  | call f => exact apply (of_none (List.forall_mem_singleton.mpr rfl)) hts

theorem inlineOrVariadic (limit : Int) (hts : ∀ t ∈ ts, AssignsTo P t.nodes) :
    AssignsTo P (TemplateCompiler.inlineOrVariadic limit ts).nodes := by
  have himported : ∀ name, AssignsTo P (Term.imported coreModule name).nodes :=
    fun _ => of_none (List.forall_mem_singleton.mpr rfl)
  unfold TemplateCompiler.inlineOrVariadic
  split
  · exact apply (himported _) hts
  · refine apply (himported _) (List.forall_mem_append.mpr ⟨?_, single (ofList ?_)⟩)
    · exact fun t ht => hts t (List.mem_of_mem_take ht)
    · exact fun t ht => hts t (List.mem_of_mem_drop ht)

end AssignsTo

section Answers

variable {A : Answers} {b : Text} {N : Nat} {P : Term → Prop}

/-- Answers without assignments, where builtins are written out and interpolations passed on. -/
structure Answers.Unassigning (A : Answers) : Prop where
  context : ∀ x ∈ A.context.nodes, x.isAssignment = false
  lookup : ∀ name t, A.lookup name (some (.term t)) → ∀ x ∈ t.nodes, x.isAssignment = false
  builtin : ∀ kind ts t, A.builtin kind ts t → t = kind.written ts
  interpolate : ∀ args t, A.interpolate args t → ∃ limit, t = inlineOrVariadic limit args

/-- Code assigns to members, to entries and to the temporaries it needs. -/
theorem Answers.Unassigning.inherited (hA : A.Unassigning) : A.Inherited b N (fun _ => True)
    fun t => AssignsTo (Term.Target b (· < N)) t.nodes where
  context := .of_none hA.context
  found _ _ h := .of_none (hA.lookup _ _ h)
  temporary _ := .of_none (List.forall_mem_singleton.mpr rfl)
  value := .value
  prop name ht := .madeOf (Term.madeOf_prop _ name {}) (by simp [Term.isAssignment]) (.single ht)
  key ht hu := .madeOf (Term.madeOf_key _ _ {}) (by simp [Term.isAssignment])
    (List.forall_mem_cons.mpr ⟨ht, .single hu⟩)
  operation note hop ht hu := .operation hop note ht hu
  setTemporary hk ht := .set (.temporary hk) (.of_none (List.forall_mem_singleton.mpr rfl)) ht
  setProp ho ht := .set .prop ho ht
  setKey ho ht := .set .key ho ht
  choose hc ht hu := .madeOf (Term.madeOf_choose _ _ _) (by simp [Term.choose, Term.isAssignment])
    (List.forall_mem_cons.mpr ⟨hc, List.forall_mem_cons.mpr ⟨ht, .single hu⟩⟩)
  negate ht := .madeOf (Term.madeOf_negate _) (by simp [Term.negate, Term.isAssignment]) (.single ht)
  assertPresent ht := .madeOf (Term.madeOf_assertPresent _)
    (by simp [Term.assertPresent, Term.isAssignment]) (.single ht)
  erased ht := .madeOf (Term.madeOf_erased _) (by simp [Term.erased, Term.isAssignment]) (.single ht)
  apply hc hts := .apply hc hts
  applyMethod name hc hts := .madeOf (Term.madeOf_applyMethod _ _ name)
    (by simp [Term.applyMethod, Term.isAssignment]) (List.forall_mem_cons.mpr ⟨hc, hts⟩)
  interpolate hargs h := by
    obtain ⟨limit, rfl⟩ := hA.interpolate _ _ h
    exact .inlineOrVariadic limit hargs
  builtin _ _ hts h := by
    rw [hA.builtin _ _ _ h]
    exact .written _ hts

end Answers

/-! ### Statements -/

section Statements

variable {b : Text}

theorem mem_declarations {stack : TemporaryStack} {k : Nat} (h : k < stack.count) :
    .declare none {} (nameOf stack.binding k) none ∈ stack.declarations :=
  List.mem_map.mpr ⟨k, List.mem_range.mpr h, rfl⟩

/-- The statements of a handler assign to the temporaries of their declarations only. -/
theorem assignsProperly_withPreventDefault {stack : TemporaryStack} (hb : stack.binding = b)
    {ts : List Term} (h : ∀ t ∈ ts, AssignsTo (Term.Target b (· < stack.count)) t.nodes) :
    Stmt.AssignsProperly b
      (withPreventDefault b (stack.declarations ++ ts.map Stmt.ofTerm)).statements := by
  subst hb
  rcases List.eq_nil_or_concat ts with rfl | ⟨us, t, rfl⟩
  · rw [List.map_nil, withPreventDefault_declarations, Stmt.AssignsProperly,
      Term.nodesAll_declarations]
    exact fun _ _ _ hmem => nomatch hmem
  · rw [List.concat_eq_append] at h ⊢
    obtain ⟨hus, ht⟩ := List.forall_mem_append.mp h
    have hverdict : AssignsTo (Term.Target stack.binding (· < stack.count)) (Term.verdict t).nodes := by
      refine .madeOf (Term.madeOf_verdict t) ?_ ht
      simp [Term.verdict, Term.operation, Term.erased, Term.ofValue, Term.isAssignment]
    rw [List.map_append, ← List.append_assoc]
    change Stmt.AssignsProperly _ (withPreventDefault _ (_ ++ [Stmt.ofTerm t])).statements
    rw [withPreventDefault_concat, Stmt.AssignsProperly, Stmt.nodesAll_append, Stmt.nodesAll_append,
      Term.nodesAll_declarations, List.nil_append, Stmt.nodesAll_map_ofTerm]
    refine ((AssignsTo.all hus).append (AssignsTo.all (AssignsTo.single hverdict))).mono fun t ht => ?_
    refine ht.mono fun k hk => ?_
    exact List.mem_append_left _ (List.mem_append_left _ (mem_declarations hk))

/-- The value of a property assigns to the temporaries that are declared before it. -/
theorem assignsProperly_value {stack : TemporaryStack} (hb : stack.binding = b) {t : Term}
    (h : AssignsTo (Term.Target b (· < stack.count)) t.nodes) (name : Text) :
    Stmt.AssignsProperly b (stack.declarations ++ [.const name t] ++ [.ofTerm (.ofVar name)]) := by
  subst hb
  have hname : AssignsTo (Term.Target stack.binding (· < stack.count)) (Term.ofVar name).nodes :=
    .of_none (List.forall_mem_singleton.mpr rfl)
  rw [Stmt.AssignsProperly, List.append_assoc, Stmt.nodesAll_append, Term.nodesAll_declarations]
  refine (AssignsTo.all (List.forall_mem_cons.mpr ⟨h, .single hname⟩)).mono fun t ht => ?_
  exact ht.mono fun k hk => List.mem_append_left _ (mem_declarations hk)

end Statements

/-! ### Writes to locals -/

def Failure.isInput : Failure → Bool
  | error e => !e.internal
  | defect _ => false

/-- An error of the input, or one of the stack of temporaries, which no binding ends with. -/
def Failure.Expected (f : Failure) : Prop := f.isInput = true ∨ f.breaksStack = true

theorem allows_expected : Allows Failure.Expected := ⟨fun _ _ => .inl rfl, fun _ h => .inr h⟩

theorem Failure.Expected.isInput {f : Failure} (h : f.Expected) (hstack : f.breaksStack = false) :
    f.isInput = true :=
  h.resolve_right (by rw [hstack]; exact Bool.false_ne_true)

variable {σ α : Type}

/-- A receiver that is the context, or a local of it that always stands for the context itself. -/
def Expr.StandsForContext (lookup : Text → StateM σ (Option Found)) : Expr → Prop
  | context _ => True
  | read _ r name => r.StandsForContext lookup ∧ ∀ s, ((lookup name).run s).1 = some .context
  | _ => False

/-- A write to a member of the context that is a local, but no property, whenever it is looked up. -/
def Expr.IsForbidden (context : Term) (lookup : Text → StateM σ (Option Found)) : Expr → Prop
  | write _ r name _ => r.StandsForContext lookup ∧ ∀ s, ∃ f, ((lookup name).run s).1 = some f ∧
      ∀ note o field, (f.made context).code ≠ .prop note o field
  | _ => False

namespace Expr

/-- Whether nothing is wrong with a node but for the input's sake, given that its parts have code. -/
def isFair : Expr → Bool
  | chain .. | literal _ (.int _) => false
  | interpolation _ texts es => texts.length == es.length + 1
  | binary _ o _ _ => (sourceOperator? o).isSome
  | map _ keys es | builtin _ (.map keys) es => keys.length ≤ es.length
  | _ => true

/-- An item of a handler with fair nodes. The bare context and interpolations are no statements. -/
structure FairItem (e : Expr) : Prop where
  every : e.Every fun x => x.isFair = true
  context : e.isContext = false
  interpolation : e.isInterpolation = false

theorem StandsForContext.safeReceivers {lookup : Text → StateM σ (Option Found)} {r : Expr} :
    r.StandsForContext lookup → r.safeReceivers = [] := by
  induction r using Expr.induct with
  | step r ih =>
      intro h
      cases r with
      | context => rfl
      | read p r name => exact ih r List.mem_cons_self h.1
      | _ => cases h

theorem isFair_written {e : Expr} (h : e.isFair = true) : e.written.isFair = true := by
  cases e with
  | interpolation p texts es =>
      change (texts.length == (writtenAll es).length + 1) = true
      rw [length_writtenAll]
      exact h
  | map p keys es =>
      change decide (keys.length ≤ (writtenAll es).length) = true
      rw [length_writtenAll]
      exact h
  | builtin p kind es =>
      cases kind with
      | map keys =>
          change decide (keys.length ≤ (writtenAll es).length) = true
          rw [length_writtenAll]
          exact h
      | _ => exact h
  | _ => exact h

theorem FairItem.written {e : Expr} (h : e.FairItem) : e.written.FairItem where
  every := every_written (fun _ => isFair_written) e h.every
  context := by rw [isContext_written, h.context]
  interpolation := by
    cases e with
    | interpolation => cases h.interpolation
    | _ => rfl

theorem not_isCollection_of_replaceBuiltins {e e' : Expr}
    (h : e.replaceBuiltins BuiltinFactory.literal = .ok e') :
    e'.Every fun x => x.isCollection = false := by
  have htrue : e.Every fun _ => True := (every_iff_nodes e).mpr fun _ _ => trivial
  refine every_of_replaceBuiltins (fun _ _ _ _ => trivial) (fun x y _ hy => ?_) e htrue h
  cases x <;> cases hy <;> exact ⟨rfl, rfl⟩

theorem StandsForContext.written {lookup : Text → StateM σ (Option Found)} {r : Expr} :
    r.StandsForContext lookup → r.written.StandsForContext lookup := by
  induction r using Expr.induct with
  | step r ih =>
      intro h
      cases r with
      | context => exact h
      | read p r name => exact ⟨ih r List.mem_cons_self h.1, h.2⟩
      | _ => cases h

theorem IsForbidden.written {context : Term} {lookup : Text → StateM σ (Option Found)} {w : Expr}
    (h : w.IsForbidden context lookup) : w.written.IsForbidden context lookup := by
  cases w with
  | write p r name v => exact ⟨h.1.written, h.2⟩
  | _ => cases h

/-- Replacing a pipe of a handler fails for the input's sake. -/
theorem isInput_of_replaceBuiltins {e : Expr} {f : Failure}
    (h : e.replaceBuiltins BuiltinFactory.literal = .error f) : f.isInput = true := by
  refine errorsIn_rebuildM (Q := fun f => f.isInput = true) (fun x d hd => ?_) e f h
  cases x with
  | pipe p e name args =>
      cases hd
      rfl
  | _ => cases hd

end Expr

section Resolver

variable {context : Term} {lookup : Text → StateM σ (Option Found)} {notify : StateM σ Unit}
  {limit : Int} {b : Text}

theorem Answers.PlainCode.isContext_of_standsForContext {u : σ} {d n : Nat} {pins : Pins} {r : Expr}
    {m : Lowered}
    (h : PlainCode ((Host.ofResolverContract context lookup notify limit).at u) b d n pins r m)
    (hr : r.StandsForContext lookup) : m.isContext = true := by
  induction r using Expr.induct generalizing n m with
  | step r ih =>
      cases h with
      | context => rfl
      | read hc hfound =>
          obtain ⟨hreceiver, hname⟩ := hr
          have hcontext := ih _ List.mem_cons_self hc hreceiver
          rw [Answers.Resolves, if_pos hcontext] at hfound
          obtain ⟨s, hs⟩ := hfound
          rw [hname s] at hs
          rw [← hs]
          rfl
      | _ => cases hr

theorem Answers.Code.isContext_of_standsForContext {u : σ} {d n : Nat} {r : Expr} {m : Lowered}
    (h : Code ((Host.ofResolverContract context lookup notify limit).at u) b d n r m)
    (hr : r.StandsForContext lookup) : m.isContext = true := by
  obtain ⟨h⟩ := h
  rw [hr.safeReceivers] at h
  cases h with
  | plain h => exact h.isContext_of_standsForContext hr

theorem Answers.HasCode.not_isForbidden {u : σ} {x : Expr}
    (h : ((Host.ofResolverContract context lookup notify limit).at u).HasCode b x) :
    ¬x.IsForbidden context lookup := by
  cases x with
  | write p r name v =>
      rintro ⟨hreceiver, hlookup⟩
      obtain ⟨d, n, pins, t, hcode⟩ := h
      have hnever : ∀ {n c found},
          Answers.Code ((Host.ofResolverContract context lookup notify limit).at u) b d n r c →
          ((Host.ofResolverContract context lookup notify limit).at u).Resolves c name found →
          ∃ f, found = some f ∧ ∀ note o field, (f.made context).code ≠ .prop note o field := by
        intro n c found hc hfound
        rw [Answers.Resolves, if_pos (hc.isContext_of_standsForContext hreceiver)] at hfound
        obtain ⟨s, hs⟩ := hfound
        rw [← hs]
        exact hlookup s
      cases hcode with
      | write hc hnone _ =>
          obtain ⟨f, hf, -⟩ := hnever hc hnone
          cases hf
      | writeThrough hc hfound htarget _ =>
          obtain ⟨f, hf, hprop⟩ := hnever hc hfound
          cases hf
          exact hprop _ _ _ htarget
  | _ => exact id

theorem never_lower {e : Expr} (he : ¬e.Every fun x => ¬x.IsForbidden context lookup) (s : Lowering σ)
    (t : Term) (s' : Lowering σ) :
    outcome (e.lower (Host.ofResolver context lookup notify limit)) s ≠ (.ok t, s') := by
  intro hrun
  have h := makes_lower (C := Host.ofResolverContract context lookup notify limit)
    (b := s.temporaries.binding) e s trivial rfl
  rw [hrun] at h
  obtain ⟨-, n, -, hcode⟩ := h
  obtain ⟨m, hcode, -⟩ := hcode s'.host trivial
  have hevery := hcode.every
  exact he (hevery.imp₂ (fun _ hx _ => hx.not_isForbidden) hevery)

theorem never_lowerStatements {e : Expr} (he : ¬e.Every fun x => ¬x.IsForbidden context lookup)
    (s : Lowering σ) (ss : List Stmt) (s' : Lowering σ) :
    outcome (e.lowerStatements (Host.ofResolver context lookup notify limit)) s ≠ (.ok ss, s') := by
  intro hrun
  have h := makes_lowerStatements (C := Host.ofResolverContract context lookup notify limit)
    (b := s.temporaries.binding) e s trivial rfl
  rw [hrun] at h
  obtain ⟨-, n, -, hcode⟩ := h
  obtain ⟨ts, -, hcodes⟩ := hcode s'.host trivial
  have hevery := hcodes.every
  exact he (Expr.every_of_items (fun _ _ => id) e
    (hevery.imp₂ (fun _ hx _ => hx.not_isForbidden) hevery))

theorem Expr.not_every_written {e w : Expr} (hw : w ∈ e.nodes) (h : w.IsForbidden context lookup) :
    ¬e.written.Every fun x => ¬x.IsForbidden context lookup :=
  fun hall => (Expr.every_iff_nodes e.written).mp hall _ (Expr.written_mem_nodes e hw) h.written

/-- Fair nodes fail for the input's sake only: a value of such nodes has a printed form, and each key of a map
has a value. -/
theorem Expr.failsWithin_of_isFair (e : Expr) (h : e.Every fun x => x.isFair = true ∧ x.isCollection = false) :
    e.Every (FailsWithin (Host.ofResolver context lookup notify limit) Failure.Expected) := by
  have hprints : ∀ x : Expr, x.isFair = true → x.Prints fun _ => False := by
    intro x hx
    cases x with
    | literal p v =>
        cases v with
        | int n => cases hx
        | _ => exact errorsIn_pure _
    | _ => trivial
  induction e using induct with
  | step e ih =>
      obtain ⟨⟨hfair, hcollection⟩, hchildren⟩ := every_iff.mp h
      refine every_iff.mpr ⟨?_, everyAll_iff.mpr fun c hc => ih c hc (everyAll_iff.mp hchildren c hc)⟩
      cases e with
      | chain => cases hfair
      | array | map | pipe => cases hcollection
      | interpolation => exact ⟨.inl (eq_of_beq hfair), fun _ _ hrun => nomatch hrun⟩
      | binary => exact .inl hfair
      | write p r name v =>
          have hv : v.Every (Prints fun _ => False) :=
            Every.imp₂ (fun x hx _ => hprints x hx.1) hchildren.2.1 hchildren.2.1
          exact fun d hd => absurd hd fun hd => errorsIn_print v hv d hd
      | builtin p kind es =>
          intro ts s f s' hlength hrun
          obtain ⟨keys, rfl, hlt, -⟩ := Builtin.exists_of_write (congrArg Prod.fst hrun)
          have hle : keys.length ≤ es.length := of_decide_eq_true hfair
          omega
      | _ => trivial

theorem failsOnly_fair {e : Expr} (hfair : e.Every fun x => x.isFair = true)
    (hcollection : e.Every fun x => x.isCollection = false) :
    FailsOnly Failure.Expected (e.lower (Host.ofResolver context lookup notify limit)) :=
  failsOnly_lower allows_expected
    (e.failsWithin_of_isFair (hfair.imp₂ (fun _ hx hy => ⟨hx, hy⟩) hcollection))

theorem failsOnly_fairItem {e : Expr} (hfair : e.FairItem)
    (hcollection : e.Every fun x => x.isCollection = false) :
    FailsOnly Failure.Expected
      (e.lowerStatements (Host.ofResolver context lookup notify limit)) := by
  have hchain : ∀ p es, e ≠ .chain p es := by
    rintro p es rfl
    cases hfair.every.1
  exact failsOnly_lowerStatements allows_expected
    (e.failsWithin_of_isFair (hfair.every.imp₂ (fun _ hx hy => ⟨hx, hy⟩) hcollection)) hchain hfair.context
    hfair.interpolation

/-- A binding fails as its code does, and never for the stack's sake. -/
theorem exists_failure {Q : Failure → Prop} {code : Lower σ α} {post : Answers → Nat → Nat → α → Prop}
    (hmakes : Makes (Host.ofResolverContract context lookup notify limit) b code post)
    (hfails : FailsAlways Q code) (s : σ) :
    ∃ f s', outcome (lowerBinding (Host.ofResolver context lookup notify limit) b code) s =
      (.error f, s') ∧ Q f ∧ f.breaksStack = false := by
  obtain ⟨f, final, hrun, hQ⟩ := hfails { host := s, temporaries := { binding := b } }
  have hsettled := settled_lowerBinding hmakes s
  rw [outcome_lowerBinding_eq, hrun] at hsettled ⊢
  exact ⟨f, final.host, rfl, hQ, hsettled⟩

/-! ### Bindings -/

/-- Handlers fail at an item with a forbidden write in it, if there is nothing wrong with the item and with
those before it. -/
theorem failsAlways_items {e x w : Expr} {before after : List Expr}
    (hreplace : e.replaceBuiltins BuiltinFactory.literal = .ok e.written)
    (hitems : e.items = before ++ x :: after) (hwx : w ∈ x.nodes) (hforbidden : w.IsForbidden context lookup)
    (hfair : ∀ y ∈ before ++ [x], y.FairItem) :
    FailsAlways Failure.Expected
      (e.written.lowerStatements (Host.ofResolver context lookup notify limit)) := by
  have hwritten : e.written.items = before.map Expr.written ++ x.written :: after.map Expr.written := by
    rw [Expr.items_written, hitems, List.map_append, List.map_cons]
  have hleft := Expr.everyAll_iff.mp (Expr.not_isCollection_of_replaceBuiltins hreplace).items
  have honly : ∀ y ∈ before ++ [x], FailsOnly Failure.Expected
      (y.written.lowerStatements (Host.ofResolver context lookup notify limit)) := by
    intro y hy
    refine failsOnly_fairItem (hfair y hy).written (hleft y.written ?_)
    rw [Expr.items_written, hitems, List.append_cons]
    exact List.mem_map_of_mem (List.mem_append_left _ hy)
  have hx : FailsAlways Failure.Expected
      (x.written.lowerStatements (Host.ofResolver context lookup notify limit)) :=
    failsAlways_of_never (never_lowerStatements (Expr.not_every_written hwx hforbidden))
      (honly x (List.mem_append_right _ List.mem_cons_self))
  refine failsAlways_lowerStatements hx e.written hwritten fun y hy => ?_
  obtain ⟨z, hz, rfl⟩ := List.mem_map.mp hy
  exact honly z (List.mem_append_left _ hz)

/-- A handler with a forbidden write in it fails. -/
theorem lowerAction_isForbidden {e w : Expr} (hw : w ∈ e.nodes) (hforbidden : w.IsForbidden context lookup)
    (b : Text) (s : σ) :
    ∃ f s', outcome (lowerAction (Host.ofResolver context lookup notify limit) e b) s = (.error f, s') ∧
      ∀ before x after, e.items = before ++ x :: after → w ∈ x.nodes →
        (∀ y ∈ before ++ [x], y.FairItem) → f.isInput = true := by
  rw [lowerAction, outcome_bind, actionBody]
  cases hreplace : e.replaceBuiltins BuiltinFactory.literal with
  | error f => exact ⟨f, s, rfl, fun _ _ _ _ _ _ => Expr.isInput_of_replaceBuiltins hreplace⟩
  | ok e' =>
      obtain rfl := Expr.eq_written_of_replaceBuiltins hreplace
      have hmakes := makes_lowerStatements (b := b)
        (C := Host.ofResolverContract context lookup notify limit) e.written
      have hbad := Expr.not_every_written hw hforbidden
      obtain ⟨f, s', hrun, -⟩ := exists_failure hmakes
        (failsAlways_of_never (never_lowerStatements hbad) failsOnly_true) s
      dsimp only
      rw [hrun]
      refine ⟨f, s', rfl, fun before x after hitems hwx hfair => ?_⟩
      obtain ⟨f', s'', hrun', hexpected, hstack⟩ :=
        exists_failure hmakes (failsAlways_items hreplace hitems hwx hforbidden hfair) s
      rw [hrun] at hrun'
      cases hrun'
      exact hexpected.isInput hstack

/-- Lowers a property after its collections and pipes were replaced. -/
def convertProperty (host : Host σ) (value : Expr) (binding : Text) (simple : Bool) :
    Hosted σ PropertyCode :=
  match value.replaceBuiltins BuiltinFactory.literal with
  | .error f => throw f
  | .ok value => lowerProperty host value binding simple

theorem convertProperty_isForbidden {e w : Expr} (hw : w ∈ e.nodes) (hforbidden : w.IsForbidden context lookup)
    (b : Text) (simple : Bool) (s : σ) :
    ∃ f s', outcome (convertProperty (Host.ofResolver context lookup notify limit) e b simple) s =
      (.error f, s') ∧ ((e.Every fun x => x.isFair = true) → f.isInput = true) := by
  rw [convertProperty]
  cases hreplace : e.replaceBuiltins BuiltinFactory.literal with
  | error f => exact ⟨f, s, rfl, fun _ => Expr.isInput_of_replaceBuiltins hreplace⟩
  | ok e' =>
      obtain rfl := Expr.eq_written_of_replaceBuiltins hreplace
      have hmakes := makes_lower (b := b) (C := Host.ofResolverContract context lookup notify limit) e.written
      have hbad := Expr.not_every_written hw hforbidden
      obtain ⟨f, s', hrun, -⟩ := exists_failure hmakes
        (failsAlways_of_never (never_lower hbad) failsOnly_true) s
      dsimp only
      rw [lowerProperty, outcome_bind, hrun]
      refine ⟨f, s', rfl, fun hfair => ?_⟩
      have hwritten : e.written.Every fun x => x.isFair = true :=
        Expr.every_written (fun _ => Expr.isFair_written) e hfair
      have hleft := Expr.not_isCollection_of_replaceBuiltins hreplace
      obtain ⟨f', s'', hrun', hexpected, hstack⟩ := exists_failure hmakes
        (failsAlways_of_never (never_lower hbad) (failsOnly_fair hwritten hleft)) s
      rw [hrun] at hrun'
      cases hrun'
      exact hexpected.isInput hstack

/-! ### Success -/

variable (hcontext : ∀ x ∈ context.nodes, x.isAssignment = false)
  (hlookup : ∀ name s t, ((lookup name).run s).1 = some (.term t) → ∀ x ∈ t.nodes, x.isAssignment = false)

include hcontext hlookup

theorem unassigning_ofResolver (u : σ) :
    ((Host.ofResolverContract context lookup notify limit).at u).Unassigning where
  context := hcontext
  lookup name t := by
    rintro ⟨s, hs⟩
    exact hlookup name s t hs
  builtin _ _ _ h := h
  interpolate _ _ h := ⟨limit, (Except.ok.inj h).symm⟩

theorem assignsProperly_lowerAction {e : Expr} {s s' : σ} {code : ActionCode}
    (h : outcome (lowerAction (Host.ofResolver context lookup notify limit) e b) s = (.ok code, s')) :
    Stmt.AssignsProperly b code.statements := by
  obtain ⟨e', body, stack, -, hbody, rfl⟩ := lowerAction_cases h
  have hmade := settled_lowerBinding
    (makes_lowerStatements (C := Host.ofResolverContract context lookup notify limit) (b := b) e') s
  rw [hbody] at hmade
  obtain ⟨hbinding, -, s₁, ts, rfl, hcodes⟩ := hmade
  have hall := (unassigning_ofResolver hcontext hlookup s₁).inherited.codes hcodes (Nat.le_refl _)
    (Expr.everyAll_iff.mpr fun x _ => (Expr.every_iff_nodes x).mpr fun _ _ => trivial)
  exact assignsProperly_withPreventDefault hbinding hall

theorem assignsProperly_convertProperty {e : Expr} {simple : Bool} {s s' : σ} {code : PropertyCode}
    (h : outcome (convertProperty (Host.ofResolver context lookup notify limit) e b simple) s =
      (.ok code, s')) :
    Stmt.AssignsProperly b (code.statements ++ [.ofTerm code.value]) := by
  rw [convertProperty] at h
  split at h
  · cases h
  · next e' _ =>
      obtain ⟨t, stack, hbinding, hcode⟩ := lowerProperty_cases h
      have hmade := settled_lowerBinding
        (makes_lower (C := Host.ofResolverContract context lookup notify limit) (b := b) e') s
      rw [hbinding] at hmade
      obtain ⟨hb, -, s₁, m, hderived, rfl⟩ := hmade
      have ht := (unassigning_ofResolver hcontext hlookup s₁).inherited.code hderived (Nat.le_refl _)
        ((Expr.every_iff_nodes e').mpr fun _ _ => trivial)
      rcases hcode with ⟨hcount, rfl⟩ | rfl
      · refine AssignsTo.mono (fun t ht => ht.mono fun k hk => ?_) (AssignsTo.all (AssignsTo.single ht))
        rw [hcount] at hk
        exact absurd hk (Nat.not_lt_zero k)
      · exact assignsProperly_value hb ht _

/-- Locals are read only. Code assigns to members, to entries and to the temporaries it declares. A write to
a local that stands for no property makes a binding fail, and that is an error of the input if there is
nothing wrong with the other nodes, in a handler with those of its item and of the items before it. -/
theorem locals_readOnly (notify : StateM σ Unit) (limit : Int) (e : Expr) (b : Text) (simple : Bool)
    (s : σ) :
    (∀ code s', outcome (lowerAction (.ofResolver context lookup notify limit) e b) s = (.ok code, s') →
      Stmt.AssignsProperly b code.statements) ∧
    (∀ code s', outcome (convertProperty (.ofResolver context lookup notify limit) e b simple) s =
        (.ok code, s') →
      Stmt.AssignsProperly b (code.statements ++ [.ofTerm code.value])) ∧
    ∀ w ∈ e.nodes, w.IsForbidden context lookup →
      (∃ f s', outcome (lowerAction (.ofResolver context lookup notify limit) e b) s = (.error f, s') ∧
        ∀ before x after, e.items = before ++ x :: after → w ∈ x.nodes →
          (∀ y ∈ before ++ [x], y.FairItem) → f.isInput = true) ∧
      ∃ f s', outcome (convertProperty (.ofResolver context lookup notify limit) e b simple) s =
        (.error f, s') ∧ ((e.Every fun x => x.isFair = true) → f.isInput = true) :=
  ⟨fun _ _ => assignsProperly_lowerAction hcontext hlookup,
    fun _ _ => assignsProperly_convertProperty hcontext hlookup,
    fun _ hw hforbidden =>
      ⟨lowerAction_isForbidden hw hforbidden b s, convertProperty_isForbidden hw hforbidden b simple s⟩⟩

end Resolver

namespace Sample

/-- The name `x` stands for the variable `y`, and `self` for the context. -/
def variableLookup (name : Text) : StateM Unit (Option Found) :=
  pure (if name == "x" then some (.term (.ofVar "y")) else if name == "self" then some .context else none)

/-- The context `ctx` with these locals. -/
def variableHost : Host Unit := .ofResolver (.ofVar "ctx") variableLookup (pure ()) inlineInterpolationLimit

def this : Expr := .context ⟨none, none⟩

/-- The write of `true` to the member `x` of a receiver. -/
def variableWrite (receiver : Expr) : Expr :=
  let p : Place := ⟨none, none⟩
  .write p receiver "x" (.literal p (.bool true))

theorem variableLookup_quiet (name : Text) (s : Unit) (t : Term)
    (h : ((variableLookup name).run s).1 = some (.term t)) : ∀ x ∈ t.nodes, x.isAssignment = false := by
  unfold variableLookup at h
  simp only [StateT.run_pure] at h
  split at h
  · cases h
    decide
  · split at h <;> cases h

theorem variableWrite_isForbidden {r : Expr} (h : r.StandsForContext variableLookup) :
    (variableWrite r).IsForbidden (.ofVar "ctx") variableLookup :=
  ⟨h, fun _ => ⟨.term (.ofVar "y"), rfl, fun _ _ _ => nofun⟩⟩

/-- The write `self.x = true` in an argument of the second statement is rejected. -/
theorem writtenArgument_readOnly :
    let p : Place := ⟨none, none⟩
    let w : Expr := variableWrite (.read p this "self")
    ∃ f s', outcome (lowerAction variableHost (.chain p [.read p this "a", .method p this "f" [w]]) "0") () =
      (.error f, s') ∧ f.isInput = true := by
  intro p w
  have hcontext : ∀ x ∈ (Term.ofVar "ctx").nodes, x.isAssignment = false := by decide
  have hw : w ∈ (Expr.chain p [.read p this "a", .method p this "f" [w]]).nodes := by
    simp [w, Expr.nodes, Expr.visited, Expr.visitedAll, variableWrite]
  have hforbidden : w.IsForbidden (.ofVar "ctx") variableLookup :=
    variableWrite_isForbidden ⟨trivial, fun _ => rfl⟩
  obtain ⟨f, s', hrun, hinput⟩ := ((locals_readOnly hcontext variableLookup_quiet (pure ())
    inlineInterpolationLimit _ "0" true ()).2.2 w hw hforbidden).1
  refine ⟨f, s', hrun, hinput [_] _ [] rfl ?_ ?_⟩
  · simp [w, Expr.nodes, Expr.visited, Expr.visitedAll, variableWrite]
  · intro y hy
    rcases List.mem_cons.mp hy with rfl | hy
    · exact ⟨⟨rfl, rfl⟩, rfl, rfl⟩
    · rw [List.mem_singleton.mp hy]
      exact ⟨⟨rfl, rfl, ⟨rfl, ⟨rfl, rfl⟩, rfl⟩, trivial⟩, rfl, rfl⟩

/-- Behind an operator that there is none of, a write to a local is not what a handler fails for. -/
theorem unsupportedOperator_first :
    let p : Place := ⟨none, none⟩
    let e : Expr := .chain p [.binary p "**" (.literal p (.bool true)) (.literal p (.bool true)),
      variableWrite this]
    (∃ w ∈ e.nodes, w.IsForbidden (.ofVar "ctx") variableLookup) ∧
    outcome (lowerAction variableHost e "0") () = (.error (.illegal (.unsupportedOperator "**")), ()) ∧
    (Failure.illegal (.unsupportedOperator "**")).isInput = false := by
  refine ⟨⟨variableWrite this, ?_, variableWrite_isForbidden trivial⟩, rfl, rfl⟩
  simp [Expr.nodes, Expr.visited, Expr.visitedAll, variableWrite]

end Sample

end TemplateCompiler
