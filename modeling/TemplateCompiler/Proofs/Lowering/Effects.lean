import TemplateCompiler.Proofs.Expr.Effects
import TemplateCompiler.Proofs.Expr.Parsed
import TemplateCompiler.Proofs.Lowering.Frame
import TemplateCompiler.Proofs.Lowering.Parts
import TemplateCompiler.Proofs.Lowering.Resolver

/-!
# How often code has the effects of its source

* `Effect.count k ts` : the effects of terms. An assignment to a temporary is none;
* `Pins.Fit rs pins` : there are temporaries for just those of the receivers `rs` that need one;
* `count_code` : how many effects derivable code has.
-/

namespace TemplateCompiler

namespace Effect

def isCode : Effect → Term → Bool
  | call, .call .. => true
  | write, .binary _ .assign (.var _ x) _ => !isTemporary x
  | write, .binary _ .assign _ _ => true
  | _, _ => false

theorem isCode_binary (k : Effect) {op : Operator} (h : op ≠ .assign) (note : Note) (t u : Term) :
    k.isCode (.binary note op t u) = false := by
  unfold isCode
  split
  · next heq => cases heq
  · next heq =>
      cases heq
      exact absurd rfl h
  · next heq =>
      cases heq
      exact absurd rfl h
  · rfl

def count (k : Effect) (ts : List Term) : Nat := (Term.nodesAll ts).countP k.isCode

def ofCall : Effect → Nat
  | call => 1
  | write => 0

def ofWrite : Effect → Nat
  | call => 0
  | write => 1

section Count

variable (k : Effect) (c t u : Term) (ts us : List Term)

theorem count_append : k.count (ts ++ us) = k.count ts + k.count us := by
  rw [count, Term.nodesAll_append, List.countP_append, count, count]

theorem count_cons : k.count (t :: ts) = k.count [t] + k.count ts := k.count_append [t] ts

theorem count_madeOf {us heads ts : List Term} (h : Term.MadeOf us heads ts) :
    k.count us = heads.countP k.isCode + k.count ts := by
  rw [count, h.nodes.countP_eq, List.countP_append, count]

/-- Code that is put together without effects. -/
theorem count_of_madeOf {us heads ts : List Term} (h : Term.MadeOf us heads ts)
    (hheads : heads.countP k.isCode = 0) : k.count us = k.count ts := by
  rw [count_madeOf k h, hheads, Nat.zero_add]

theorem count_quiet {t : Term} (h : ∀ x ∈ t.nodes, k.isCode x = false) : k.count [t] = 0 := by
  rw [count, Term.nodesAll, Term.nodesAll, List.append_nil, List.countP_eq_zero]
  intro x hx
  rw [h x hx]
  exact Bool.false_ne_true

theorem count_ofVar (x : Text) : k.count [.ofVar x] = 0 := by
  cases k <;> rfl

theorem count_prop (name : Text) : k.count [.prop {} c name] = k.count [c] :=
  count_of_madeOf k (Term.madeOf_prop c name {}) (by cases k <;> rfl)

theorem count_apply : k.count [.apply c ts] = k.ofCall + (k.count [c] + k.count ts) := by
  rw [count_madeOf k (Term.madeOf_apply c ts), count_cons]
  cases k <;> rfl

theorem count_guardCode : k.count [Answers.guardCode c t] = k.count [c] + k.count [t] := by
  rw [count_of_madeOf k (Term.madeOf_guardCode c t) (by cases k <;> rfl), count_cons]

theorem count_set_nameOf (b : Text) (d : Nat) :
    k.count [.set (.ofVar (TemporaryStack.nameOf b d)) c] = k.count [c] := by
  have htmp := isTemporary_nameOf b d
  cases k <;> simp [count, Term.nodesAll, Term.set, Term.operation, Term.ofVar, Term.nodes, isCode, htmp]

theorem count_set (h : Operator.assigned? .assign t = none) (hvar : t.varName? = none) :
    k.count [.set t u] = k.ofWrite + (k.count [t] + k.count [u]) := by
  have hmade : Term.MadeOf [.set t u] [.set t u] [t, u] := Term.madeOf_operation t u .assign h _
  rw [count_madeOf k hmade, count_cons]
  cases k with
  | call => rfl
  | write =>
      cases t with
      | var note x => cases hvar
      | _ => rfl

end Count

end Effect

/-! ### Derivable code -/

/-- Answers without effects of their own, where builtins are written out. -/
structure Answers.Quiet (A : Answers) (k : Effect) : Prop where
  context : ∀ x ∈ A.context.nodes, k.isCode x = false
  lookup : ∀ name t, A.lookup name (some (.term t)) → ∀ x ∈ t.nodes, k.isCode x = false
  builtin : ∀ kind ts t, A.builtin kind ts t → t = kind.written ts

/-- A node whose code has the effects of the node and of its parts, and no others. -/
structure Expr.Faithful (e : Expr) : Prop where
  function : e.function? = none
  interpolation : e.isInterpolation = false
  paired : e.isPaired = true

section Nodes

variable (k : Effect) {r : Expr} {name : Text} {p : Place} {args : List Expr}

theorem Effect.plain_of_isContext (h : r.isContext = true) : k.plain r = 0 := by
  cases r with
  | context p => rfl
  | _ => cases h

theorem Effect.isSource_method (h : Expr.isErasure r name = false) :
    (k.isSource (.method p r name args)).toNat = k.ofCall := by
  cases k <;> simp [isSource, h, ofCall]

theorem Effect.isSource_safeMethod (h : Expr.isErasure r name = false) :
    (k.isSource (.safeMethod p r name args)).toNat = k.ofCall := by
  cases k <;> simp [isSource, h, ofCall]

theorem Effect.isSource_call : (k.isSource (.call p r args)).toNat = k.ofCall := by
  cases k <;> rfl

theorem Effect.isSource_write {v : Expr} : (k.isSource (.write p r name v)).toNat = k.ofWrite := by
  cases k <;> rfl

theorem Effect.isSource_indexWrite {i v : Expr} :
    (k.isSource (.indexWrite p r i v)).toNat = k.ofWrite := by
  cases k <;> rfl

/-- A call that erases a type has the effects of its arguments. -/
theorem Effect.plain_of_isErasure (h : Expr.isErasure r name = true) :
    k.plain (.method p r name args) = k.loweredAll args := by
  have hr : r.isContext = true := (Bool.and_eq_true _ _ ▸ h).1
  cases k <;> simp [plain, plain_of_isContext _ hr, isSource, h]

theorem Effect.plain_of_isErasure_safe (h : Expr.isErasure r name = true) :
    k.plain (.safeMethod p r name args) = k.loweredAll args := by
  have hr : r.isContext = true := (Bool.and_eq_true _ _ ▸ h).1
  cases k <;> simp [plain, plain_of_isContext _ hr, isSource, h]

end Nodes

/-- The temporaries of receivers: just those that need one have one. -/
structure Pins.Fit (rs : List Expr) (pins : Pins) : Prop where
  held : pins.map Option.isSome = rs.map Expr.needsTemporary
  named : ∀ t : Term, some t ∈ pins → ∃ x, t = .ofVar x

theorem Pins.Fit.nil : Pins.Fit [] [] := ⟨rfl, by simp⟩

theorem Pins.Fit.append {rs : List Expr} {pins : Pins} {r : Expr} {pin : Option Term}
    (h : pins.Fit rs) (hpin : pin.isSome = r.needsTemporary) (hvar : ∀ t, pin = some t → ∃ x, t = .ofVar x) :
    Pins.Fit (rs ++ [r]) (pins ++ [pin]) := by
  refine ⟨by simp [h.held, hpin], fun t ht => ?_⟩
  rcases List.mem_append.mp ht with ht | ht
  · exact h.named t ht
  · exact hvar t (List.mem_singleton.mp ht).symm

theorem Pins.Fit.isSome {rs : List Expr} {pins : Pins} {r : Expr} (h : pins.Fit rs)
    (hr : r.safeReceivers ++ [r] <+: rs) :
    pins[r.safeReceivers.length]?.map Option.isSome = some r.needsTemporary := by
  obtain ⟨rs', rfl⟩ := hr
  rw [← List.getElem?_map, h.held, List.getElem?_map]
  simp

section Derivable

open Answers (Code Codes GuardedCode PlainCode ReceiverCode)

variable {A : Answers} {k : Effect} {b : Text}

theorem Answers.Quiet.count_found (hA : A.Quiet k) {c : Lowered} {name : Text} {found : Found}
    (h : A.Resolves c name (some found)) : k.count [(found.made A.context).code] = 0 := by
  cases found with
  | context => exact k.count_quiet hA.context
  | term t => exact k.count_quiet (hA.lookup name t h.lookup)

theorem Answers.Quiet.count_context (hA : A.Quiet k) {c : Lowered} (h : c.code = A.context) :
    k.count [c.code] = 0 := by
  rw [h]
  exact k.count_quiet hA.context

/-- A member has the effects of its receiver: where it is a local, both have none. -/
theorem count_memberCode (hA : A.Quiet k) {name : Text} {c : Lowered} {found : Option Found}
    (hfound : A.Resolves c name found) (hc : c.isContext = true → c.code = A.context) :
    k.count [(A.memberCode c name found).code] = k.count [c.code] := by
  cases found with
  | none => exact k.count_prop c.code name
  | some f =>
      rw [hA.count_context (hc (hfound.isContext))]
      exact hA.count_found hfound

theorem count_invocationCode (hA : A.Quiet k) {name : Text} {c : Lowered} {ts : List Term}
    {found : Option Found} (hfound : A.Resolves c name found)
    (hc : c.isContext = true → c.code = A.context) :
    k.count [A.invocationCode c name ts found] = k.ofCall + (k.count [c.code] + k.count ts) := by
  cases found with
  | none => rw [← k.count_prop c.code name]; exact k.count_apply (.prop {} c.code name) ts
  | some f =>
      rw [hA.count_context (hc (hfound.isContext)), ← hA.count_found hfound]
      exact k.count_apply (f.made A.context).code ts

/-- A builtin that is written out has the effects of its arguments. -/
theorem count_written {kind : Builtin} {p : Place} {es : List Expr} {ts : List Term}
    (hlength : es.length = ts.length) (he : (Expr.builtin p kind es).Faithful) :
    k.count [kind.written ts] = k.count ts := by
  cases kind with
  | array => exact k.count_of_madeOf (Term.madeOf_ofList ts) (by cases k <;> rfl)
  | map keys =>
      have hkeys : keys.length = es.length := eq_of_beq he.paired
      have hmade := Term.madeOf_ofEntries ts keys
      rw [List.take_of_length_le (by omega)] at hmade
      exact k.count_of_madeOf hmade (by cases k <;> rfl)
  | pipe slot offset =>
      have hparts := (Term.madeOf_ofValue (.int slot)).append
        ((Term.madeOf_ofValue (.int offset)).append (.refl ts))
      exact k.count_of_madeOf ((Term.madeOf_ofList _).trans hparts) (by cases k <;> rfl)
  | call f => cases he.function

mutual

theorem count_code (hA : A.Quiet k) : ∀ {d n : Nat} {e : Expr} {t : Lowered}, Code A b d n e t →
    e.Every Expr.Faithful → k.count [t.code] = k.guarded e + k.plain e
  | _, _, e, _, .spine h, he => by
    rw [k.guarded_eq_total e]
    exact count_guarded hA h he he.safeReceivers (List.nil_append _) .nil

theorem count_codes (hA : A.Quiet k) : ∀ {d n : Nat} {es : List Expr} {ts : List Term},
    Codes A b d n es ts → Expr.EveryAll Expr.Faithful es → k.count ts = k.loweredAll es
  | _, _, _, _, .nil, _ => rfl
  | _, _, _, _, .cons ht hts, he => by
    rw [Effect.count_cons, count_code hA ht he.1, count_codes hA hts he.2, Effect.loweredAll]

theorem count_guarded (hA : A.Quiet k) : ∀ {d n : Nat} {pins : Pins} {rs' : List Expr} {e : Expr}
    {t : Lowered}, GuardedCode A b d n pins rs' e t → e.Every Expr.Faithful →
    (∀ r ∈ rs', r.Every Expr.Faithful) → ∀ {rs : List Expr}, rs ++ rs' = e.safeReceivers →
    pins.Fit rs → k.count [t.code] = Effect.total k.plain rs' + k.plain e
  | _, _, _, _, _, _, .plain h, he, _, rs, hrs, hpins => by
    rw [List.append_nil] at hrs
    rw [count_plain hA h he (hrs ▸ List.prefix_rfl) hpins, Effect.total, Nat.zero_add]
  | _, _, _, _, _, _, @GuardedCode.kept _ _ d n m pins r e rs' c t hr hc ht, he, hrs', rs, hrs, hpins => by
    obtain ⟨hr', hrs'⟩ := List.forall_mem_cons.mp hrs'
    have hreceivers := Expr.safeReceivers_of_append hrs
    have hpins' : Pins.Fit (rs ++ [r]) (pins ++ [some (.ofVar (TemporaryStack.nameOf b d))]) :=
      hpins.append hr.symm fun t ht => ⟨_, (Option.some.inj ht).symm⟩
    rw [Effect.count_guardCode, Effect.count_set_nameOf,
      count_plain hA hc hr' (hreceivers ▸ List.prefix_rfl) hpins,
      count_guarded hA ht he hrs' (by rw [List.append_assoc]; exact hrs) hpins', Effect.total,
      Nat.add_assoc]
  | _, _, _, _, _, _, @GuardedCode.copied _ _ d n m pins r e rs' c t hr hc ht, he, hrs', rs, hrs, hpins => by
    obtain ⟨hr', hrs'⟩ := List.forall_mem_cons.mp hrs'
    have hreceivers := Expr.safeReceivers_of_append hrs
    have hpins' : Pins.Fit (rs ++ [r]) (pins ++ [none]) :=
      hpins.append hr.symm fun t ht => nomatch ht
    rw [Effect.count_guardCode, count_plain hA hc hr' (hreceivers ▸ List.prefix_rfl) hpins,
      count_guarded hA ht he hrs' (by rw [List.append_assoc]; exact hrs) hpins', Effect.total,
      Nat.add_assoc]

theorem count_plain (hA : A.Quiet k) : ∀ {d n : Nat} {pins : Pins} {e : Expr} {t : Lowered},
    PlainCode A b d n pins e t → e.Every Expr.Faithful → ∀ {rs : List Expr},
    e.safeReceivers <+: rs → pins.Fit rs → k.count [t.code] = k.plain e
  | _, _, _, _, _, .context, _, _, _, _ => k.count_quiet hA.context
  | _, _, _, _, _, .read hc hfound, he, _, hrs, hpins => by
    rw [count_memberCode hA hfound hc.code_eq_context, count_plain hA hc he.2 hrs hpins, Effect.plain]
  | _, _, _, _, _, .safeRead hc hfound, he, _, hrs, hpins => by
    rw [count_memberCode hA hfound hc.code_eq_context, count_receiver hA hc he.2 hrs hpins, Effect.plain]
  | _, _, _, _, _, .index hc hk, he, _, hrs, hpins => by
    rw [k.count_of_madeOf (Term.madeOf_key _ _ {}) (by cases k <;> rfl), Effect.count_cons,
      count_plain hA hc he.2.1 hrs hpins, count_code hA hk he.2.2, Effect.plain]
  | _, _, _, _, _, .erased hname hargs, he, _, _, _ => by
    rw [k.count_of_madeOf (Term.madeOf_erased _) (by cases k <;> rfl), count_codes hA hargs he.2.2,
      Effect.plain_of_isErasure k hname]
  | _, _, _, _, _, .method hname hargs hc hfound, he, _, hrs, hpins => by
    rw [count_invocationCode hA hfound hc.code_eq_context, count_plain hA hc he.2.1 hrs hpins,
      count_codes hA hargs he.2.2, Effect.plain, k.isSource_method hname, Nat.add_assoc]
  | _, _, _, _, _, .safeErased hname hargs, he, _, _, _ => by
    rw [k.count_of_madeOf (Term.madeOf_erased _) (by cases k <;> rfl), count_codes hA hargs he.2.2,
      Effect.plain_of_isErasure_safe k hname]
  | _, _, _, _, _, .safeMethod hname hargs hc hfound, he, _, hrs, hpins => by
    rw [count_invocationCode hA hfound hc.code_eq_context, count_receiver hA hc he.2.1 hrs hpins,
      count_codes hA hargs he.2.2, Effect.plain, k.isSource_safeMethod hname, Nat.add_assoc]
  | _, _, _, _, _, .write hc _ ht, he, _, _, _ => by
    rw [k.count_set _ _ rfl rfl, k.count_prop, count_code hA hc he.2.1, count_code hA ht he.2.2,
      Effect.plain, k.isSource_write]
    omega
  | _, _, _, _, _, .writeThrough hc hfound htarget ht, he, _, _, _ => by
    have hreceiver := count_code hA hc he.2.1
    rw [hA.count_context (hc.code_eq_context (hfound.isContext))] at hreceiver
    rw [k.count_set _ _ rfl rfl, ← htarget, hA.count_found hfound, count_code hA ht he.2.2, Effect.plain,
      k.isSource_write]
    omega
  | _, _, _, _, _, .indexWrite hc hi ht, he, _, _, _ => by
    rw [k.count_set _ _ rfl rfl, k.count_of_madeOf (Term.madeOf_key _ _ {}) (by cases k <;> rfl),
      Effect.count_cons, count_code hA hc he.2.1, count_code hA hi he.2.2.1, count_code hA ht he.2.2.2,
      Effect.plain, k.isSource_indexWrite]
    omega
  | _, _, _, _, _, .call hargs hf, he, _, _, _ => by
    rw [k.count_apply, count_code hA hf he.2.1, count_codes hA hargs he.2.2, Effect.plain,
      k.isSource_call]
    omega
  | _, _, _, _, _, .conditional hc hy hz, he, _, _, _ => by
    rw [k.count_of_madeOf (Term.madeOf_choose _ _ _) (by cases k <;> rfl), Effect.count_cons,
      Effect.count_cons k _ [_], count_code hA hc he.2.1, count_code hA hy he.2.2.1,
      count_code hA hz he.2.2.2, Effect.plain]
    omega
  | _, _, _, _, _, @PlainCode.binary _ _ _ _ _ _ _ _ op _ _ lt rt hop hl hr, he, _, _, _ => by
    have hassign := sourceOperator?_ne_assign hop
    have hquiet : [Term.operation op lt.code rt.code].countP k.isCode = 0 := by
      rw [Term.operation, List.countP_singleton, k.isCode_binary hassign]
      rfl
    rw [k.count_of_madeOf
        (Term.madeOf_operation lt.code rt.code op (Operator.assigned?_of_ne hassign _) {}) hquiet,
      Effect.count_cons, count_code hA hl he.2.1, count_code hA hr he.2.2, Effect.plain]
  | _, _, _, _, _, .not ht, he, _, _, _ => by
    rw [k.count_of_madeOf (Term.madeOf_negate _) (by cases k <;> rfl), count_code hA ht he.2, Effect.plain]
  | _, _, _, _, _, .present ht, he, _, _, _ => by
    rw [k.count_of_madeOf (Term.madeOf_assertPresent _) (by cases k <;> rfl), count_code hA ht he.2,
      Effect.plain]
  | _, _, _, _, _, .literal, _, _, _, _ => by cases k <;> rfl
  | _, _, _, _, _, .interpolation .., he, _, _, _ => nomatch he.1.interpolation
  | _, _, _, _, _, .builtin hargs ht, he, _, _, _ => by
    rw [hA.builtin _ _ _ ht, count_written hargs.length_eq he.1, count_codes hA hargs he.2, Effect.plain]

theorem count_receiver (hA : A.Quiet k) : ∀ {d n : Nat} {pins : Pins} {r : Expr} {t : Lowered},
    ReceiverCode A b d n pins r t → r.Every Expr.Faithful → ∀ {rs : List Expr},
    r.safeReceivers ++ [r] <+: rs → pins.Fit rs →
    k.count [t.code] = if r.needsTemporary then 0 else k.plain r
  | _, _, _, r, _, .kept hpin, _, rs, hrs, hpins => by
    have hsome := hpins.isSome hrs
    rw [hpin] at hsome
    obtain ⟨x, rfl⟩ := hpins.named _ (List.mem_of_getElem? hpin)
    have hneeds : r.needsTemporary = true := (Option.some.inj hsome).symm
    rw [if_pos hneeds, Effect.count_ofVar]
  | _, _, pins, r, _, .copied hpin hc, he, rs, hrs, hpins => by
    have hsome := hpins.isSome hrs
    have hneeds : r.needsTemporary = false := by
      rcases hget : pins[r.safeReceivers.length]? with _ | _ | t
      · rw [hget] at hsome
        cases hsome
      · rw [hget] at hsome
        exact (Option.some.inj hsome).symm
      · exact absurd hget (hpin t)
    rw [hneeds, if_neg Bool.false_ne_true]
    exact count_plain hA hc he ((List.prefix_append _ _).trans hrs) hpins

end

end Derivable

/-! ### Bindings -/

def Effect.countAll (k : Effect) (ss : List Stmt) : Nat := (Stmt.nodesAll ss).countP k.isCode

theorem Effect.countAll_declarations (k : Effect) (stack : TemporaryStack) (ss : List Stmt) :
    k.countAll (stack.declarations ++ ss) = k.countAll ss := by
  rw [countAll, Stmt.nodesAll_append, Term.nodesAll_declarations, List.nil_append, countAll]

/-- Keeping the value of a handler has no effects. -/
theorem Effect.countAll_withPreventDefault (k : Effect) (b : Text) (stack : TemporaryStack)
    (ts : List Term) :
    k.countAll (withPreventDefault b (stack.declarations ++ ts.map Stmt.ofTerm)).statements =
      k.count ts := by
  rcases List.eq_nil_or_concat ts with rfl | ⟨us, t, rfl⟩
  · rw [List.map_nil, withPreventDefault_declarations]
    change k.countAll stack.declarations = _
    rw [← List.append_nil stack.declarations, countAll_declarations]
    rfl
  · rw [List.concat_eq_append, List.map_append, ← List.append_assoc]
    change k.countAll (withPreventDefault b (_ ++ [Stmt.ofTerm t])).statements = _
    rw [withPreventDefault_concat]
    dsimp only
    rw [List.append_assoc, countAll_declarations, countAll, Stmt.nodesAll_append,
      Stmt.nodesAll_map_ofTerm, List.countP_append, count_append]
    exact congrArg _ (k.count_of_madeOf (Term.madeOf_verdict t) (by cases k <;> rfl))

mutual

theorem Effect.loweredAll_items (k : Effect) : ∀ e : Expr,
    k.loweredAll e.items = k.guarded e + k.plain e
  | .chain _ es => by
    rw [Expr.items, k.loweredAll_itemsAll es, plain]
    exact (Nat.zero_add _).symm
  | .context .. | .conditional .. | .read .. | .write .. | .safeRead .. | .index .. | .indexWrite ..
  | .method .. | .safeMethod .. | .call .. | .binary .. | .not .. | .present .. | .literal ..
  | .array .. | .map .. | .interpolation .. | .pipe .. | .quote .. | .builtin .. => rfl

theorem Effect.loweredAll_itemsAll (k : Effect) : ∀ es : List Expr,
    k.loweredAll (Expr.itemsAll es) = k.loweredAll es
  | [] => rfl
  | e :: es => by
    rw [Expr.itemsAll, k.loweredAll_append, k.loweredAll_items e, k.loweredAll_itemsAll es, loweredAll]

end

section Entry

variable {σ : Type} {context : Term} {lookup : Text → StateM σ (Option Found)}
  {notify : StateM σ Unit} {limit : Int} {k : Effect}

theorem quiet_answers (hcontext : ∀ x ∈ context.nodes, k.isCode x = false)
    (hlookup : ∀ name s t, ((lookup name).run s).1 = some (.term t) → ∀ x ∈ t.nodes, k.isCode x = false)
    (s : σ) : ((Host.ofResolverContract context lookup notify limit).at s).Quiet k := by
  refine ⟨hcontext, ?_, fun kind ts t h => h⟩
  rintro name t ⟨s, hs⟩
  exact hlookup name s t hs

theorem faithful_written {e : Expr} (he : e.Readable) : e.written.Every Expr.Faithful := by
  refine Expr.Every.written (fun x y hx _ hi hf hp =>
    ⟨hf ▸ hx.function, hi ▸ hx.interpolation, hp ▸ hx.paired⟩) ?_
  refine Expr.Every.imp₂ (fun x hx _ => ?_) he he
  cases x with
  | map p keys values => exact ⟨rfl, rfl, hx⟩
  | interpolation p texts es => cases hx
  | builtin p kind args => cases hx
  | _ => exact ⟨rfl, rfl, rfl⟩

variable (hcontext : ∀ x ∈ context.nodes, k.isCode x = false)
  (hlookup : ∀ name s t, ((lookup name).run s).1 = some (.term t) → ∀ x ∈ t.nodes, k.isCode x = false)

include hcontext hlookup

theorem countAll_action {e : Expr} (he : e.Readable) {b : Text} {s s' : σ} {code : ActionCode}
    (h : outcome (lowerAction (Host.ofResolver context lookup notify limit) e b) s = (.ok code, s')) :
    k.countAll code.statements = k.source e + k.copies e := by
  obtain ⟨e', body, stack, hreplace, hbody, rfl⟩ := lowerAction_cases h
  have hmade := settled_lowerBinding
    (makes_lowerStatements (C := Host.ofResolverContract context lookup notify limit) (b := b) e') s
  rw [hbody] at hmade
  obtain ⟨-, -, s₁, ts, rfl, hcodes⟩ := hmade
  have hfaithful := faithful_written he
  rw [← Expr.eq_written_of_replaceBuiltins hreplace] at hfaithful
  have hcount := count_codes (quiet_answers hcontext hlookup s₁) hcodes hfaithful.items
  rw [Effect.countAll_withPreventDefault, hcount, k.loweredAll_items,
    Expr.eq_written_of_replaceBuiltins hreplace, k.guarded_written, k.plain_written, k.guarded_add_plain]
  rfl

theorem countAll_property {e e' : Expr} (he : e.Readable)
    (hreplace : e.replaceBuiltins BuiltinFactory.literal = .ok e') {b : Text} {simple : Bool} {s s' : σ}
    {code : PropertyCode}
    (h : outcome (lowerProperty (Host.ofResolver context lookup notify limit) e' b simple) s =
      (.ok code, s')) :
    k.countAll (code.statements ++ [.ofTerm code.value]) = k.source e + k.copies e := by
  obtain ⟨t, stack, hbinding, hcode⟩ := lowerProperty_cases h
  have hmade := settled_lowerBinding
    (makes_lower (C := Host.ofResolverContract context lookup notify limit) (b := b) e') s
  rw [hbinding] at hmade
  obtain ⟨-, -, s₁, m, hderived, rfl⟩ := hmade
  have hfaithful := faithful_written he
  rw [← Expr.eq_written_of_replaceBuiltins hreplace] at hfaithful
  have hcount := count_code (quiet_answers hcontext hlookup s₁) hderived hfaithful
  rw [Expr.eq_written_of_replaceBuiltins hreplace, k.guarded_written, k.plain_written,
    k.guarded_add_plain] at hcount
  rcases hcode with ⟨-, rfl⟩ | rfl
  · exact hcount
  · dsimp only
    rw [List.append_assoc, Effect.countAll_declarations]
    have hvalue := k.count_append [m.code] [.ofVar ("currVal_" ++ b)]
    rw [k.count_ofVar, Nat.add_zero] at hvalue
    exact hvalue.trans hcount

/-- Code has all the effects of its source, and repeats those of receivers that no temporary holds. So it
has each of them once if, and only if, no such receiver has any. -/
theorem parsed_effects {input location : Text} {absolute : Int} {e : Expr}
    (hparse : parseAction input location absolute = .ok e ∨
      parseBinding input location absolute = .ok e) (b : Text) (s : σ) :
    (∀ code s', outcome (lowerAction (Host.ofResolver context lookup notify limit) e b) s =
        (.ok code, s') →
      k.countAll code.statements = k.source e + k.copies e ∧
      (k.countAll code.statements = k.source e ↔
        ∀ x ∈ e.visited fun _ => true, k.again x = 0)) ∧
    ∀ e', e.replaceBuiltins BuiltinFactory.literal = .ok e' → ∀ simple code s',
      outcome (lowerProperty (Host.ofResolver context lookup notify limit) e' b simple) s =
        (.ok code, s') →
      k.countAll (code.statements ++ [.ofTerm code.value]) = k.source e + k.copies e ∧
      (k.countAll (code.statements ++ [.ofTerm code.value]) = k.source e ↔
        ∀ x ∈ e.visited fun _ => true, k.again x = 0) := by
  have he : e.Readable := hparse.elim readable_of_parseAction readable_of_parseBinding
  refine ⟨fun code s' h => ?_, fun e' hreplace simple code s' h => ?_⟩
  · have hcount := countAll_action hcontext hlookup he h
    refine ⟨hcount, ?_⟩
    rw [hcount, ← Effect.total_eq_zero, ← Effect.copies]
    omega
  · have hcount := countAll_property hcontext hlookup he hreplace h
    refine ⟨hcount, ?_⟩
    rw [hcount, ← Effect.total_eq_zero, ← Effect.copies]
    omega

end Entry

/-! ### Samples -/

namespace Sample

theorem guardedRead_effects : ∃ e code, parseBinding "f()?.a" [] 0 = .ok e ∧
    outcome (lowerProperty plainHost e "0" true) () = (.ok code, ()) ∧
    Effect.call.source e = 1 ∧ (∀ x ∈ e.visited fun _ => true, Effect.call.again x = 0) ∧
    Effect.call.countAll (code.statements ++ [.ofTerm code.value]) = 1 := by
  have hcontext : ∀ x ∈ (Term.ofVar "ctx").nodes, Effect.call.isCode x = false := by decide
  refine ⟨_, _, rfl, rfl, by decide, by decide, ?_⟩
  exact ((@parsed_effects Unit (.ofVar "ctx") (fun _ => pure none) (pure ()) 9 .call hcontext
    (fun _ _ _ h => nomatch h) "f()?.a" [] 0 _ (.inr rfl) "0" ()).2 _ rfl true _ () rfl).2.mpr (by decide)

set_option maxRecDepth 2000 in
/-- A call in the receiver of a read is repeated, and so is a write in parentheses. -/
theorem repeated_effects :
    (∃ e e' code, parseBinding "f().b?.c" [] 0 = .ok e ∧
      e.replaceBuiltins BuiltinFactory.literal = .ok e' ∧
      outcome (lowerProperty plainHost e' "0" true) () = (.ok code, ()) ∧
      Effect.call.source e = 1 ∧
      Effect.call.countAll (code.statements ++ [.ofTerm code.value]) = 2) ∧
    ∃ e code, parseAction "(a = b)?.c" [] 0 = .ok e ∧
      outcome (lowerAction plainHost e "0") () = (.ok code, ()) ∧
      Effect.write.source e = 1 ∧ Effect.write.countAll code.statements = 2 := by
  refine ⟨⟨_, _, _, rfl, rfl, rfl, ?_, ?_⟩, ⟨_, _, rfl, rfl, ?_, ?_⟩⟩
  · decide
  · decide
  · decide
  · decide

end Sample

end TemplateCompiler
