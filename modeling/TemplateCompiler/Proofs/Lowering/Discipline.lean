import TemplateCompiler.Proofs.Lowering.Frame
import TemplateCompiler.Proofs.Lowering.Parts
import TemplateCompiler.Proofs.Lowering.Resolver
import TemplateCompiler.Proofs.Lowering.Unwinding

/-!
# Temporaries are used as they should be

* `Uses b d n pins full ts` : what is true of the temporaries in the code `ts`, made while the first `d`
  are live and those of `pins` were tested. `full` says that no part of the source is dropped; then all
  variables from `d` up to `n` are used;
* `uses_code` : what is true of derivable code;
* `lowered_temporaries` : what is true of bindings.
-/

namespace TemplateCompiler

open TemporaryStack (nameOf)

/-- What is true of the temporaries in code. -/
structure Uses (b : Text) (d n : Nat) (pins : Pins) (full : Prop) (ts : List Term) : Prop where
  known : ∀ x ∈ Term.variablesAll ts, isTemporary x = true → ∃ k, x = nameOf b k ∧ (k < d ∨ k < n)
  assigned : ∀ x ∈ Term.assignmentsAll ts, isTemporary x = true → ∃ k, d ≤ k ∧ x = nameOf b k
  tested : ∀ G, (∀ x, some (Term.ofVar x) ∈ pins → x ∈ G) → Term.ReadsTestedAll isTemporary G ts
  used : full → ∀ k, d ≤ k → k < n → nameOf b k ∈ Term.variablesAll ts

namespace Uses

variable {b : Text} {d n m : Nat} {pins : Pins} {full : Prop} {ts us heads : List Term} {c t : Term}

theorem nil : Uses b d 0 pins full [] :=
  ⟨fun _ h => (nomatch h), fun _ h => (nomatch h), fun _ _ => trivial,
    fun _ k _ h => absurd h (Nat.not_lt_zero k)⟩

theorem append (h : Uses b d n pins full ts) (h' : Uses b d m pins full us) :
    Uses b d (max n m) pins full (ts ++ us) := by
  refine ⟨fun x hx htmp => ?_, fun x hx htmp => ?_, fun G hG => ?_, fun hfull k hd hk => ?_⟩
  · rw [Term.variablesAll_append, List.mem_append] at hx
    rcases hx with hx | hx
    · obtain ⟨k, hk, hlt⟩ := h.known x hx htmp
      exact ⟨k, hk, by omega⟩
    · obtain ⟨k, hk, hlt⟩ := h'.known x hx htmp
      exact ⟨k, hk, by omega⟩
  · rw [Term.assignmentsAll, Term.nodesAll_append, List.filterMap_append, List.mem_append] at hx
    rcases hx with hx | hx
    · exact h.assigned x hx htmp
    · exact h'.assigned x hx htmp
  · exact Term.readsTestedAll_append.mpr ⟨h.tested G hG, h'.tested G hG⟩
  · rw [Term.variablesAll_append, List.mem_append]
    by_cases hn : k < n
    · exact .inl (h.used hfull k hd hn)
    · exact .inr (h'.used hfull k hd (by omega))

theorem madeOf (h : Uses b d n pins full ts) (hus : Term.MadeOf us heads ts) :
    Uses b d n pins full us := by
  refine ⟨fun x hx => h.known x (hus.mem_variablesAll.mp hx),
    fun x hx => h.assigned x (hus.mem_assignmentsAll.mp hx), fun G hG => ?_, fun hfull k hd hk => ?_⟩
  · exact hus.tested isTemporary G fun G' hG' => h.tested G' fun x hx => hG' (hG x hx)
  · exact hus.mem_variablesAll.mpr (h.used hfull k hd hk)

/-- Code without temporaries. -/
theorem free (h : ∀ x ∈ t.variables, isTemporary x = false) : Uses b d 0 pins full [t] := by
  have hvariables : ∀ x ∈ Term.variablesAll [t], isTemporary x = false := by
    rwa [Term.variablesAll_singleton]
  refine ⟨fun x hx htmp => ?_, fun x hx htmp => ?_, fun G _ => ?_, fun _ k _ hk => ?_⟩
  · rw [hvariables x hx] at htmp
    cases htmp
  · rw [hvariables x (Term.listsTargets_nodesAll [t] x hx)] at htmp
    cases htmp
  · exact Term.readsTestedAll_of_free [t] G hvariables
  · exact absurd hk (Nat.not_lt_zero k)

/-- Code that needs no pins can stand where there are some. -/
theorem pinned (h : Uses b d n [] full ts) : Uses b d n pins full ts :=
  ⟨h.known, h.assigned, fun G _ => h.tested G fun _ hx => (nomatch hx), h.used⟩

/-- A guard that is kept in the next variable. -/
theorem kept (hc : Uses b d n pins full [c])
    (ht : Uses b (d + 1) m (pins ++ [some (.ofVar (nameOf b d))]) full [t]) :
    Uses b d (max n (max (d + 1) m)) pins full
      [Answers.guardCode (.set (.ofVar (nameOf b d)) c) t] := by
  have hmade := Term.madeOf_guardCode (.set (.ofVar (nameOf b d)) c) t
  have hnodes : Term.nodesAll [.set (.ofVar (nameOf b d)) c, t] =
      .set (.ofVar (nameOf b d)) c :: .ofVar (nameOf b d) :: (Term.nodesAll [c] ++ Term.nodesAll [t]) := by
    simp [Term.nodesAll, Term.set, Term.operation, Term.ofVar, Term.nodes]
  have hvariables : ∀ x, x ∈ Term.variablesAll [.set (.ofVar (nameOf b d)) c, t] ↔
      x = nameOf b d ∨ x ∈ Term.variablesAll [c] ∨ x ∈ Term.variablesAll [t] := by
    intro x
    rw [Term.variablesAll, hnodes]
    change x ∈ nameOf b d :: (Term.nodesAll [c] ++ Term.nodesAll [t]).filterMap Term.varName? ↔ _
    rw [List.mem_cons, List.filterMap_append, List.mem_append]
    rfl
  have hassignments : ∀ x, x ∈ Term.assignmentsAll [.set (.ofVar (nameOf b d)) c, t] ↔
      x = nameOf b d ∨ x ∈ Term.assignmentsAll [c] ∨ x ∈ Term.assignmentsAll [t] := by
    intro x
    rw [Term.assignmentsAll, hnodes]
    change x ∈ nameOf b d :: (Term.nodesAll [c] ++ Term.nodesAll [t]).filterMap Term.assigned? ↔ _
    rw [List.mem_cons, List.filterMap_append, List.mem_append]
    rfl
  refine ⟨fun x hx htmp => ?_, fun x hx htmp => ?_, fun G hG => ⟨?_, trivial⟩, fun hfull k hd hk => ?_⟩
  · rcases (hvariables x).mp (hmade.mem_variablesAll.mp hx) with rfl | hx | hx
    · exact ⟨d, rfl, by omega⟩
    · obtain ⟨k, hk, hlt⟩ := hc.known x hx htmp
      exact ⟨k, hk, by omega⟩
    · obtain ⟨k, hk, hlt⟩ := ht.known x hx htmp
      exact ⟨k, hk, by omega⟩
  · rcases (hassignments x).mp (hmade.mem_assignmentsAll.mp hx) with rfl | hx | hx
    · exact ⟨d, Nat.le_refl d, rfl⟩
    · exact hc.assigned x hx htmp
    · obtain ⟨k, hk, heq⟩ := ht.assigned x hx htmp
      exact ⟨k, by omega, heq⟩
  · -- the second branch is made with more temporaries live, and so does not assign to this one
    have hkept : nameOf b d ∉ t.assignments := by
      intro hmem
      have hmem : nameOf b d ∈ Term.assignmentsAll [t] := by
        rwa [Term.assignmentsAll, Term.nodesAll, Term.nodesAll, List.append_nil]
      obtain ⟨k, hk, heq⟩ := ht.assigned _ hmem (isTemporary_nameOf b d)
      have := TemporaryStack.nameOf_inj heq
      omega
    have htested : (Term.isBlank (.set (.ofVar (nameOf b d)) c)).testedFor t = [nameOf b d] :=
      List.filter_eq_self.mpr fun x hx => by
        rw [List.mem_singleton.mp hx]
        exact decide_eq_true hkept
    refine ⟨⟨fun _ => ⟨by rintro ⟨⟩, (hc.tested G hG).1⟩, trivial⟩, trivial, ?_⟩
    refine (ht.tested _ fun x hx => ?_).1
    rw [htested]
    rcases List.mem_append.mp hx with hx | hx
    · exact List.mem_append_right _ (hG x hx)
    · cases List.mem_singleton.mp hx
      exact List.mem_append_left _ List.mem_cons_self
  · refine hmade.mem_variablesAll.mpr ((hvariables _).mpr ?_)
    by_cases hn : k < n
    · exact .inr (.inl (hc.used hfull k hd hn))
    · by_cases heq : k = d
      · exact .inl (by rw [heq])
      · exact .inr (.inr (ht.used hfull k (by omega) (by omega)))

/-- Code of which the end is dropped. -/
theorem take (hfull : ¬full) (h : Uses b d n pins full ts) (k : Nat) :
    Uses b d n pins full (ts.take k) := by
  have hnodes : Term.nodesAll ts = Term.nodesAll (ts.take k) ++ Term.nodesAll (ts.drop k) := by
    rw [← Term.nodesAll_append, List.take_append_drop]
  refine ⟨fun x hx => h.known x ?_, fun x hx => h.assigned x ?_, fun G hG => ?_, fun hf => absurd hf hfull⟩
  · rw [Term.variablesAll, hnodes, List.filterMap_append]
    exact List.mem_append_left _ hx
  · rw [Term.assignmentsAll, hnodes, List.filterMap_append]
    exact List.mem_append_left _ hx
  · have := h.tested G hG
    rw [← List.take_append_drop k ts] at this
    exact (Term.readsTestedAll_append.mp this).1

end Uses

/-! ### Derivable code -/

/-- Answers without temporaries, where builtins and interpolations keep what they are given. -/
structure Answers.Clean (A : Answers) (limit : Int) : Prop where
  context : ∀ x ∈ A.context.variables, isTemporary x = false
  lookup : ∀ name t, A.lookup name (some (.term t)) → ∀ x ∈ t.variables, isTemporary x = false
  builtin : ∀ kind ts t, A.builtin kind ts t → t = kind.written ts
  interpolate : ∀ args t, A.interpolate args t → t = inlineOrVariadic limit args

/-- A node that calls no temporary and, if `full`, drops no value. -/
structure Expr.Clean (full : Prop) (e : Expr) : Prop where
  function : ∀ f, e.function? = some f → isTemporary f = false
  paired : full → e.isPaired = true

/-- Pins that are among the first `d` temporaries. -/
def Pins.Below (b : Text) (d : Nat) (pins : Pins) : Prop :=
  ∀ t : Term, some t ∈ pins → ∃ k < d, t = .ofVar (nameOf b k)

section Derivable

open Answers (Code Codes GuardedCode PlainCode ReceiverCode)

variable {A : Answers} {limit : Int} {b : Text} {full : Prop}

theorem Answers.Clean.found (hA : A.Clean limit) {c : Lowered} {name : Text} {found : Found}
    (h : A.Resolves c name (some found)) :
    ∀ x ∈ (found.made A.context).code.variables, isTemporary x = false := by
  cases found with
  | context => exact hA.context
  | term t => exact hA.lookup name t h.lookup

/-- The context needs no variables. -/
theorem Answers.PlainCode.eq_zero {d n : Nat} {pins : Pins} {r : Expr} {c : Lowered}
    (h : PlainCode A b d n pins r c) (hm : c.isContext = true) : n = 0 := by
  induction r using Expr.induct generalizing n c with
  | step r ih =>
      cases h with
      | context => rfl
      | read hc hfound => exact ih _ List.mem_cons_self hc (Answers.isContext_of_memberCode hfound hm)
      | safeRead hc hfound =>
          cases hc with
          | kept => rfl
          | copied _ hc => exact ih _ List.mem_cons_self hc (Answers.isContext_of_memberCode hfound hm)
      | _ => cases hm

theorem Answers.ReceiverCode.eq_zero {d n : Nat} {pins : Pins} {r : Expr} {c : Lowered}
    (h : ReceiverCode A b d n pins r c) (hm : c.isContext = true) : n = 0 := by
  cases h with
  | kept => rfl
  | copied _ hc => exact hc.eq_zero hm

theorem Answers.Code.eq_zero {d n : Nat} {r : Expr} {c : Lowered} (h : Code A b d n r c)
    (hm : c.isContext = true) : n = 0 := by
  obtain ⟨h⟩ := h
  generalize r.safeReceivers = rs at h
  cases h with
  | plain h => exact h.eq_zero hm
  | kept => cases hm
  | copied => cases hm

theorem uses_memberCode (hA : A.Clean limit) {d n : Nat} {pins : Pins} {name : Text}
    {c : Lowered} {found : Option Found} (hc : Uses b d n pins full [c.code])
    (hfound : A.Resolves c name found) (hn : c.isContext = true → n = 0) :
    Uses b d n pins full [(A.memberCode c name found).code] := by
  cases found with
  | some f =>
      rw [hn hfound.isContext]
      exact .free (hA.found hfound)
  | none => exact hc.madeOf (Term.madeOf_prop c.code name {})

/-- The call of a member uses temporaries as its receiver and its arguments do. -/
theorem uses_invocationCode (hA : A.Clean limit) {d n m : Nat} {pins : Pins}
    {name : Text} {c : Lowered} {ts : List Term} {found : Option Found}
    (hts : Uses b d n pins full ts) (hc : Uses b d m pins full [c.code])
    (hfound : A.Resolves c name found) (hn : c.isContext = true → m = 0) :
    Uses b d (max n m) pins full [A.invocationCode c name ts found] := by
  rw [Nat.max_comm]
  cases found with
  | some f =>
      rw [hn hfound.isContext]
      exact ((Uses.free (hA.found hfound)).append hts).madeOf (Term.madeOf_apply _ ts)
  | none => exact (hc.append hts).madeOf (Term.madeOf_applyMethod c.code ts name)

/-- A builtin that is written out uses temporaries as its arguments do. -/
theorem uses_written {kind : Builtin} {d n : Nat} {pins : Pins} {p : Place} {es : List Expr}
    {ts : List Term} (hts : Uses b d n pins full ts) (hlength : es.length = ts.length)
    (he : (Expr.builtin p kind es).Clean full) : Uses b d n pins full [kind.written ts] := by
  cases kind with
  | array => exact hts.madeOf (Term.madeOf_ofList ts)
  | map keys =>
      refine Uses.madeOf ?_ (Term.madeOf_ofEntries ts keys)
      by_cases hfull : full
      · have hkeys : keys.length = es.length := eq_of_beq (he.paired hfull)
        rwa [List.take_of_length_le (by omega)]
      · exact hts.take hfull keys.length
  | pipe slot offset =>
      have hparts := (Term.madeOf_ofValue (.int slot)).append
        ((Term.madeOf_ofValue (.int offset)).append (.refl ts))
      exact hts.madeOf ((Term.madeOf_ofList _).trans hparts)
  | call f =>
      have hf : ∀ x ∈ (Term.ofVar f).variables, isTemporary x = false := by
        intro x hx
        rw [List.mem_singleton.mp hx]
        exact he.function f rfl
      rw [← Nat.zero_max n]
      exact ((Uses.free hf).append hts).madeOf (Term.madeOf_apply _ ts)

theorem Answers.Codes.eq_zero {d n : Nat} {es : List Expr} (h : Codes A b d n es []) : n = 0 := by
  cases h
  rfl

theorem Pins.Below.append {d d' : Nat} {pins : Pins} (h : pins.Below b d) (hd : d ≤ d')
    {pin : Option Term} (hpin : ∀ t, pin = some t → ∃ k < d', t = .ofVar (nameOf b k)) :
    Pins.Below b d' (pins ++ [pin]) := by
  intro t ht
  rcases List.mem_append.mp ht with ht | ht
  · obtain ⟨k, hk, heq⟩ := h t ht
    exact ⟨k, by omega, heq⟩
  · exact hpin t (List.mem_singleton.mp ht).symm

mutual

theorem uses_code (hA : A.Clean limit) : ∀ {d n : Nat} {e : Expr} {t : Lowered}, Code A b d n e t →
    e.Every (Expr.Clean full) → Uses b d n [] full [t.code]
  | _, _, _, _, .spine h, he => uses_guarded hA h he he.safeReceivers fun _ ht => nomatch ht

theorem uses_codes (hA : A.Clean limit) : ∀ {d n : Nat} {es : List Expr} {ts : List Term},
    Codes A b d n es ts → Expr.EveryAll (Expr.Clean full) es → Uses b d n [] full ts
  | _, _, _, _, .nil, _ => .nil
  | _, _, _, _, .cons ht hts, he => by
    rw [Expr.EveryAll] at he
    exact (uses_code hA ht he.1).append (uses_codes hA hts he.2)

theorem uses_guarded (hA : A.Clean limit) : ∀ {d n : Nat} {pins : Pins} {rs : List Expr} {e : Expr}
    {t : Lowered}, GuardedCode A b d n pins rs e t → e.Every (Expr.Clean full) →
    (∀ r ∈ rs, r.Every (Expr.Clean full)) → pins.Below b d → Uses b d n pins full [t.code]
  | _, _, _, _, _, _, .plain h, he, _, hpins => uses_plain hA h he hpins
  | d, _, _, _, _, _, .kept _ hc ht, he, hrs, hpins => by
    obtain ⟨hr, hrs⟩ := List.forall_mem_cons.mp hrs
    refine (uses_plain hA hc hr hpins).kept (uses_guarded hA ht he hrs ?_)
    refine hpins.append (Nat.le_succ d) fun t ht => ⟨d, Nat.lt_succ_self d, ?_⟩
    exact (Option.some.inj ht).symm
  | d, _, pins, _, _, _, .copied _ hc ht, he, hrs, hpins => by
    obtain ⟨hr, hrs⟩ := List.forall_mem_cons.mp hrs
    have hpins' : Pins.Below b d (pins ++ [none]) :=
      hpins.append (Nat.le_refl d) fun t ht => nomatch ht
    have htested := uses_guarded hA ht he hrs hpins'
    refine ((uses_plain hA hc hr hpins).append ?_).madeOf (Term.madeOf_guardCode _ _)
    refine ⟨htested.known, htested.assigned, fun G hG => htested.tested G fun x hx => ?_, htested.used⟩
    rcases List.mem_append.mp hx with hx | hx
    · exact hG x hx
    · cases List.mem_singleton.mp hx

theorem uses_plain (hA : A.Clean limit) : ∀ {d n : Nat} {pins : Pins} {e : Expr} {t : Lowered},
    PlainCode A b d n pins e t → e.Every (Expr.Clean full) → pins.Below b d →
    Uses b d n pins full [t.code]
  | _, _, _, _, _, .context, _, _ => .free hA.context
  | _, _, _, _, _, .read hc hfound, he, hpins => by
    rw [Expr.Every] at he
    exact uses_memberCode hA (uses_plain hA hc he.2 hpins) hfound hc.eq_zero
  | _, _, _, _, _, .safeRead hc hfound, he, hpins => by
    rw [Expr.Every] at he
    exact uses_memberCode hA (uses_receiver hA hc he.2 hpins) hfound hc.eq_zero
  | _, _, _, _, _, .index hc hk, he, hpins => by
    rw [Expr.Every] at he
    have hparts := (uses_plain hA hc he.2.1 hpins).append (uses_code hA hk he.2.2).pinned
    exact hparts.madeOf (Term.madeOf_key _ _ _)
  | _, _, _, _, _, .erased _ hargs, he, _ => by
    rw [Expr.Every] at he
    exact (uses_codes hA hargs he.2.2).pinned.madeOf (Term.madeOf_erased _)
  | _, _, _, _, _, .method _ hargs hc hfound, he, hpins => by
    rw [Expr.Every] at he
    exact uses_invocationCode hA (uses_codes hA hargs he.2.2).pinned (uses_plain hA hc he.2.1 hpins)
      hfound hc.eq_zero
  | _, _, _, _, _, .safeErased _ hargs, he, _ => by
    rw [Expr.Every] at he
    exact (uses_codes hA hargs he.2.2).pinned.madeOf (Term.madeOf_erased _)
  | _, _, _, _, _, .safeMethod _ hargs hc hfound, he, hpins => by
    rw [Expr.Every] at he
    exact uses_invocationCode hA (uses_codes hA hargs he.2.2).pinned
      (uses_receiver hA hc he.2.1 hpins) hfound hc.eq_zero
  | _, _, _, _, _, @PlainCode.write _ _ _ _ _ _ _ _ _ name _ _ hc _ ht, he, _ => by
    rw [Expr.Every] at he
    refine Uses.pinned ?_
    have htarget := (uses_code hA hc he.2.1).madeOf (Term.madeOf_prop _ name {})
    exact (htarget.append (uses_code hA ht he.2.2)).madeOf (Term.madeOf_operation _ _ _ rfl _)
  | _, _, _, _, _, .writeThrough hc hfound htarget ht, he, _ => by
    rw [Expr.Every] at he
    refine Uses.pinned ?_
    have hfree := hA.found hfound
    rw [htarget] at hfree
    rw [hc.eq_zero hfound.isContext]
    exact ((Uses.free hfree).append (uses_code hA ht he.2.2)).madeOf
      (Term.madeOf_operation _ _ _ rfl _)
  | _, _, _, _, _, .indexWrite hc hi ht, he, _ => by
    rw [Expr.Every] at he
    refine Uses.pinned ?_
    have htarget := ((uses_code hA hc he.2.1).append (uses_code hA hi he.2.2.1)).madeOf
      (Term.madeOf_key _ _ {})
    rw [← Nat.max_assoc]
    exact (htarget.append (uses_code hA ht he.2.2.2)).madeOf (Term.madeOf_operation _ _ _ rfl _)
  | _, _, _, _, _, .call hargs hf, he, _ => by
    rw [Expr.Every] at he
    refine Uses.pinned ?_
    rw [Nat.max_comm]
    exact ((uses_code hA hf he.2.1).append (uses_codes hA hargs he.2.2)).madeOf
      (Term.madeOf_apply _ _)
  | _, _, _, _, _, .conditional hc hy hz, he, _ => by
    rw [Expr.Every] at he
    refine Uses.pinned ?_
    have hbranches := (uses_code hA hy he.2.2.1).append (uses_code hA hz he.2.2.2)
    exact ((uses_code hA hc he.2.1).append hbranches).madeOf (Term.madeOf_choose _ _ _)
  | _, _, _, _, _, .binary hop hl hr, he, _ => by
    rw [Expr.Every] at he
    refine Uses.pinned ?_
    have hnone := Operator.assigned?_of_ne (sourceOperator?_ne_assign hop)
    exact ((uses_code hA hl he.2.1).append (uses_code hA hr he.2.2)).madeOf
      (Term.madeOf_operation _ _ _ (hnone _) _)
  | _, _, _, _, _, .not ht, he, _ => by
    rw [Expr.Every] at he
    exact (uses_code hA ht he.2).pinned.madeOf (Term.madeOf_negate _)
  | _, _, _, _, _, .present ht, he, _ => by
    rw [Expr.Every] at he
    exact (uses_code hA ht he.2).pinned.madeOf (Term.madeOf_assertPresent _)
  | _, _, _, _, _, .literal, _, _ => Uses.nil.madeOf (Term.madeOf_ofValue _)
  | _, _, _, _, _, .interpolation hlength hes ht, he, _ => by
    rw [Expr.Every] at he
    rw [hA.interpolate _ _ ht]
    obtain ⟨heads, hargs⟩ := Term.exists_madeOf_interpolationArgs
      (by rw [hlength, hes.length_eq]; exact Nat.lt_succ_self _)
    obtain ⟨heads', hcall⟩ := Term.exists_madeOf_inlineOrVariadic limit _
    exact (uses_codes hA hes he.2).pinned.madeOf
      (hcall.trans ((Term.madeOf_ofValue _).append hargs))
  | _, _, _, _, _, .builtin hargs ht, he, _ => by
    rw [Expr.Every] at he
    rw [hA.builtin _ _ _ ht]
    exact uses_written (uses_codes hA hargs he.2).pinned hargs.length_eq he.1

theorem uses_receiver (hA : A.Clean limit) : ∀ {d n : Nat} {pins : Pins} {r : Expr} {t : Lowered},
    ReceiverCode A b d n pins r t → r.Every (Expr.Clean full) → pins.Below b d →
    Uses b d n pins full [t.code]
  | _, _, _, _, _, .kept hpin, _, hpins => by
    have hmem := List.mem_of_getElem? hpin
    obtain ⟨k, hk, rfl⟩ := hpins _ hmem
    refine ⟨fun x hx _ => ⟨k, List.mem_singleton.mp hx, .inl hk⟩, fun x hx => (nomatch hx),
      fun G hG => ⟨fun _ => hG _ hmem, trivial⟩, fun _ k _ hk => absurd hk (Nat.not_lt_zero k)⟩
  | _, _, _, _, _, .copied _ hc, he, hpins => uses_plain hA hc he hpins

end

end Derivable

/-! ### Bindings -/

def Stmt.declared? : Stmt → Option Text
  | .declare _ _ name _ | .function _ _ name _ _ => some name
  | _ => none

/-- The names in statements: the variables of terms, and what is declared. -/
def Stmt.namesAll (ss : List Stmt) : List Text :=
  Stmt.variablesAll ss ++ ss.filterMap Stmt.declared?

def temporaryDeclarations (b : Text) (n : Nat) : List Stmt :=
  (List.range n).map fun k => .declare none {} (nameOf b k) none

theorem declarations_eq {b : Text} {stack : TemporaryStack} (hb : stack.binding = b) :
    stack.declarations = temporaryDeclarations b stack.count := by
  rw [TemporaryStack.declarations, hb]
  rfl

theorem temporaryDeclarations_append_get? (b : Text) (rest : List Stmt) {n k : Nat} (hk : k < n) :
    (temporaryDeclarations b n ++ rest)[k]? = some (.declare none {} (nameOf b k) none) := by
  rw [List.getElem?_append_left (by simpa [temporaryDeclarations] using hk)]
  simp [temporaryDeclarations, hk]

/-- Statements that start with declarations of the binding's temporaries, use no other temporaries and,
if `full`, all of these, and read them only where they were tested. -/
structure Disciplined (b : Text) (full : Prop) (n : Nat) (ss rest : List Stmt) : Prop where
  declared : ss = temporaryDeclarations b n ++ rest
  known : ∀ x ∈ Stmt.namesAll rest, isTemporary x = true → ∃ k < n, x = nameOf b k
  used : full → ∀ k < n, nameOf b k ∈ Stmt.namesAll rest
  tested : Stmt.ReadsTestedAll isTemporary [] rest

theorem disciplined_of_uses {b : Text} {full : Prop} {n : Nat} {ts : List Term} {rest : List Stmt}
    (h : Uses b 0 n [] full ts) (hnodes : Stmt.nodesAll rest = Term.nodesAll ts)
    (hdeclared : ∀ x ∈ rest.filterMap Stmt.declared?, isTemporary x = false)
    (htested : Term.ReadsTestedAll isTemporary [] ts → Stmt.ReadsTestedAll isTemporary [] rest) :
    Disciplined b full n (temporaryDeclarations b n ++ rest) rest := by
  have hvariables : Stmt.variablesAll rest = Term.variablesAll ts := by
    rw [Stmt.variablesAll, hnodes]
    rfl
  refine ⟨rfl, fun x hx htmp => ?_, fun hfull k hk => ?_, ?_⟩
  · rcases List.mem_append.mp hx with hx | hx
    · rw [hvariables] at hx
      obtain ⟨k, hk, hlt⟩ := h.known x hx htmp
      exact ⟨k, by omega, hk⟩
    · rw [hdeclared x hx] at htmp
      cases htmp
  · refine List.mem_append_left _ ?_
    rw [hvariables]
    exact h.used hfull k (Nat.zero_le k) hk
  · exact htested (h.tested [] fun _ hx => absurd hx List.not_mem_nil)

theorem Stmt.readsTestedAll_append {P : Text → Bool} {G : List Text} {ss ss' : List Stmt} :
    Stmt.ReadsTestedAll P G (ss ++ ss') ↔ Stmt.ReadsTestedAll P G ss ∧ Stmt.ReadsTestedAll P G ss' := by
  induction ss with
  | nil => simp [Stmt.ReadsTestedAll]
  | cons s ss ih => simp [Stmt.ReadsTestedAll, ih, and_assoc]

theorem Stmt.readsTestedAll_map_ofTerm {P : Text → Bool} {G : List Text} {ts : List Term} :
    Stmt.ReadsTestedAll P G (ts.map Stmt.ofTerm) ↔ Term.ReadsTestedAll P G ts := by
  induction ts with
  | nil => exact Iff.rfl
  | cons t ts ih => exact and_congr Iff.rfl ih

theorem disciplined_action {b : Text} {full : Prop} {n : Nat} {ts : List Term}
    (h : Uses b 0 n [] full ts) (hnil : ts = [] → n = 0) : ∃ rest,
    Disciplined b full n
      (withPreventDefault b (temporaryDeclarations b n ++ ts.map Stmt.ofTerm)).statements rest := by
  rcases List.eq_nil_or_concat ts with rfl | ⟨us, t, rfl⟩
  · rw [hnil rfl] at h ⊢
    exact ⟨[], disciplined_of_uses h rfl (fun _ hx => nomatch hx) fun _ => trivial⟩
  · rw [List.concat_eq_append] at h ⊢
    rw [List.map_append, ← List.append_assoc]
    change ∃ rest, Disciplined b full n (withPreventDefault b (_ ++ [Stmt.ofTerm t])).statements rest
    rw [withPreventDefault_concat]
    dsimp only
    rw [List.append_assoc]
    have hkept : Uses b 0 n [] full (us ++ [t.verdict]) :=
      h.madeOf ((Term.MadeOf.refl us).append (Term.madeOf_verdict t))
    refine ⟨_, disciplined_of_uses hkept ?_ ?_ fun htested => ?_⟩
    · rw [Stmt.nodesAll_append, Stmt.nodesAll_map_ofTerm, Term.nodesAll_append]
      rfl
    · intro x hx
      rw [List.filterMap_append, List.mem_append] at hx
      rcases hx with hx | hx
      · obtain ⟨s, hs, hx⟩ := List.mem_filterMap.mp hx
        obtain ⟨u, _, rfl⟩ := List.mem_map.mp hs
        cases hx
      · rw [List.mem_singleton.mp hx]
        rfl
    · rw [Term.readsTestedAll_append] at htested
      exact Stmt.readsTestedAll_append.mpr ⟨Stmt.readsTestedAll_map_ofTerm.mpr htested.1, htested.2⟩

theorem disciplined_property {b : Text} {full : Prop} {n : Nat} {t : Term}
    (h : Uses b 0 n [] full [t]) : ∃ rest,
    Disciplined b full n (temporaryDeclarations b n ++
      [.const ("currVal_" ++ b) t, .ofTerm (.ofVar ("currVal_" ++ b))]) rest := by
  have hname : ∀ x ∈ (Term.ofVar ("currVal_" ++ b)).variables, isTemporary x = false := by
    intro x hx
    rw [List.mem_singleton.mp hx]
    rfl
  have hboth := h.append (Uses.free hname)
  rw [Nat.max_zero] at hboth
  refine ⟨_, disciplined_of_uses hboth rfl ?_ fun htested => htested⟩
  intro x hx
  rw [List.mem_singleton.mp hx]
  rfl

section Entry

variable {σ : Type} {context : Term} {lookup : Text → StateM σ (Option Found)}
  {notify : StateM σ Unit} {limit : Int}

def Expr.CallsNoTemporary (e : Expr) : Prop := ∀ f, e.function? = some f → isTemporary f = false

theorem clean_answers (hcontext : ∀ x ∈ context.variables, isTemporary x = false)
    (hlookup : ∀ name s t, ((lookup name).run s).1 = some (.term t) →
      ∀ x ∈ t.variables, isTemporary x = false)
    (s : σ) : ((Host.ofResolverContract context lookup notify limit).at s).Clean limit := by
  refine ⟨hcontext, ?_, fun kind ts t h => h, fun args t h => (Except.ok.inj h).symm⟩
  rintro name t ⟨s, hs⟩
  exact hlookup name s t hs

theorem clean_written {e : Expr} (he : e.Every Expr.CallsNoTemporary) :
    e.written.Every (Expr.Clean (e.Every fun x => x.isPaired = true)) := by
  refine Expr.Every.written (fun x y hx _ _ hf hpaired => ⟨hf ▸ hx.function, hpaired ▸ hx.paired⟩) ?_
  by_cases hp : e.Every fun x => x.isPaired = true
  · exact he.imp₂ (fun x h h' => ⟨h, fun _ => h'⟩) hp
  · exact he.imp₂ (fun x h _ => ⟨h, fun h' => absurd h' hp⟩) he

section Bindings

variable (hcontext : ∀ x ∈ context.variables, isTemporary x = false)
  (hlookup : ∀ name s t, ((lookup name).run s).1 = some (.term t) →
    ∀ x ∈ t.variables, isTemporary x = false)

include hcontext hlookup

theorem action_temporaries {e : Expr} (he : e.Every Expr.CallsNoTemporary) (b : Text) (s : σ) :
    Settled (fun code s' => ∃ body stack rest,
        outcome (actionBody (Host.ofResolver context lookup notify limit) e b) s =
          (.ok (body, stack), s') ∧ stack.live = [] ∧
        Disciplined b (e.Every fun x => x.isPaired = true) stack.count code.statements rest)
      (outcome (lowerAction (Host.ofResolver context lookup notify limit) e b) s) := by
  unfold lowerAction
  rw [outcome_bind]
  unfold actionBody
  cases hreplace : e.replaceBuiltins BuiltinFactory.literal with
  | error f => exact breaksStack_of_replaceBuiltins hreplace
  | ok e' =>
      have h := settled_lowerBinding
        (makes_lowerStatements (C := Host.ofResolverContract context lookup notify limit) (b := b) e') s
      dsimp only
      rcases hrun : outcome (lowerBinding (Host.ofResolver context lookup notify limit) b
        (e'.lowerStatements (Host.ofResolver context lookup notify limit))) s with
        ⟨f | ⟨body, stack⟩, s'⟩
      · rw [hrun] at h
        exact h
      · rw [hrun] at h
        obtain ⟨hb, hlive, s₁, ts, rfl, hcodes⟩ := h
        have hclean := clean_written he
        rw [← Expr.eq_written_of_replaceBuiltins hreplace] at hclean
        have huses := uses_codes (clean_answers hcontext hlookup s₁) hcodes hclean.items
        have hnil : ts = [] → stack.count = 0 := by
          rintro rfl
          exact hcodes.eq_zero
        obtain ⟨rest, hrest⟩ := disciplined_action huses hnil
        refine ⟨_, stack, rest, rfl, hlive, ?_⟩
        rw [declarations_eq hb]
        exact hrest

theorem property_temporaries {e e' : Expr} (he : e.Every Expr.CallsNoTemporary)
    (hreplace : e.replaceBuiltins BuiltinFactory.literal = .ok e') (b : Text) (simple : Bool) (s : σ) :
    Settled (fun code s' => ∃ t stack rest,
        outcome (lowerBinding (Host.ofResolver context lookup notify limit) b
          (e'.lower (Host.ofResolver context lookup notify limit))) s = (.ok (t, stack), s') ∧
        stack.live = [] ∧ Disciplined b (e.Every fun x => x.isPaired = true) stack.count
          (code.statements ++ [.ofTerm code.value]) rest)
      (outcome (lowerProperty (Host.ofResolver context lookup notify limit) e' b simple) s) := by
  have h := settled_lowerBinding
    (makes_lower (C := Host.ofResolverContract context lookup notify limit) (b := b) e') s
  unfold lowerProperty
  rw [outcome_bind]
  rcases hrun : outcome (lowerBinding (Host.ofResolver context lookup notify limit) b
    (e'.lower (Host.ofResolver context lookup notify limit))) s with ⟨f | ⟨t, stack⟩, s'⟩
  · rw [hrun] at h
    exact h
  · rw [hrun] at h
    obtain ⟨hb, hlive, s₁, m, hcode, rfl⟩ := h
    have hclean := clean_written he
    rw [← Expr.eq_written_of_replaceBuiltins hreplace] at hclean
    have huses := uses_code (clean_answers hcontext hlookup s₁) hcode hclean
    dsimp only
    by_cases hsimple : stack.count = 0 ∧ simple = true
    · rw [if_pos hsimple]
      refine ⟨m.code, stack, [.ofTerm m.code], rfl, hlive, ?_⟩
      rw [hsimple.1] at huses ⊢
      exact disciplined_of_uses huses rfl (fun _ hx => nomatch hx) fun htested => htested
    · rw [if_neg hsimple]
      obtain ⟨rest, hrest⟩ := disciplined_property huses
      refine ⟨m.code, stack, rest, rfl, hlive, ?_⟩
      dsimp only
      rw [declarations_eq hb, List.append_assoc]
      exact hrest

/-- Temporaries are used as they should be by every handler and every property, and where the lowering rewrites
the tree on stacks, these are empty at the end. -/
theorem lowered_temporaries {e : Expr} (he : e.Every Expr.CallsNoTemporary) (b : Text) (s : σ) :
    Settled (fun code s' => ∃ body stack rest,
        outcome (actionBody (Host.ofResolver context lookup notify limit) e b) s =
          (.ok (body, stack), s') ∧ stack.live = [] ∧
        Disciplined b (e.Every fun x => x.isPaired = true) stack.count code.statements rest)
      (outcome (lowerAction (Host.ofResolver context lookup notify limit) e b) s) ∧
    (∀ f, e.replaceBuiltins BuiltinFactory.literal = .error f → f.breaksStack = false) ∧
    ∀ e', e.replaceBuiltins BuiltinFactory.literal = .ok e' →
      LeavesEmpty (Host.ofResolver context lookup notify limit) b e' s ∧ ∀ simple,
      Settled (fun code s' => ∃ t stack rest,
          outcome (lowerBinding (Host.ofResolver context lookup notify limit) b
            (e'.lower (Host.ofResolver context lookup notify limit))) s = (.ok (t, stack), s') ∧
          stack.live = [] ∧ Disciplined b (e.Every fun x => x.isPaired = true) stack.count
            (code.statements ++ [.ofTerm code.value]) rest)
        (outcome (lowerProperty (Host.ofResolver context lookup notify limit) e' b simple) s) :=
  ⟨action_temporaries hcontext hlookup he b s, fun _ hreplace => breaksStack_of_replaceBuiltins hreplace,
    fun e' hreplace => ⟨leavesEmpty _ b e' s,
      fun simple => property_temporaries hcontext hlookup he hreplace b simple s⟩⟩

end Bindings

end Entry

/-! ### Samples -/

namespace Sample

/-- The expression `f()?.a`. -/
def guardedRead : Expr :=
  let p : Place := ⟨none, none⟩
  .safeRead p (.method p (.context p) "f" []) "a"

/-- Its code, as the value of a handler. -/
def guardedCode : Term :=
  .operation .notIdentical (.erased (Answers.guardCode
    (.set (.ofVar "tmp_0_0") (.applyMethod (.ofVar "ctx") "f" [])) (.prop {} (.ofVar "tmp_0_0") "a")))
    (.ofValue (.bool false)) { type := some .bool }

theorem guardedRead_temporaries :
    outcome (lowerAction plainHost guardedRead "0") () =
      (.ok ⟨[.declare none {} "tmp_0_0" none, .const "pd_0" guardedCode], some "pd_0"⟩, ()) ∧
    (∃ rest, Disciplined "0" True 1
      [.declare none {} "tmp_0_0" none, .const "pd_0" guardedCode] rest) ∧
    (outcome (lowerBinding plainHost.marking "0"
      (guardedRead.statementsOnStacks plainHost (.of (.other "beyond")) 6 [])) ((), {})).2 = ((), {}) := by
  have hcontext : ∀ x ∈ (Term.ofVar "ctx").variables, isTemporary x = false := by
    intro x hx
    rw [List.mem_singleton.mp hx]
    rfl
  have hcalls : guardedRead.Every Expr.CallsNoTemporary := by
    simp [guardedRead, Expr.Every, Expr.EveryAll, Expr.CallsNoTemporary, Expr.function?]
  have hpaired : guardedRead.Every fun x => x.isPaired = true := by
    simp [guardedRead, Expr.Every, Expr.EveryAll, Expr.isPaired]
  have h := @lowered_temporaries Unit (.ofVar "ctx") (fun _ => pure none) (pure ()) 9 hcontext
    (fun _ _ _ h => nomatch h) guardedRead hcalls "0" ()
  obtain ⟨⟨body, stack, rest, hbody, -, hrest⟩, -, hproperty⟩ := h
  have hempty : LeavesEmpty plainHost "0" guardedRead () := (hproperty guardedRead rfl).1
  have hstacks := hempty.statements (.of (.other "beyond")) 6 (by decide)
  have hcount : stack.count = 1 := by
    cases hbody
    rfl
  rw [hcount] at hrest
  refine ⟨rfl, ⟨rest, hrest.declared, hrest.known, fun _ => hrest.used hpaired, hrest.tested⟩, ?_⟩
  rw [hstacks]
  rfl

/-- A map literal with a value that there is no key for. -/
def unpaired : Expr := .map ⟨none, none⟩ [] [guardedRead]

/-- Its code, which drops the value but declares the temporary. -/
def unpairedCode : PropertyCode :=
  { statements := [.declare none {} "tmp_0_0" none, .const "currVal_0" (.ofEntries [])]
    value := .ofVar "currVal_0" }

/-- A builtin call of a temporary that nothing declares. -/
def undeclared : Expr := .builtin ⟨none, none⟩ (.call "tmp_0_0") []

/-- Not all temporaries that are declared occur, nor are all that occur declared. -/
theorem not_disciplined_unpaired :
    (∃ e, unpaired.replaceBuiltins BuiltinFactory.literal = .ok e ∧
      outcome (lowerProperty plainHost e "0" true) () = (.ok unpairedCode, ()) ∧
      ¬∃ n rest, Disciplined "0" True n
        (unpairedCode.statements ++ [.ofTerm unpairedCode.value]) rest) ∧
    outcome (lowerProperty plainHost undeclared "0" true) () =
      (.ok ⟨[], .apply (.ofVar "tmp_0_0") []⟩, ()) ∧
    ¬∃ n rest, Disciplined "0" True n [.ofTerm (.apply (.ofVar "tmp_0_0") [])] rest := by
  refine ⟨⟨_, rfl, rfl, ?_⟩, rfl, ?_⟩
  · rintro ⟨_ | _ | n, rest, h⟩
    · obtain rfl : _ = rest := h.declared
      obtain ⟨k, hk, -⟩ := h.known "tmp_0_0" (by decide) rfl
      exact absurd hk (Nat.not_lt_zero k)
    · obtain rfl : _ = rest := List.tail_eq_of_cons_eq h.declared
      exact absurd (h.used trivial 0 Nat.zero_lt_one) (by decide)
    · have hget := temporaryDeclarations_append_get? "0" rest (Nat.succ_lt_succ (Nat.succ_pos n))
      rw [← h.declared] at hget
      cases hget
  · rintro ⟨_ | n, rest, h⟩
    · obtain rfl : _ = rest := h.declared
      obtain ⟨k, hk, -⟩ := h.known "tmp_0_0" (by decide) rfl
      exact absurd hk (Nat.not_lt_zero k)
    · have hget := temporaryDeclarations_append_get? "0" rest (Nat.succ_pos n)
      rw [← h.declared] at hget
      cases hget

end Sample

end TemplateCompiler
