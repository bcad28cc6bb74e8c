import TemplateCompiler.Proofs.Template.Values

/-!
# Every pipe of a binding is called

The code of a binding calls each pipe that was put into a slot for it, unless a value of a map is dropped
because there is no key for it. The receiver of a safe access may stand in its guard only; then the pipes
in it are called there.

* `Term.CallsPipe t q` : the term `t` calls the pipe in the slot and with the block of `q`;
* `callsPipe_code` : the code of an expression calls all its pipes.
-/

namespace TemplateCompiler

/-- A term that calls a pipe, which is given by its slot, its first pure slot and its number of values. -/
def Term.CallsPipe (t : Term) (q : Nat × Nat × Nat) : Prop :=
  pipeBlock q.1 q.2.1 q.2.2 ∈ t.calls.filterMap RuntimeCall.pipeBlock?

namespace Term.CallsPipe

variable {c t u : Term} {ts : List Term} {q : Nat × Nat × Nat}

theorem of_subset (h : t.CallsPipe q) (hsub : t.calls ⊆ u.calls) : u.CallsPipe q := by
  obtain ⟨x, hx, hblock⟩ := List.mem_filterMap.mp h
  exact List.mem_filterMap.mpr ⟨x, hsub hx, hblock⟩

theorem of_mem (h : t.CallsPipe q) (ht : t ∈ ts) (hsub : Term.callsAll ts ⊆ u.calls) : u.CallsPipe q := by
  refine h.of_subset fun x hx => hsub ?_
  rw [Term.callsAll_eq_flatMap]
  exact List.mem_flatMap.mpr ⟨t, ht, hx⟩

theorem isConstant (h : t.CallsPipe q) : t.isConstant = false := by
  rw [Bool.eq_false_iff]
  intro hconstant
  rw [CallsPipe, Term.calls_of_isConstant t hconstant] at h
  cases h

end Term.CallsPipe

namespace Expr

theorem mem_pipesAll_children {e : Expr} (h : e.placed? = none) {q : Nat × Nat × Nat} (hq : q ∈ e.pipes) :
    q ∈ pipesAll e.children :=
  (mem_pipes.mp hq).resolve_left fun hplaced => by rw [h] at hplaced; cases hplaced

theorem pipes_of_isContext {e : Expr} (h : e.isContext = true) : e.pipes = [] := by
  cases e with
  | context p => rfl
  | _ => cases h

/-- A node that has a value for every pipe, and that drops no values. -/
structure Keeping (e : Expr) : Prop where
  paired : e.isPaired = true
  pipe : ∀ q, e.placed? = some q → 0 < q.2.2

end Expr

/-- A pipe in a receiver that is kept in a temporary. -/
def Pins.Holds (pins : Pins) (rs : List Expr) (q : Nat × Nat × Nat) : Prop :=
  ∃ (i : Nat) (r : Expr) (t : Term), rs[i]? = some r ∧ pins[i]? = some (some t) ∧ q ∈ r.pipes

theorem Pins.Holds.append {pins : Pins} {rs : List Expr} {q : Nat × Nat × Nat} (h : pins.Holds rs q)
    (rs' : List Expr) : pins.Holds (rs ++ rs') q := by
  obtain ⟨i, r, t, hr, ht, hq⟩ := h
  have hlt := (List.getElem?_eq_some_iff.mp hr).1
  exact ⟨i, r, t, by rw [List.getElem?_append_left hlt, hr], ht, hq⟩

/-- The pipes of a receiver that was given one more pin are those before, or of the receiver. -/
theorem Pins.Holds.of_append {pins : Pins} {rs : List Expr} {r : Expr} {pin : Option Term}
    {q : Nat × Nat × Nat} (hlength : pins.length = rs.length)
    (h : Pins.Holds (pins ++ [pin]) (rs ++ [r]) q) :
    pins.Holds rs q ∨ (pin.isSome = true ∧ q ∈ r.pipes) := by
  obtain ⟨i, r', t, hr, ht, hq⟩ := h
  by_cases hi : i < rs.length
  · rw [List.getElem?_append_left hi] at hr
    rw [List.getElem?_append_left (hlength ▸ hi)] at ht
    exact .inl ⟨i, r', t, hr, ht, hq⟩
  · have hlt := (List.getElem?_eq_some_iff.mp hr).1
    rw [List.length_append, List.length_singleton] at hlt
    obtain rfl : i = rs.length := by omega
    rw [List.getElem?_concat_length, Option.some_inj] at hr
    rw [← hlength, List.getElem?_concat_length, Option.some_inj] at ht
    subst hr ht
    exact .inr ⟨rfl, hq⟩

theorem callsPipe_builtin {pool : Pool} {p : Place} {kind : Builtin} {args : List Expr} {ts : List Term}
    {t : Term} {q : Nat × Nat × Nat} (hkeeping : (Expr.builtin p kind args).Keeping)
    (hlength : args.length = ts.length) (ht : BuiltinCode pool kind ts t)
    (hq : q ∈ (Expr.builtin p kind args).pipes)
    (hargs : q ∈ Expr.pipesAll args → ∃ u ∈ ts, u.CallsPipe q) : t.CallsPipe q := by
  have hcollection : kind.isCollection = true → ∃ u ∈ ts, u.CallsPipe q := by
    intro hkind
    refine hargs ((Expr.mem_pipes.mp hq).resolve_left fun hplaced => ?_)
    cases kind with
    | pipe => cases hkind
    | _ => cases hplaced
  cases ht with
  | constant hkind hconstant =>
      obtain ⟨u, hu, hcalls⟩ := hcollection hkind
      have hu' := allConstant_iff.mp hconstant u hu
      rw [hcalls.isConstant] at hu'
      cases hu'
  | pure hkind =>
      obtain ⟨u, hu, hcalls⟩ := hcollection hkind
      have hused : kind.used ts = ts := by
        cases kind with
        | map keys =>
            refine List.take_of_length_le (Nat.le_of_eq ?_)
            exact hlength.symm.trans (eq_of_beq hkeeping.paired).symm
        | _ => rfl
      have hmem : u ∈ (kind.used ts).filter fun t => !t.isConstant := by
        rw [hused, List.mem_filter]
        exact ⟨hu, by rw [hcalls.isConstant]; rfl⟩
      refine hcalls.of_mem hmem ?_
      rw [pureCode, Instruction.calls_call, Term.callsAll, Term.callsAll, Instruction.callsAll_spread,
        Term.calls_ofNat, Term.calls_ofVar]
      exact List.subset_cons_self ..
  | @pipe slot offset =>
      have hcalls : (pipeCode slot offset ts).calls = ⟨(Instruction.pipeBind ts.length).name,
          .ofNat slot :: .ofNat offset :: Instruction.spread Instruction.maxPipeBind ts⟩ ::
          Term.callsAll ts := by
        rw [pipeCode, Instruction.calls_call, Term.callsAll, Term.callsAll, Instruction.callsAll_spread,
          Term.calls_ofNat, Term.calls_ofNat]
        rfl
      rcases Expr.mem_pipes.mp hq with hplaced | hq
      · have hne : ts ≠ [] := by
          rintro rfl
          have hpos := hkeeping.pipe _ hplaced
          rw [Expr.placed?, Option.some_inj] at hplaced
          rw [← hplaced] at hpos
          exact absurd hpos (by rw [hlength]; exact Nat.lt_irrefl 0)
        rw [Expr.placed?, Option.some_inj] at hplaced
        rw [Term.CallsPipe, ← hplaced, hcalls, hlength,
          List.filterMap_cons_some (pipeBlock?_pipeBind slot offset hne)]
        exact List.mem_cons_self
      · obtain ⟨u, hu, hu'⟩ := hargs hq
        refine hu'.of_mem hu ?_
        rw [hcalls]
        exact List.subset_cons_self ..
  | call =>
      obtain ⟨u, hu, hcalls⟩ := hargs ((Expr.mem_pipes.mp hq).resolve_left (by rintro ⟨⟩))
      refine hcalls.of_mem hu ?_
      rw [Term.calls_apply _ rfl, Term.calls_ofVar]
      exact List.Subset.refl _

section

variable {A : Answers} {b : Text}

/-- A member of the context has no pipes but those of its receiver, which has none. -/
theorem Answers.Resolves.pipes {r : Expr} {c : Lowered} {name : Text} {found : Option Found}
    (h : A.Resolves c name found) (hc : c.isContext = true → A.Aliased ∨ r.isContext = true)
    (hA : ¬A.Aliased) {q : Nat × Nat × Nat} (hq : q ∈ r.pipes) : found = none := by
  unfold Answers.Resolves at h
  split at h
  · next hcontext =>
      rw [Expr.pipes_of_isContext ((hc hcontext).resolve_left hA)] at hq
      cases hq
  · exact h

/-- Answers that pass on what they are given, and find no name to be the context. -/
structure Answers.Passing (A : Answers) : Prop where
  aliased : ¬A.Aliased
  builtin : ∀ {kind ts t}, A.builtin kind ts t → ∃ pool, BuiltinCode pool kind ts t
  interpolate : ∀ {args t}, A.interpolate args t → Term.callsAll (args.drop 1) ⊆ t.calls

theorem calls_subset_apply (c : Term) (ts : List Term) :
    c.calls ⊆ (Term.apply c ts).calls ∧ Term.callsAll ts ⊆ (Term.apply c ts).calls := by
  rw [Term.apply, Term.calls]
  exact ⟨fun x hx => List.mem_append_right _ (List.mem_append_left _ hx),
    fun x hx => List.mem_append_right _ (List.mem_append_right _ hx)⟩

theorem callsAll_subset_invocationCode (c : Lowered) (name : Text) (ts : List Term) (found : Option Found) :
    Term.callsAll ts ⊆ (A.invocationCode c name ts found).calls := by
  cases found with
  | none =>
      rw [Answers.invocationCode, Term.calls_applyMethod]
      exact List.subset_append_right ..
  | some f => exact (calls_subset_apply _ ts).2

open Answers

mutual

theorem callsPipe_code (hA : A.Passing) : ∀ {d n : Nat} {e : Expr} {t : Lowered}, A.Code b d n e t →
    e.Every Expr.Keeping → ∀ q ∈ e.pipes, t.code.CallsPipe q
  | _, _, _, _, .spine h, he, q, hq => by
    rcases callsPipe_guarded hA h (List.nil_append _) rfl he he.safeReceivers q hq with ht | hheld
    · exact ht
    · obtain ⟨i, r, t, hr, -⟩ := hheld
      cases hr

theorem callsPipe_codes (hA : A.Passing) : ∀ {d n : Nat} {es : List Expr} {ts : List Term},
    A.Codes b d n es ts → Expr.EveryAll Expr.Keeping es → ∀ q ∈ Expr.pipesAll es, ∃ t ∈ ts, t.CallsPipe q
  | _, _, _, _, .nil, _, q, hq => by
    obtain ⟨e, he, -⟩ := Expr.mem_pipesAll.mp hq
    cases he
  | _, _, _, _, .cons ht hts, he, q, hq => by
    rw [Expr.EveryAll] at he
    rcases Expr.mem_pipesAll_cons.mp hq with hq | hq
    · exact ⟨_, List.mem_cons_self, callsPipe_code hA ht he.1 q hq⟩
    · obtain ⟨t, htmem, hcalls⟩ := callsPipe_codes hA hts he.2 q hq
      exact ⟨t, List.mem_cons_of_mem _ htmem, hcalls⟩

theorem callsPipe_guarded (hA : A.Passing) : ∀ {d n : Nat} {pins : Pins} {rs front : List Expr} {e : Expr}
    {t : Lowered}, A.GuardedCode b d n pins rs e t → front ++ rs = e.safeReceivers →
    pins.length = front.length → e.Every Expr.Keeping → (∀ r ∈ rs, r.Every Expr.Keeping) →
    ∀ q ∈ e.pipes, t.code.CallsPipe q ∨ pins.Holds front q
  | _, _, _, _, front, e, _, .plain h, hrs, _, he, _, q, hq => by
    rw [List.append_nil] at hrs
    rw [hrs]
    exact callsPipe_plain hA h he q hq
  | _, _, _, _, front, e, _, .kept _ hc ht, hrs, hlength, he, hevery, q, hq => by
    obtain ⟨hr, hevery⟩ := List.forall_mem_cons.mp hevery
    have hfront := Expr.safeReceivers_of_append hrs
    rw [List.append_cons] at hrs
    -- What is not called in the rest is in the receiver, which is evaluated here.
    rcases callsPipe_guarded hA ht hrs (by simp [hlength]) he hevery q hq with h | h
    · exact .inl (h.of_subset (by simp [guardCode]))
    · rcases h.of_append hlength with h | ⟨-, hqr⟩
      · exact .inr h
      · rcases callsPipe_plain hA hc hr q hqr with h | h
        · exact .inl (h.of_subset (by simp [guardCode]))
        · exact .inr (hfront ▸ h)
  | _, _, _, _, front, e, _, .copied _ hc ht, hrs, hlength, he, hevery, q, hq => by
    obtain ⟨-, hevery⟩ := List.forall_mem_cons.mp hevery
    rw [List.append_cons] at hrs
    rcases callsPipe_guarded hA ht hrs (by simp [hlength]) he hevery q hq with h | h
    · exact .inl (h.of_subset (by simp [guardCode]))
    · rcases h.of_append hlength with h | ⟨hnone, -⟩
      · exact .inr h
      · cases hnone

theorem callsPipe_plain (hA : A.Passing) : ∀ {d n : Nat} {pins : Pins} {e : Expr} {t : Lowered},
    A.PlainCode b d n pins e t → e.Every Expr.Keeping →
    ∀ q ∈ e.pipes, t.code.CallsPipe q ∨ pins.Holds e.safeReceivers q
  | _, _, _, _, _, .context, _, q, hq => nomatch hq
  | _, _, _, _, _, .read hc hfound, he, q, hq => by
    rw [Expr.Every] at he
    have hqr := Expr.mem_pipesAll_singleton.mp (Expr.mem_pipesAll_children rfl hq)
    obtain rfl := hfound.pipes hc.isContext hA.aliased hqr
    exact (callsPipe_plain hA hc he.2 q hqr).imp_left (·.of_subset (by simp [memberCode]))
  | _, _, _, _, _, .safeRead hc hfound, he, q, hq => by
    rw [Expr.Every] at he
    have hqr := Expr.mem_pipesAll_singleton.mp (Expr.mem_pipesAll_children rfl hq)
    obtain rfl := hfound.pipes hc.isContext hA.aliased hqr
    exact (callsPipe_receiver hA hc he.2 q hqr).imp_left (·.of_subset (by simp [memberCode]))
  | _, _, _, _, _, .index hc hk, he, q, hq => by
    rw [Expr.Every] at he
    rcases Expr.mem_pipesAll_cons.mp (Expr.mem_pipesAll_children rfl hq) with hqx | hqx
    · exact (callsPipe_plain hA hc he.2.1 q hqx).imp_left (·.of_subset (by simp))
    · rw [Expr.mem_pipesAll_singleton] at hqx
      exact .inl ((callsPipe_code hA hk he.2.2 q hqx).of_subset (by simp))
  | _, _, _, _, _, .erased herased hargs, he, q, hq => by
    rw [Expr.Every] at he
    rcases Expr.mem_pipesAll_cons.mp (Expr.mem_pipesAll_children rfl hq) with hqx | hqx
    · rw [Expr.pipes_of_isContext (Bool.and_eq_true_iff.mp herased).1] at hqx
      cases hqx
    · obtain ⟨u, hu, hcalls⟩ := callsPipe_codes hA hargs he.2.2 q hqx
      exact .inl (hcalls.of_mem hu (by simp [Term.callsAll]))
  | _, _, _, _, _, .method _ hargs hc hfound, he, q, hq => by
    rw [Expr.Every] at he
    rcases Expr.mem_pipesAll_cons.mp (Expr.mem_pipesAll_children rfl hq) with hqx | hqx
    · obtain rfl := hfound.pipes hc.isContext hA.aliased hqx
      exact (callsPipe_plain hA hc he.2.1 q hqx).imp_left (·.of_subset (by simp [invocationCode]))
    · obtain ⟨u, hu, hcalls⟩ := callsPipe_codes hA hargs he.2.2 q hqx
      exact .inl (hcalls.of_mem hu (callsAll_subset_invocationCode ..))
  | _, _, _, _, _, .safeErased herased hargs, he, q, hq => by
    rw [Expr.Every] at he
    rcases Expr.mem_pipesAll_cons.mp (Expr.mem_pipesAll_children rfl hq) with hqx | hqx
    · rw [Expr.pipes_of_isContext (Bool.and_eq_true_iff.mp herased).1] at hqx
      cases hqx
    · obtain ⟨u, hu, hcalls⟩ := callsPipe_codes hA hargs he.2.2 q hqx
      exact .inl (hcalls.of_mem hu (by simp [Term.callsAll]))
  | _, _, _, _, _, .safeMethod _ hargs hc hfound, he, q, hq => by
    rw [Expr.Every] at he
    rcases Expr.mem_pipesAll_cons.mp (Expr.mem_pipesAll_children rfl hq) with hqx | hqx
    · obtain rfl := hfound.pipes hc.isContext hA.aliased hqx
      exact (callsPipe_receiver hA hc he.2.1 q hqx).imp_left (·.of_subset (by simp [invocationCode]))
    · obtain ⟨u, hu, hcalls⟩ := callsPipe_codes hA hargs he.2.2 q hqx
      exact .inl (hcalls.of_mem hu (callsAll_subset_invocationCode ..))
  | _, _, _, _, _, .write hc _ ht, he, q, hq => by
    rw [Expr.Every] at he
    rcases Expr.mem_pipesAll_cons.mp (Expr.mem_pipesAll_children rfl hq) with hqx | hqx
    · exact .inl ((callsPipe_code hA hc he.2.1 q hqx).of_subset (by simp))
    · rw [Expr.mem_pipesAll_singleton] at hqx
      exact .inl ((callsPipe_code hA ht he.2.2 q hqx).of_subset (by simp))
  | _, _, _, _, _, .writeThrough hc hfound _ ht, he, q, hq => by
    rw [Expr.Every] at he
    rcases Expr.mem_pipesAll_cons.mp (Expr.mem_pipesAll_children rfl hq) with hqx | hqx
    · cases hfound.pipes hc.isContext hA.aliased hqx
    · rw [Expr.mem_pipesAll_singleton] at hqx
      exact .inl ((callsPipe_code hA ht he.2.2 q hqx).of_subset (by simp))
  | _, _, _, _, _, .indexWrite hc hi ht, he, q, hq => by
    rw [Expr.Every] at he
    rcases Expr.mem_pipesAll_cons.mp (Expr.mem_pipesAll_children rfl hq) with hqx | hqx
    · exact .inl ((callsPipe_code hA hc he.2.1 q hqx).of_subset (by simp))
    · rcases Expr.mem_pipesAll_cons.mp hqx with hqx | hqx
      · exact .inl ((callsPipe_code hA hi he.2.2.1 q hqx).of_subset (by simp))
      · rw [Expr.mem_pipesAll_singleton] at hqx
        exact .inl ((callsPipe_code hA ht he.2.2.2 q hqx).of_subset (by simp))
  | _, _, _, _, _, .call hargs hf, he, q, hq => by
    rw [Expr.Every] at he
    rcases Expr.mem_pipesAll_cons.mp (Expr.mem_pipesAll_children rfl hq) with hqx | hqx
    · exact .inl ((callsPipe_code hA hf he.2.1 q hqx).of_subset (calls_subset_apply ..).1)
    · obtain ⟨u, hu, hcalls⟩ := callsPipe_codes hA hargs he.2.2 q hqx
      exact .inl (hcalls.of_mem hu (calls_subset_apply ..).2)
  | _, _, _, _, _, .conditional hc hy hz, he, q, hq => by
    rw [Expr.Every] at he
    rcases Expr.mem_pipesAll_cons.mp (Expr.mem_pipesAll_children rfl hq) with hqx | hqx
    · exact .inl ((callsPipe_code hA hc he.2.1 q hqx).of_subset (by simp))
    · rcases Expr.mem_pipesAll_cons.mp hqx with hqx | hqx
      · exact .inl ((callsPipe_code hA hy he.2.2.1 q hqx).of_subset (by simp))
      · rw [Expr.mem_pipesAll_singleton] at hqx
        exact .inl ((callsPipe_code hA hz he.2.2.2 q hqx).of_subset (by simp))
  | _, _, _, _, _, .binary _ hl hr, he, q, hq => by
    rw [Expr.Every] at he
    rcases Expr.mem_pipesAll_cons.mp (Expr.mem_pipesAll_children rfl hq) with hqx | hqx
    · exact .inl ((callsPipe_code hA hl he.2.1 q hqx).of_subset (by simp))
    · rw [Expr.mem_pipesAll_singleton] at hqx
      exact .inl ((callsPipe_code hA hr he.2.2 q hqx).of_subset (by simp))
  | _, _, _, _, _, .not ht, he, q, hq => by
    rw [Expr.Every] at he
    have hqx := Expr.mem_pipesAll_singleton.mp (Expr.mem_pipesAll_children rfl hq)
    exact .inl ((callsPipe_code hA ht he.2 q hqx).of_subset (by simp))
  | _, _, _, _, _, .present ht, he, q, hq => by
    rw [Expr.Every] at he
    have hqx := Expr.mem_pipesAll_singleton.mp (Expr.mem_pipesAll_children rfl hq)
    exact .inl ((callsPipe_code hA ht he.2 q hqx).of_subset (by simp))
  | _, _, _, _, _, .literal, _, q, hq => nomatch hq
  | _, _, _, _, _, .interpolation hlength hes ht, he, q, hq => by
    rw [Expr.Every] at he
    have hqx := Expr.mem_pipesAll_children rfl hq
    obtain ⟨u, hu, hcalls⟩ := callsPipe_codes hA hes he.2 q hqx
    refine .inl (hcalls.of_mem hu ?_)
    have hpass := hA.interpolate ht
    rw [hes.length_eq] at hlength
    rwa [List.drop_succ_cons, List.drop_zero, Term.callsAll_interpolationArgs hlength] at hpass
  | _, _, _, _, _, .builtin hargs ht, he, q, hq => by
    rw [Expr.Every] at he
    obtain ⟨pool, ht⟩ := hA.builtin ht
    exact .inl (callsPipe_builtin he.1 hargs.length_eq ht hq (callsPipe_codes hA hargs he.2 q))

theorem callsPipe_receiver (hA : A.Passing) : ∀ {d n : Nat} {pins : Pins} {r : Expr} {t : Lowered},
    A.ReceiverCode b d n pins r t → r.Every Expr.Keeping →
    ∀ q ∈ r.pipes, t.code.CallsPipe q ∨ pins.Holds (r.safeReceivers ++ [r]) q
  | _, _, _, r, _, .kept hpin, _, q, hq => by
    refine .inr ⟨r.safeReceivers.length, r, _, ?_, hpin, hq⟩
    rw [List.getElem?_concat_length]
  | _, _, _, _, _, .copied _ hc, he, q, hq => (callsPipe_plain hA hc he q hq).imp_right (·.append _)

end

end

end TemplateCompiler
