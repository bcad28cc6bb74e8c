import TemplateCompiler.Proofs.Template.Units

/-!
# What the code of bindings calls

The code of a binding calls the runtime in three ways only: for an interpolation, for a pure function and
for a pipe. A pipe that it calls is one of those that were put into slots for it, unless it was in one
before.

* `ValueCall ps given c` : the call `c` is of one of these kinds, and a pipe is one of `ps` or `given`;
* `ValueCode.calls` : all calls in the code of a binding are;
* `HandlerCode.calls` : an event handler calls nothing.
-/

namespace TemplateCompiler

/-- A term that is no runtime function itself, and whose calls have a property. -/
structure CallsOnly (R : RuntimeCall → Prop) (t : Term) : Prop where
  runtime : t.runtime? = none
  calls : ∀ c ∈ t.calls, R c

namespace CallsOnly

variable {R : RuntimeCall → Prop} {c t u : Term} {ts : List Term}

theorem of_calls_eq_nil (hr : t.runtime? = none) (hc : t.calls = []) : CallsOnly R t :=
  ⟨hr, fun c h => by rw [hc] at h; cases h⟩

theorem of_calls_eq (h : ∀ u ∈ ts, CallsOnly R u) (hr : t.runtime? = none)
    (hc : t.calls = Term.callsAll ts) : CallsOnly R t := by
  refine ⟨hr, fun c hcall => ?_⟩
  rw [hc, Term.callsAll_eq_flatMap] at hcall
  obtain ⟨u, hu, hcu⟩ := List.mem_flatMap.mp hcall
  exact (h u hu).calls c hcu

theorem callsAll (h : ∀ u ∈ ts, CallsOnly R u) : ∀ c ∈ Term.callsAll ts, R c :=
  (of_calls_eq (t := .ofList ts) h rfl (Term.calls_ofList ts)).calls

theorem call {i : Instruction} {args : List Term} (h : ∀ c ∈ Term.callsAll args, R c)
    (hi : R ⟨i.name, args⟩) : CallsOnly R (i.call args) := by
  refine ⟨rfl, fun c hc => ?_⟩
  rw [Instruction.calls_call, List.mem_cons] at hc
  rcases hc with rfl | hc
  · exact hi
  · exact h c hc

end CallsOnly

/-- The calls of code that a host with variables for names allows, if its builtins and interpolations
have the property. -/
theorem closed_callsOnly {A : Answers} {R : RuntimeCall → Prop} {Q : Expr → Prop} (b : Text) (N : Nat)
    (hcontext : ∃ x, A.context = .ofVar x)
    (hlookup : ∀ {name t}, A.lookup name (some (.term t)) → ∃ x, t = .ofVar x)
    (hinterpolate : ∀ {args t}, (∀ u ∈ args, CallsOnly R u) → A.interpolate args t → CallsOnly R t)
    (hbuiltin : ∀ {p kind es ts t}, Q (.builtin p kind es) → es.length = ts.length →
      (∀ u ∈ ts, CallsOnly R u) → A.builtin kind ts t → CallsOnly R t) :
    A.Closed b N Q (CallsOnly R) where
  context := by
    obtain ⟨x, hx⟩ := hcontext
    rw [hx]
    exact .of_calls_eq_nil rfl (Term.calls_ofVar x)
  found _ _ h := by
    obtain ⟨x, rfl⟩ := hlookup h
    exact .of_calls_eq_nil rfl (Term.calls_ofVar x)
  temporary _ := .of_calls_eq_nil rfl (Term.calls_ofVar _)
  value v := .of_calls_eq_nil rfl (Term.calls_ofValue v)
  prop _ h := ⟨rfl, by rw [Term.calls_prop]; exact h.calls⟩
  key h h' := .of_calls_eq (List.forall_mem_cons.mpr ⟨h, List.forall_mem_singleton.mpr h'⟩) rfl
    (by simp [Term.callsAll])
  operation _ _ h h' := .of_calls_eq (List.forall_mem_cons.mpr ⟨h, List.forall_mem_singleton.mpr h'⟩) rfl
    (by simp [Term.callsAll])
  choose hc h h' := .of_calls_eq
    (List.forall_mem_cons.mpr ⟨hc, List.forall_mem_cons.mpr ⟨h, List.forall_mem_singleton.mpr h'⟩⟩) rfl
    (by simp [Term.callsAll])
  negate h := ⟨rfl, by rw [Term.calls_negate]; exact h.calls⟩
  assertPresent h := ⟨rfl, by rw [Term.calls_assertPresent]; exact h.calls⟩
  erased h := ⟨rfl, by rw [Term.calls_erased]; exact h.calls⟩
  apply h hts := .of_calls_eq (List.forall_mem_cons.mpr ⟨h, hts⟩) rfl (Term.calls_apply _ h.runtime)
  applyMethod _ h hts := .of_calls_eq (List.forall_mem_cons.mpr ⟨h, hts⟩) rfl (Term.calls_applyMethod ..)
  interpolate := hinterpolate
  builtin := hbuiltin

/-- A call in the code of a binding whose pipes are `ps`; those in `given` were in slots before. -/
inductive ValueCall (ps : List Pipe) (given : List (Nat × Nat × Nat)) : RuntimeCall → Prop
  | interpolation {n : Int} {vs : List Term} :
      ValueCall ps given ⟨(Instruction.interpolation n).name, vs⟩
  | pure {slot : Nat} {factory : Term} {args : List Term} :
      ValueCall ps given ⟨(Instruction.pureFunction args.length).name,
        .ofNat slot :: factory :: Instruction.spread Instruction.maxPureFunction args⟩
  | pipe {p : Pipe} {args : List Term} : p ∈ ps → args.length = p.count →
      ValueCall ps given ⟨(Instruction.pipeBind args.length).name,
        .ofNat p.slot :: .ofNat p.offset :: Instruction.spread Instruction.maxPipeBind args⟩
  | given {slot offset : Nat} {args : List Term} : (slot, offset, args.length) ∈ given →
      ValueCall ps given ⟨(Instruction.pipeBind args.length).name,
        .ofNat slot :: .ofNat offset :: Instruction.spread Instruction.maxPipeBind args⟩

/-- A pipe in a slot is one of `ps`, or was there before. -/
def Expr.PipesIn (ps : List Pipe) (given : List (Nat × Nat × Nat)) (e : Expr) : Prop :=
  ∀ q, e.placed? = some q → (∃ p ∈ ps, q = (p.slot, p.offset, p.count)) ∨ q ∈ given

theorem callsOnly_interpolation {ps : List Pipe} {given : List (Nat × Nat × Nat)}
    {interpolate : List Term → Except Failure Term}
    (h : PassesOn interpolate) {args : List Term} {t : Term}
    (hargs : ∀ u ∈ args, CallsOnly (ValueCall ps given) u) (ht : interpolate args = .ok t) :
    CallsOnly (ValueCall ps given) t := by
  obtain ⟨n, vs, rfl, hvs⟩ := h args t ht
  refine .call ?_ .interpolation
  have hdrop : ∀ c ∈ Term.callsAll (args.drop 1), ValueCall ps given c :=
    CallsOnly.callsAll fun u hu => hargs u (List.mem_of_mem_drop hu)
  rcases hvs with rfl | rfl
  · exact hdrop
  · rw [Term.callsAll, Term.calls_ofList, Term.callsAll, List.append_nil]
    exact hdrop

theorem callsOnly_builtin {pool : Pool} {ps : List Pipe} {given : List (Nat × Nat × Nat)} {p : Place}
    {kind : Builtin} {es : List Expr} {ts : List Term} {t : Term}
    (hpipes : (Expr.builtin p kind es).PipesIn ps given) (hlength : es.length = ts.length)
    (hts : ∀ u ∈ ts, CallsOnly (ValueCall ps given) u) (h : BuiltinCode pool kind ts t) :
    CallsOnly (ValueCall ps given) t := by
  cases h with
  | constant _ _ ht =>
      exact .of_calls_eq_nil (Term.runtime?_of_isConstant ht.isConstant)
        (Term.calls_of_isConstant _ ht.isConstant)
  | pure =>
      refine .call (fun c hc => ?_) .pure
      rw [Term.callsAll, Term.callsAll, Instruction.callsAll_spread, Term.calls_ofNat, Term.calls_ofVar,
        List.nil_append, List.nil_append, Term.callsAll_filter_not_isConstant] at hc
      exact CallsOnly.callsAll (fun u hu => hts u (Builtin.used_subset _ _ hu)) c hc
  | pipe =>
      refine .call (fun c hc => ?_) ?_
      · rw [Term.callsAll, Term.callsAll, Instruction.callsAll_spread, Term.calls_ofNat,
          Term.calls_ofNat] at hc
        exact CallsOnly.callsAll hts c hc
      · rcases hpipes _ rfl with ⟨q, hq, heq⟩ | hgiven
        · obtain ⟨rfl, rfl, hcount⟩ : _ ∧ _ ∧ _ := by simpa only [Prod.mk.injEq] using heq
          exact .pipe hq (hlength.symm.trans hcount)
        · exact .given (hlength ▸ hgiven)
  | call =>
      refine .of_calls_eq hts rfl ?_
      rw [Term.calls_apply _ rfl, Term.calls_ofVar]
      rfl

/-! ### The use of a value -/

/-- The instruction for an input is given no calls besides those of the value. -/
theorem callsAll_inputArguments (slot : Nat) (name : Text) (t : Term) {unit : List Term}
    (h : ∀ u ∈ unit, ∃ text, u = .ofText text) :
    Term.callsAll ([.ofNat slot, .ofText name, t] ++ unit) = t.calls := by
  have hunit : Term.callsAll unit = [] := by
    rw [Term.callsAll_eq_flatMap]
    refine List.flatMap_eq_nil_iff.mpr fun u hu => ?_
    obtain ⟨text, rfl⟩ := h u hu
    exact Term.calls_ofText text
  rw [Term.callsAll_append, hunit]
  simp [Term.callsAll]

theorem callsAll_temporaries (b : Text) (count : Nat) : Stmt.callsAll (temporaries b count) = [] := by
  rw [Stmt.callsAll_eq_flatMap]
  refine List.flatMap_eq_nil_iff.mpr fun s hs => ?_
  obtain ⟨k, -, rfl⟩ := List.mem_map.mp hs
  rfl

namespace LoweredValue

variable (v : LoweredValue) (b : Nat)

/-- The call that a value is wrapped in, if it is no interpolation. -/
def wrapping : List RuntimeCall :=
  if v.expr.isInterpolation then [] else [⟨Instruction.bind.name, [v.value b]⟩]

theorem calls_passed : (v.passed b).calls = v.wrapping b ++ (v.value b).calls := by
  unfold passed wrapping
  split
  · rfl
  · rw [Instruction.calls_call, Term.callsAll, Term.callsAll, List.append_nil]
    rfl

/-- The code of a value stands before its use or in it. -/
theorem calls_statements : Stmt.callsAll (v.statements b) ++ (v.value b).calls = v.made.code.calls := by
  unfold statements value
  split
  · rfl
  · rw [Stmt.callsAll_append, callsAll_temporaries, Stmt.callsAll, Stmt.callsAll, Stmt.calls_const,
      Term.calls_ofVar, List.append_nil, List.append_nil]
    rfl

/-- The calls where a value is evaluated and passed to an instruction. -/
theorem perm_calls {i : Instruction} {args : List Term} {span : Option SourceSpan}
    (hargs : Term.callsAll args = (v.passed b).calls) :
    (Stmt.callsAll (v.statements b ++ [i.stmt args span])).Perm
      (⟨i.name, args⟩ :: (v.wrapping b ++ v.made.code.calls)) := by
  rw [Stmt.callsAll_append, Stmt.callsAll, Stmt.callsAll, List.append_nil, Stmt.calls_stmt, hargs,
    calls_passed, ← calls_statements v b]
  refine List.perm_middle.trans (.cons _ ?_)
  rw [← List.append_assoc, ← List.append_assoc]
  exact List.perm_append_comm.append_right _

end LoweredValue

section

variable {settings : TemplateSettings} {f : Assembly} {L : Lexicon} {e : Expr}

theorem ValueCode.calls {u : TemplateUnit} {v : LoweredValue} (h : ValueCode settings f L u e v) :
    CallsOnly (ValueCall v.pipes e.pipes) v.made.code := by
  have hpipes : v.expr.Every (Expr.PipesIn v.pipes e.pipes) := by
    refine (Expr.every_iff_nodes _).mpr fun x hx q hq => ?_
    have hplaced := h.converted.placed q
    rw [Expr.mem_pipesAll_singleton, Expr.mem_pipesAll_singleton] at hplaced
    exact hplaced.mp (List.mem_filterMap.mpr ⟨x, hx, hq⟩)
  refine (closed_callsOnly _ _ ⟨_, rfl⟩ (fun hfound => ?_)
    (fun hargs ht => callsOnly_interpolation (passesOn_interpolation settings v.expr) hargs ht)
    callsOnly_builtin).code h.code (Nat.le_refl _) hpipes
  obtain ⟨entry, -, hentry⟩ := Option.map_eq_some_iff.mp hfound.1.symm
  exact ⟨_, (Found.term.inj hentry).symm⟩

theorem HandlerCode.calls {fn : FunctionCode} {id count : Nat} {ts : List Term}
    (h : HandlerCode f L e fn id count ts) : ∀ t ∈ ts, t.calls = [] := by
  have hclosed : (handlerAnswers (L.enter id) f).Closed Compile.handlerBinding count (fun _ => True)
      (CallsOnly fun _ => False) := by
    refine closed_callsOnly _ _ ⟨_, rfl⟩ (fun hfound => ?_) (fun _ ht => nomatch ht)
      fun {p kind es ts t} _ _ hts ht => ?_
    · obtain ⟨entry, -, hentry⟩ := Option.map_eq_some_iff.mp hfound.1.symm
      exact ⟨_, (Found.term.inj hentry).symm⟩
    · obtain rfl : t = kind.written ts := ht
      cases kind with
      | array => exact .of_calls_eq hts rfl (Term.calls_ofList ts)
      | map keys =>
          have htake : ∀ u ∈ ts.take keys.length, CallsOnly (fun _ => False) u :=
            fun u hu => hts u (List.mem_of_mem_take hu)
          exact .of_calls_eq htake rfl (Term.callsAll_ofEntries ts keys)
      | pipe slot offset =>
          refine .of_calls_eq hts rfl ?_
          simp [Builtin.written, Term.callsAll]
      | call g =>
          refine .of_calls_eq hts rfl ?_
          rw [Builtin.written, Term.calls_apply _ rfl, Term.calls_ofVar]
          rfl
  intro t ht
  refine List.eq_nil_iff_forall_not_mem.mpr fun c hc => ?_
  exact (hclosed.codes h.codes (Nat.le_refl _) (everyAll_true _) t ht).calls c hc

end

end TemplateCompiler
