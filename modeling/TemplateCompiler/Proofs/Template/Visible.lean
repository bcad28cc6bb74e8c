import TemplateCompiler.Proofs.Template.Compilation
import TemplateCompiler.Proofs.Template.Names

/-!
# What bindings and event handlers read

The code of a binding reads the names that the functions around it have declared by then, and those of an
event handler the names that they will have declared.

* `ScopeEntry.Grounded heads e` : the value of a variable reads none but the names `heads`, which stand at
  the heads of functions;
* `Surrounds f outermost heads ids now` : the names `now` are all that code in the scopes `ids` can read;
* `ValueCode.scoped`, `HandlerCode.scoped` : so the code of bindings and event handlers is scoped.
-/

namespace TemplateCompiler

open TemporaryStack (nameOf)

/-! ### Variables with values -/

/-- The value of a variable reads none but the names `heads`. The event alone has no value. -/
structure ScopeEntry.Grounded (heads : Text → Prop) (e : ScopeEntry) : Prop where
  event : e.value = none → e.var = eventName
  isLocal : ∀ t, e.value = some t → Names.Local e.var
  reads : ∀ t, e.value = some t → ∀ names given now later, (∀ x, heads x → now x) →
    t.Scoped names given now later

/-- All variables in force read none but the names `heads`. -/
def Lexicon.Grounded (heads : Text → Prop) (L : Lexicon) : Prop :=
  ∀ p ∈ L.env.flatten, p.2.Grounded heads

section Calls

variable {names : Names} {given : Term → Term → Prop} {now later : Text → Prop}

theorem Instruction.scoped_call {i : Instruction} {args : List Term} {span : Option SourceSpan}
    (h : ∀ t ∈ args, t.Scoped names given now later) :
    (i.call args span).Scoped names given now later :=
  Term.scoped_apply trivial h

theorem Instruction.scoped_stmt {i : Instruction} {args : List Term} {span : Option SourceSpan}
    (h : ∀ t ∈ args, t.Scoped names given now later) :
    (i.stmt args span).Scoped names given now later := by
  change (i.call args span).Scoped names given now later
  exact scoped_call h

theorem scoped_spread {limit : Nat} {args : List Term}
    (h : ∀ t ∈ args, t.Scoped names given now later) :
    ∀ t ∈ Instruction.spread limit args, t.Scoped names given now later := by
  unfold Instruction.spread
  split
  · exact List.forall_mem_singleton.mpr (Term.scoped_ofList.mpr h)
  · exact h

end Calls

namespace Lexicon.Grounded

variable {heads heads' : Text → Prop} {L : Lexicon}

theorem mono (h : L.Grounded heads) (hheads : ∀ x, heads x → heads' x) : L.Grounded heads' := fun p hp =>
  ⟨(h p hp).event, (h p hp).isLocal, fun t ht names given now later hnow =>
    (h p hp).reads t ht names given now later fun x hx => hnow x (hheads x hx)⟩

theorem bind (h : L.Grounded heads) {name : Text} {e : ScopeEntry} (he : e.Grounded heads) :
    (L.bind name e).Grounded heads := forall_bind h he

theorem addReferences (refs : List Named) : ∀ {slot : Nat} {L : Lexicon}, L.Grounded heads →
    (L.addReferences slot refs).Grounded heads := by
  induction refs with
  | nil => exact fun h => h
  | cons r rs ih =>
      intro slot L h
      refine ih (h.bind ⟨(fun hnone => nomatch hnone), fun t ht => ?_, fun t ht => ?_⟩)
      · exact ⟨[], L.fresh, rfl⟩
      · cases ht
        intro names given now later _
        exact Instruction.scoped_call (List.forall_mem_singleton.mpr trivial)

theorem addVariables {parameter : Text} (hparameter : heads parameter) (vars : List Named) :
    ∀ {L : Lexicon}, L.Grounded heads → (L.addVariables parameter vars).Grounded heads := by
  induction vars with
  | nil => exact fun h => h
  | cons v vs ih =>
      intro L h
      refine ih (h.bind ⟨(fun hnone => nomatch hnone), fun t ht => ?_, fun t ht => ?_⟩)
      · exact ⟨v.name, L.fresh, by rw [nextVar, List.append_assoc]⟩
      · cases ht
        intro names given now later hnow
        exact hnow parameter hparameter

theorem enter (h : L.Grounded heads) (id : Nat) : (L.enter id).Grounded heads := h

theorem root : Lexicon.root.Grounded heads := by
  intro p hp
  rw [List.mem_singleton.mp hp]
  exact ⟨fun _ => rfl, (fun _ h => nomatch h), fun _ h => nomatch h⟩

end Lexicon.Grounded

theorem Lexicon.Settled.declared {f : Assembly} {L : Lexicon} {heads : Text → Prop} (h : L.Settled f)
    (hL : L.Grounded heads) : ((f.scopes.declared L.id).map (·.1)).Nodup ∧
      ∀ d ∈ f.scopes.declared L.id, Names.Local d.1 ∧
        ∀ names given now later, (∀ x, heads x → now x) → d.2.Scoped names given now later := by
  refine ⟨?_, fun d hd => ?_⟩
  · obtain ⟨s, hs, hshows⟩ := h.shows
    rw [ScopeTree.declared, hs]
    exact hshows.nodup
  · obtain ⟨p, hp, hvar, ht⟩ := h.exists_binding hd
    exact ⟨hvar ▸ (hL p hp).isLocal d.2 ht, (hL p hp).reads d.2 ht⟩

/-! ### Statements -/

/-- Statements that declare variables declare nothing else. -/
theorem Stmt.declaredAll_of_isSome {ss : List Stmt} (h : ∀ s ∈ ss, s.variable?.isSome = true) :
    Stmt.declaredAll ss = Stmt.variablesIn ss ∧ Stmt.functionsIn ss = [] := by
  induction ss with
  | nil => exact ⟨rfl, rfl⟩
  | cons s ss ih =>
      obtain ⟨hs, hss⟩ := List.forall_mem_cons.mp h
      cases s with
      | declare span mods name value =>
          refine ⟨?_, (ih hss).2⟩
          rw [Stmt.declaredAll, (ih hss).1]
          rfl
      | _ => cases hs

theorem Stmt.declaredAll_map_ofTerm (ts : List Term) : Stmt.declaredAll (ts.map Stmt.ofTerm) = [] ∧
    Stmt.functionsIn (ts.map Stmt.ofTerm) = [] ∧ Stmt.variablesIn (ts.map Stmt.ofTerm) = [] := by
  induction ts with
  | nil => exact ⟨rfl, rfl, rfl⟩
  | cons t ts ih => exact ⟨ih.1, ih.2.1, ih.2.2⟩

theorem isSome_temporaries (b : Text) (n : Nat) : ∀ s ∈ temporaries b n, s.variable?.isSome = true := by
  intro s hs
  obtain ⟨k, -, rfl⟩ := List.mem_map.mp hs
  rfl

theorem variablesIn_temporaries (b : Text) (n : Nat) :
    Stmt.variablesIn (temporaries b n) = (List.range n).map (nameOf b) := by
  rw [Stmt.variablesIn, temporaries, TemporaryStack.declarations, List.filterMap_map]
  exact congrFun List.filterMap_eq_map _

theorem mem_variablesIn_temporaries {b : Text} {n k : Nat} (h : k < n) :
    nameOf b k ∈ Stmt.variablesIn (temporaries b n) := by
  rw [variablesIn_temporaries]
  exact List.mem_map_of_mem (List.mem_range.mpr h)

theorem nameOf_injective (b : Text) : Function.Injective (nameOf b) := fun _ _ h =>
  (Text.append_ofNat_inj (Names.endsOpen_append_underscore _) (Names.endsOpen_append_underscore _) h).2

theorem nodup_variablesIn_temporaries (b : Text) (n : Nat) :
    (Stmt.variablesIn (temporaries b n)).Nodup := by
  rw [variablesIn_temporaries]
  exact List.nodup_range.map (nameOf_injective b)

theorem isSome_declarations (f : Assembly) (id : Nat) :
    ∀ s ∈ f.scopes.declarations id, s.variable?.isSome = true := by
  rw [ScopeTree.declarations_eq_map]
  intro s hs
  obtain ⟨d, -, rfl⟩ := List.mem_map.mp hs
  rfl

theorem variablesIn_declarations (f : Assembly) (id : Nat) :
    Stmt.variablesIn (f.scopes.declarations id) = (f.scopes.declared id).map (·.1) := by
  rw [Stmt.variablesIn, ScopeTree.declarations_eq_map, List.filterMap_map]
  exact congrFun List.filterMap_eq_map _

/-! ### What can be read -/

/-- The names `now` are all that code in the scopes `ids` can read: the names of the module, those at the
heads of the functions around, and the variables of the scopes. -/
structure Surrounds (f : Assembly) (outermost heads : Text → Prop) (ids : List Nat) (now : Text → Prop) :
    Prop where
  outermost : ∀ x, outermost x → now x
  head : ∀ x, heads x → now x
  declared : ∀ i ∈ ids, ∀ d ∈ f.scopes.declared i, now d.1

/-- The names of a module: its constants, the event, and the component in a template. -/
structure Assembly.Knows (f : Assembly) (outermost heads : Text → Prop) : Prop where
  constant : ∀ x, f.pool.Declares x → outermost x
  event : outermost eventName
  context : heads contextName

theorem Surrounds.mono {f : Assembly} {outermost heads now now' : Text → Prop} {ids : List Nat}
    (h : Surrounds f outermost heads ids now) (hnow : ∀ x, now x → now' x) :
    Surrounds f outermost heads ids now' :=
  ⟨fun x hx => hnow x (h.outermost x hx), fun x hx => hnow x (h.head x hx),
    fun i hi d hd => hnow d.1 (h.declared i hi d hd)⟩

/-- Builtins call none but the functions `outermost`. -/
def Expr.CallsWithin (outermost : Text → Prop) (e : Expr) : Prop :=
  ∀ f, e.function? = some f → outermost f

section Codes

variable {settings : TemplateSettings} {f : Assembly} {outermost heads now later : Text → Prop}
  {given : Term → Term → Prop} {L : Lexicon}

/-- A constant of the pool reads names of the module. -/
theorem Pool.Constant.scoped {t : Term} (h : f.pool.Constant t) (hnow : ∀ x, f.pool.Declares x → now x)
    (hlater : ∀ x, f.pool.Declares x → later x) : t.Scoped f.pool.names given now later :=
  Term.Scoped.mono (Names.le_refl _) (fun _ _ hnone => hnone.elim) hnow hlater h.closed

/-- The variable that a name stands for can be read. -/
theorem Lexicon.Finds.scoped {name : Text} {t : Term} (h : L.Finds f.scopes name (some (.term t)))
    (hf : f.Knows outermost heads) (hL : L.Grounded heads) (hnow : Surrounds f outermost heads L.ids now) :
    t.Scoped f.pool.names given now later := by
  obtain ⟨b, hb, heq⟩ := Option.map_eq_some_iff.mp h.1.symm
  rw [← Found.term.inj heq]
  change now b.var
  cases hvalue : b.value with
  | none =>
      rw [(hL (name, b) (Env.mem_flatten_of_find? hb)).event hvalue]
      exact hnow.outermost _ hf.event
  | some v =>
      obtain ⟨i, hi, hmem⟩ := h.2 b v hb hvalue
      exact hnow.declared i hi (b.var, v) hmem

/-- Code that is put together from answers is scoped if the answers are. -/
theorem closed_scoped {A : Answers} {b : Text} {N : Nat} (hcontext : A.context = .ofVar contextName)
    (hlookup : ∀ {name found}, A.lookup name found → L.Finds f.scopes name found)
    (hinterpolate : ∀ {args t}, (∀ u ∈ args, u.Scoped f.pool.names given now later) →
      A.interpolate args t → t.Scoped f.pool.names given now later)
    (hbuiltin : ∀ {kind ts t}, (∀ g, kind = .call g → outermost g) →
      (∀ u ∈ ts, u.Scoped f.pool.names given now later) → A.builtin kind ts t →
      t.Scoped f.pool.names given now later)
    (hf : f.Knows outermost heads) (hL : L.Grounded heads) (hnow : Surrounds f outermost heads L.ids now)
    (htemporaries : ∀ k < N, now (nameOf b k)) :
    A.Closed b N (Expr.CallsWithin outermost) fun t => t.Scoped f.pool.names given now later where
  context := by
    rw [hcontext]
    exact hnow.head _ hf.context
  found _ _ h := (hlookup h).scoped hf hL hnow
  temporary h := htemporaries _ h
  value _ := trivial
  prop _ h := h
  key h h' := ⟨h, h'⟩
  operation _ _ h h' := ⟨h, h'⟩
  choose h h' h'' := ⟨h, h', h''⟩
  negate h := h
  assertPresent h := h
  erased h := h
  apply h h' := Term.scoped_apply h h'
  applyMethod _ h h' := ⟨h, Term.scopedAll_iff.mpr fun u hu => .inr (h' u hu)⟩
  interpolate h h' := hinterpolate h h'
  builtin hcalls _ h h' := hbuiltin (fun g hg => hcalls g (by rw [hg]; rfl)) h h'

/-- Interpolations are calls with the values of their arguments. -/
theorem scoped_interpolation {e : Expr} {args : List Term} {t : Term}
    (hargs : ∀ u ∈ args, u.Scoped f.pool.names given now later)
    (h : settings.interpolation e args = .ok t) : t.Scoped f.pool.names given now later := by
  have hdrop : ∀ u ∈ args.drop 1, u.Scoped f.pool.names given now later := fun u hu =>
    hargs u (List.drop_subset 1 args hu)
  obtain ⟨n, vs, rfl, rfl | rfl⟩ := passesOn_interpolation settings e args t h
  · exact Instruction.scoped_call hdrop
  · exact Instruction.scoped_call (List.forall_mem_singleton.mpr (Term.scoped_ofList.mpr hdrop))

/-- The code of a builtin reads its arguments, and constants of the pool. -/
theorem BuiltinCode.scoped {kind : Builtin} {ts : List Term} {t : Term} (h : BuiltinCode f.pool kind ts t)
    (hcalls : ∀ g, kind = .call g → now g) (hts : ∀ u ∈ ts, u.Scoped f.pool.names given now later)
    (hnow : ∀ x, f.pool.Declares x → now x) (hlater : ∀ x, f.pool.Declares x → later x) :
    t.Scoped f.pool.names given now later := by
  cases h with
  | constant _ _ ht => exact ht.scoped hnow hlater
  | pure _ hfactory =>
      refine Instruction.scoped_call (List.forall_mem_cons.mpr ⟨trivial, List.forall_mem_cons.mpr
        ⟨hnow _ hfactory, scoped_spread fun u hu => ?_⟩⟩)
      exact hts u (Builtin.used_subset kind ts (List.mem_of_mem_filter hu))
  | pipe =>
      exact Instruction.scoped_call (List.forall_mem_cons.mpr ⟨trivial, List.forall_mem_cons.mpr
        ⟨trivial, scoped_spread hts⟩⟩)
  | call => exact Term.scoped_apply (hcalls _ rfl) hts

/-- A builtin that is written out reads its arguments. -/
theorem Builtin.scoped_written (kind : Builtin) {ts : List Term} (hcalls : ∀ g, kind = .call g → now g)
    (hts : ∀ u ∈ ts, u.Scoped f.pool.names given now later) :
    (kind.written ts).Scoped f.pool.names given now later := by
  cases kind with
  | array => exact Term.scoped_ofList.mpr hts
  | map keys => exact Term.scoped_ofEntries_zip hts
  | pipe slot offset =>
      exact Term.scoped_ofList.mpr (List.forall_mem_cons.mpr ⟨trivial, List.forall_mem_cons.mpr ⟨trivial, hts⟩⟩)
  | call g => exact Term.scoped_apply (hcalls g rfl) hts

/-! ### Bindings -/

/-- The variables of a binding, and its value where they are declared. -/
theorem ValueCode.scoped_code {u : TemplateUnit} {e : Expr} {v : LoweredValue}
    (h : ValueCode settings f L u e v) (he : e.Every (Expr.CallsWithin outermost))
    (hf : f.Knows outermost heads) (hL : L.Grounded heads) (hnow : Surrounds f outermost heads L.ids now)
    (hlater : Surrounds f outermost heads L.ids later)
    (htemporaries : ∀ k < v.count, now (nameOf (.ofNat u.bindings) k)) :
    v.made.code.Scoped f.pool.names given now later := by
  have hconstant : ∀ x, f.pool.Declares x → now x := fun x hx => hnow.outermost x (hf.constant x hx)
  have hconstant' : ∀ x, f.pool.Declares x → later x := fun x hx => hlater.outermost x (hf.constant x hx)
  have hclosed : (valueAnswers L (settings.interpolation v.expr) f).Closed (.ofNat u.bindings) v.count
      (Expr.CallsWithin outermost) fun t => t.Scoped f.pool.names given now later :=
    closed_scoped rfl id scoped_interpolation
      (fun hcalls hts ht => ht.scoped (fun g hg => hnow.outermost g (hcalls g hg)) hts hconstant hconstant')
      hf hL hnow htemporaries
  refine hclosed.code h.code (Nat.le_refl _) (h.converted.kept _ (fun x y hx hy g hg => ?_) ⟨he, trivial⟩).1
  exact hx g (hy.function ▸ hg)

/-- The variables of a binding are its own. -/
theorem LoweredValue.fresh_statements (v : LoweredValue) (b : Nat) :
    Names.Fresh Names.OfBinding b (b + 1) (Stmt.declaredAll (v.statements b)) := by
  unfold LoweredValue.statements
  split
  · exact .nil b (b + 1)
  · rw [Stmt.declaredAll_append, (Stmt.declaredAll_of_isSome (isSome_temporaries _ _)).1]
    refine ⟨List.nodup_append.mpr ⟨nodup_variablesIn_temporaries _ _, List.nodup_singleton _, ?_⟩, ?_⟩
    · rw [variablesIn_temporaries]
      intro x hx y hy hxy
      obtain ⟨k, -, rfl⟩ := List.mem_map.mp hx
      rw [List.mem_singleton.mp hy] at hxy
      cases hxy
    · rw [variablesIn_temporaries]
      intro x hx
      refine ⟨b, Nat.le_refl b, Nat.lt_succ_self b, ?_⟩
      rcases List.mem_append.mp hx with hx | hx
      · obtain ⟨k, -, rfl⟩ := List.mem_map.mp hx
        exact .inr ⟨k, rfl⟩
      · exact .inl (List.mem_singleton.mp hx)

theorem ValueCode.scoped_statements {u : TemplateUnit} {e : Expr} {v : LoweredValue}
    (h : ValueCode settings f L u e v) (he : e.Every (Expr.CallsWithin outermost))
    (hf : f.Knows outermost heads) (hL : L.Grounded heads) (hnow : Surrounds f outermost heads L.ids now)
    (hlater : Surrounds f outermost heads L.ids later) :
    Stmt.ScopedAll f.pool.names given now later (v.statements u.bindings) ∧
      (v.passed u.bindings).Scoped f.pool.names given
        (fun x => x ∈ Stmt.variablesIn (v.statements u.bindings) ∨ now x) later := by
  have hvalue : Stmt.ScopedAll f.pool.names given now later (v.statements u.bindings) ∧
      (v.value u.bindings).Scoped f.pool.names given
        (fun x => x ∈ Stmt.variablesIn (v.statements u.bindings) ∨ now x) later := by
    unfold LoweredValue.statements LoweredValue.value
    by_cases hcount : v.count = 0
    · rw [if_pos hcount, if_pos hcount]
      have hnone : ∀ k < v.count, k < 0 := fun k hk => hcount ▸ hk
      exact ⟨trivial, h.scoped_code he hf hL (hnow.mono fun _ => .inr) hlater fun k hk =>
        absurd (hnone k hk) (Nat.not_lt_zero k)⟩
    · rw [if_neg hcount, if_neg hcount]
      refine ⟨Stmt.scopedAll_append.mpr ⟨Stmt.scopedAll_of_forall fun s hs => ?_, ?_, trivial⟩, .inl ?_⟩
      · obtain ⟨k, -, rfl⟩ := List.mem_map.mp hs
        trivial
      · exact h.scoped_code he hf hL (hnow.mono fun _ => .inr) hlater fun k hk =>
          .inl (mem_variablesIn_temporaries hk)
      · exact Stmt.mem_variablesIn_append.mpr (.inr List.mem_cons_self)
  refine ⟨hvalue.1, ?_⟩
  unfold LoweredValue.passed
  split
  · exact hvalue.2
  · exact Instruction.scoped_call (List.forall_mem_singleton.mpr hvalue.2)

/-! ### Event handlers -/

theorem ending_handlerTemporary (k : Nat) : (nameOf Compile.handlerBinding k).ending = "b_" :=
  Text.ending_append_ofNat "tmp_" (by decide) k

/-- The code of a handler reads its own variables, and those of the scopes around. -/
theorem HandlerCode.scoped_codes {e : Expr} {fn : FunctionCode} {id count : Nat} {ts : List Term}
    (h : HandlerCode f L e fn id count ts) (he : e.Every (Expr.CallsWithin outermost))
    (hf : f.Knows outermost heads) (hL : L.Grounded heads)
    (hnow : Surrounds f outermost heads (id :: L.ids) now)
    (htemporaries : ∀ k < count, now (nameOf Compile.handlerBinding k)) :
    ∀ t ∈ ts, t.Scoped f.pool.names given now later := by
  have hclosed : (handlerAnswers (L.enter id) f).Closed Compile.handlerBinding count
      (Expr.CallsWithin outermost) fun t => t.Scoped f.pool.names given now later := by
    refine closed_scoped rfl (fun hfound => hfound) (fun _ hargs => nomatch hargs)
      (fun {kind ts t} hcalls hts ht => ?_) hf (hL.enter id) hnow htemporaries
    have ht : t = kind.written ts := ht
    rw [ht]
    exact kind.scoped_written (fun g hg => hnow.outermost g (hcalls g hg)) hts
  have hitems : Expr.EveryAll (Expr.CallsWithin outermost) e.written.items :=
    Expr.Every.items (Expr.Every.written (fun x y hx _ _ hy _ g hg => hx g (hy ▸ hg)) he)
  exact hclosed.codes h.codes (Nat.le_refl _) hitems

theorem HandlerCode.scoped_function {e : Expr} {fn : FunctionCode} {id count : Nat} {ts : List Term}
    (h : HandlerCode f L e fn id count ts) (he : e.Every (Expr.CallsWithin outermost))
    (hf : f.Knows outermost heads) (hL : L.Grounded heads)
    (hlater : Surrounds f outermost heads L.ids later) :
    Stmt.ScopedFunction f.pool.names given later fn.params fn.body := by
  obtain ⟨hnodup, hdeclared⟩ := h.settled.declared (hL.enter id)
  change ((f.scopes.declared id).map (·.1)).Nodup at hnodup
  change ∀ d ∈ f.scopes.declared id, _ at hdeclared
  have hvariables := variablesIn_declarations f id
  obtain ⟨hdeclarations, -⟩ := Stmt.declaredAll_of_isSome (isSome_declarations f id)
  obtain ⟨htemporaries, -⟩ :=
    Stmt.declaredAll_of_isSome (isSome_temporaries Compile.handlerBinding count)
  let results : List Stmt :=
    (ts.getLast?.map fun t => .ret none (.operation .notIdentical (.erased t) (.ofValue (.bool false))
      { type := some .bool })).toList
  have hresults : Stmt.declaredAll results = [] := by
    unfold results
    cases ts.getLast? <;> rfl
  have hbody : fn.body = f.scopes.declarations id ++
      (temporaries Compile.handlerBinding count ++ (ts.dropLast.map Stmt.ofTerm ++ results)) := h.body
  rw [h.params, hbody]
  constructor
  · rw [Stmt.declaredAll_append, Stmt.declaredAll_append, Stmt.declaredAll_append,
      (Stmt.declaredAll_map_ofTerm _).1, hresults, List.nil_append, List.append_nil, hdeclarations,
      htemporaries, hvariables, variablesIn_temporaries, List.singleton_append]
    -- The event, the variables of the scope and the temporaries are names of different kinds.
    have hends : ∀ x ∈ (f.scopes.declared id).map (·.1), Text.ending x = "_r" := by
      intro x hx
      obtain ⟨d, hd, rfl⟩ := List.mem_map.mp hx
      exact (hdeclared d hd).1.ending
    have hends' : ∀ x ∈ (List.range count).map (nameOf Compile.handlerBinding), Text.ending x = "b_" := by
      intro x hx
      obtain ⟨k, -, rfl⟩ := List.mem_map.mp hx
      exact ending_handlerTemporary k
    refine List.nodup_cons.mpr ⟨fun hmem => ?_, List.nodup_append.mpr ⟨hnodup,
      List.nodup_range.map (nameOf_injective _), fun x hx y hy hxy => ?_⟩⟩
    · rcases List.mem_append.mp hmem with hmem | hmem
      · exact absurd (hends _ hmem) (by decide)
      · exact absurd (hends' _ hmem) (by decide)
    · have := (hends x hx).symm.trans (hxy ▸ hends' y hy)
      cases this
  · unfold Stmt.ScopedBlock
    rw [Stmt.scopedAll_append, Stmt.scopedAll_append]
    refine ⟨Stmt.scopedAll_of_forall fun s hs => ?_, Stmt.scopedAll_of_forall fun s hs => ?_, ?_⟩
    · rw [ScopeTree.declarations_eq_map] at hs
      obtain ⟨d, hd, rfl⟩ := List.mem_map.mp hs
      exact (hdeclared d hd).2 _ _ _ _ fun x hx => .inr (.inr (hlater.head x hx))
    · obtain ⟨k, -, rfl⟩ := List.mem_map.mp hs
      trivial
    · -- The code of the handler can read whatever stands before it, and what will stand around it.
      have hall : ∀ {now' later' : Text → Prop}, Surrounds f outermost heads (id :: L.ids) now' →
          (∀ k < count, now' (nameOf Compile.handlerBinding k)) →
          Stmt.ScopedAll f.pool.names given now' later' (ts.dropLast.map Stmt.ofTerm ++ results) := by
        intro now' later' hnow htemp
        have hts : ∀ t ∈ ts, t.Scoped f.pool.names given now' later' :=
          h.scoped_codes he hf hL hnow htemp
        refine Stmt.scopedAll_of_forall fun s hs => ?_
        rcases List.mem_append.mp hs with hs | hs
        · obtain ⟨t, ht, rfl⟩ := List.mem_map.mp hs
          exact hts t (List.dropLast_subset ts ht)
        · obtain ⟨t, ht, rfl⟩ := Option.map_eq_some_iff.mp (Option.mem_toList.mp hs)
          exact ⟨hts t (List.mem_of_getLast? ht), trivial⟩
      refine hall ⟨fun x hx => ?_, fun x hx => ?_, fun i hi d hd => ?_⟩ fun k hk => ?_
      · exact .inr (.inr (.inr (.inr (hlater.outermost x hx))))
      · exact .inr (.inr (.inr (.inr (hlater.head x hx))))
      · rcases List.mem_cons.mp hi with rfl | hi
        · exact .inr (.inl (hvariables ▸ List.mem_map_of_mem hd))
        · exact .inr (.inr (.inr (.inr (hlater.declared i hi d hd))))
      · exact .inl (mem_variablesIn_temporaries hk)

end Codes

end TemplateCompiler
