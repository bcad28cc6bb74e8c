import TemplateCompiler.Proofs.Pool.Requests
import TemplateCompiler.Proofs.Template.Bindings

/-!
# A compilation goes through the items

If the nodes of a template compile, then the state at the end has what the items add to the state at the
start (`compileNodes_steps`). `Compiled` is what is known of a whole template that compiles, in terms of
the state at the end.
-/

namespace TemplateCompiler

/-! ### Announced data -/

/-- A literal that is the same in every pool. -/
structure Term.Fixed (t : Term) : Prop where
  constant : ∀ pool : Pool, pool.Constant t
  literal : t.Literal
  written : t.written = t

theorem Term.fixed_ofValue {v : Primitive} (h : v.plain = v) : (ofValue v).Fixed :=
  ⟨fun _ => ⟨rfl, trivial⟩, ⟨rfl, trivial⟩, congrArg ofValue h⟩

theorem Term.fixed_ofList {ts : List Term} (h : ∀ t ∈ ts, t.Fixed) : (ofList ts).Fixed := by
  have hconstant : ∀ pool : Pool, pool.Constant (ofList ts) := fun pool =>
    .ofList fun t ht => (h t ht).constant pool
  refine ⟨hconstant, ⟨(hconstant {}).isConstant, ?_⟩, congrArg ofList ?_⟩
  · exact Pool.genuineAll_iff.mpr fun t ht => (h t ht).literal.genuine
  · rw [expandAll_eq_map]
    exact (List.map_congr_left fun t ht => (h t ht).written).trans (List.map_id' ts)

theorem Datum.fixed_list {α : Type} {xs : List α} {d : α → Datum} (h : ∀ x ∈ xs, (d x).term.Fixed) :
    (list (xs.map d)).term.Fixed := by
  have hterms : terms (xs.map d) = xs.map fun x => (d x).term := by
    clear h
    induction xs with
    | nil => rfl
    | cons x xs ih => rw [List.map_cons, terms, ih, List.map_cons]
  rw [term, hterms]
  exact Term.fixed_ofList (List.forall_mem_map.mpr h)

theorem Datum.fixed_ofTexts (texts : List Text) : (ofTexts texts).term.Fixed :=
  fixed_list fun _ _ => Term.fixed_ofValue rfl

theorem ContentSelector.fixed_datum (s : ContentSelector) : s.datum.term.Fixed :=
  Datum.fixed_list fun _ _ => Datum.fixed_list fun entry _ => by
    cases entry <;> exact Term.fixed_ofValue rfl

/-! ### Binding names -/

namespace Compile

variable {L : Lexicon} {s s' : Assembly}

theorem bindName_cases {name : Text} {e : ScopeEntry}
    (h : outcome (bindName name e) s = (.ok ⟨⟩, s')) :
    ∃ scopes, s.scopes.bind s.unit.scope name e = .ok scopes ∧ s' = { s with scopes } := by
  unfold bindName at h
  rw [outcome_bind, outcome_get] at h
  dsimp only at h
  split at h
  · next scopes hscopes =>
      cases h
      exact ⟨scopes, hscopes, rfl⟩
  · cases h

/-- A fresh name is bound. -/
theorem bind_advances (hL : L.Ready s) (stem : Text) {name : Text} {e : ScopeEntry} {scopes : ScopeTree}
    (hpending : e.declared = false) (hvar : e.var = stem ++ L.nextVar)
    (h : s.scopes.freshName.2.bind L.id name e = .ok scopes) {u : TemplateUnit}
    (hu : u.scope = s.unit.scope) : Advances L s (L.bind name e) { s with scopes, unit := u } := by
  obtain ⟨hshown, hextends⟩ := hL.holds.shown.bind hpending hvar h
  exact ⟨⟨⟨hshown, hL.holds.sound⟩, hu.trans hL.scope⟩, rfl, rfl, rfl, hextends, .refl _⟩

/-- The references of an element are bound in slots of their own. -/
theorem bindReferences_loop {refs : List Named} : ∀ {L : Lexicon} {s : Assembly}, L.Ready s →
    outcome (refs.forM fun r => do
      let slot ← allocateSlot
      let var ← freshName
      bindName r.name { var, value := some (Instruction.load.call [.ofNat slot]), owned := true }) s =
        (.ok ⟨⟩, s') →
    Advances L s (L.addReferences s.unit.slots refs) s' ∧ s'.unit = s.unit.take refs.length ∧
      s'.pool = s.pool := by
  induction refs with
  | nil =>
      intro L s hL h
      cases h
      exact ⟨.refl hL, rfl, rfl⟩
  | cons r rs ih =>
      intro L s hL h
      obtain ⟨s₁, hr, hrs⟩ := outcome_forM_cons.mp h
      obtain ⟨scopes, hbind, rfl⟩ := bindName_cases
        (s := { s with unit := s.unit.take 1, scopes := s.scopes.freshName.2 }) hr
      replace hbind : s.scopes.freshName.2.bind s.unit.scope r.name
          { var := "_r" ++ Text.ofNat s.scopes.fresh
            value := some (Instruction.load.call [.ofNat s.unit.slots]), owned := true } =
          .ok scopes := hbind
      rw [hL.scope, hL.holds.shown.fresh] at hbind
      have hadv := bind_advances hL [] rfl rfl hbind (u := s.unit.take 1) rfl
      obtain ⟨hadv', hunit, hpool⟩ := ih hadv.ready hrs
      refine ⟨hadv.trans hadv', ?_, hpool⟩
      rw [hunit, TemplateUnit.take, TemplateUnit.take, TemplateUnit.take, List.length_cons, Nat.add_assoc,
        Nat.add_comm 1]

theorem bindVariables_advances {vars : List Named} : ∀ {L : Lexicon} {s : Assembly}, L.Ready s →
    outcome (bindVariables vars) s = (.ok ⟨⟩, s') →
    Advances L s (L.addVariables s.unit.parameter vars) s' ∧ s'.unit = s.unit := by
  induction vars with
  | nil =>
      intro L s hL h
      cases h
      exact ⟨.refl hL, rfl⟩
  | cons v vs ih =>
      intro L s hL h
      obtain ⟨s₁, hv, hvs⟩ := outcome_forM_cons.mp h
      obtain ⟨scopes, hbind, rfl⟩ := bindName_cases (s := { s with scopes := s.scopes.freshName.2 }) hv
      replace hbind : s.scopes.freshName.2.bind s.unit.scope v.name
          { var := v.name ++ ("_r" ++ Text.ofNat s.scopes.fresh)
            value := some (Lexicon.variableValue s.unit.parameter v) } = .ok scopes := hbind
      rw [hL.scope, hL.holds.shown.fresh] at hbind
      have hadv := bind_advances hL v.name rfl rfl hbind (u := s.unit) rfl
      obtain ⟨hadv', hunit⟩ := ih hadv.ready hvs
      exact ⟨hadv.trans hadv', hunit⟩

/-! ### Loops -/

/-- Items of a list that leave the names alone are compiled one after the other. -/
theorem forM_steps {α : Type} {settings : TemplateSettings} {p : α → Compile PUnit} {i : α → Item}
    {a : Nat} (hp : ∀ {x s s'}, L.Ready s → outcome (p x) s = (.ok ⟨⟩, s') → Advances L s L s' ∧
      ∀ f, s'.Later L.ids f → ItemCode settings f (i x) ⟨L, s.unit, a⟩ ⟨L, s'.unit, a⟩) {xs : List α} :
    ∀ {s s' : Assembly}, L.Ready s → outcome (xs.forM p) s = (.ok ⟨⟩, s') → Advances L s L s' ∧
      ∀ f, s'.Later L.ids f → Steps settings f (xs.map i) ⟨L, s.unit, a⟩ ⟨L, s'.unit, a⟩ := by
  induction xs with
  | nil =>
      intro s s' hL h
      cases h
      exact ⟨.refl hL, fun f _ => .nil⟩
  | cons x xs ih =>
      intro s s' hL h
      obtain ⟨s₁, hx, hxs⟩ := outcome_forM_cons.mp h
      obtain ⟨hadv, hcode⟩ := hp hL hx
      obtain ⟨hadv', hcodes⟩ := ih hadv.ready hxs
      refine ⟨hadv.trans hadv', fun f hf => .cons (.item (hcode f ?_)) (hcodes f hf)⟩
      exact hadv'.later.trans hf

/-! ### Elements -/

variable {cx : Setting}

theorem matchDirectives_cases {name : Text} {parts : Parts}
    (h : outcome (matchDirectives cx name parts) s = (.ok ⟨⟩, s')) :
    ∃ directives, s' = { s with directives } := by
  unfold matchDirectives at h
  split at h
  · cases h
    exact ⟨s.directives, rfl⟩
  · next matcher _ =>
      generalize matcher.values name (matchedAttrs parts) = types at h
      induction types generalizing s with
      | nil =>
          cases h
          exact ⟨_, rfl⟩
      | cons t ts ih =>
          obtain ⟨s₁, ht, hts⟩ := outcome_forM_cons.mp h
          cases ht
          obtain ⟨directives, rfl⟩ := ih hts
          exact ⟨directives, rfl⟩

theorem sharedArray_constant {entries : List Term} (hentries : ∀ t ∈ entries, ∃ v, t = .ofValue v)
    {t : Term} (hs : s.pool.Sound) (h : outcome (sharedArray entries) s = (.ok t, s')) :
    s' = { s with pool := s'.pool } ∧ s'.pool.Sound ∧ s.pool.le s'.pool ∧ s'.pool.Constant t := by
  have hvalue : ∀ v, s.pool.Constant (.ofValue v) := fun v => ⟨rfl, trivial⟩
  unfold sharedArray at h
  split at h
  · cases h
    exact ⟨rfl, hs, .refl _, hvalue .null⟩
  · obtain ⟨pool, hrun, rfl⟩ := outcome_onPool_ok.mp h
    have hconstant : s.pool.Constant (.ofList entries) := by
      refine Pool.Constant.ofList fun t ht => ?_
      obtain ⟨v, rfl⟩ := hentries t ht
      exact hvalue v
    obtain ⟨hs', hle, ht⟩ := hs.literal hconstant (outcome_shared_ok.mp hrun)
    exact ⟨rfl, hs', hle, ht⟩

theorem literals_values (texts : List Text) : ∀ t ∈ literals texts, ∃ v, t = Term.ofValue v := by
  intro t ht
  obtain ⟨text, -, rfl⟩ := List.mem_map.mp ht
  exact ⟨_, rfl⟩

theorem selectOnly_values (parts : Parts) : ∀ t ∈ selectOnly parts, ∃ v, t = Term.ofValue v := by
  unfold selectOnly
  dsimp only
  split
  · exact List.forall_mem_nil _
  · exact List.forall_mem_cons.mpr ⟨⟨_, rfl⟩, literals_values _⟩

/-- The references of an element are bound, and listed in a constant. -/
theorem bindReferences_code {refs : List Named} {t : Term} (hL : L.Ready s)
    (h : outcome (bindReferences refs) s = (.ok t, s')) :
    Advances L s (L.addReferences s.unit.slots refs) s' ∧ s'.unit = s.unit.take refs.length ∧
      s'.pool.Constant t := by
  obtain ⟨_, s₁, hloop, h⟩ := outcome_bind_ok.mp h
  obtain ⟨hadv, hunit, hpool⟩ := bindReferences_loop hL hloop
  obtain ⟨hs', hsound, hle, ht⟩ := sharedArray_constant (literals_values _) hadv.ready.holds.sound h
  refine ⟨hadv.trans (.of_pool hadv.ready ?_ ?_ hsound hle), ?_, ht⟩
  · rw [hs']
  · rw [hs']
  · rw [hs']
    exact hunit

theorem mem_trimNulls {t : Term} {args : List Term} (h : t ∈ trimNulls args) : t ∈ args := by
  unfold trimNulls at h
  rw [List.mem_reverse] at h
  exact List.mem_reverse.mp ((List.dropWhile_sublist _).subset h)

/-- The first arguments stay if the last of them is not null. -/
theorem trimNulls_append (front : List Term) {t : Term} (rest : List Term) (h : isNullLiteral t = false) :
    trimNulls (front ++ [t] ++ rest) = front ++ [t] ++ trimNulls rest := by
  unfold trimNulls
  rw [List.reverse_append, List.dropWhile_append]
  split
  · next hrest =>
      rw [List.reverse_append, List.reverse_singleton, List.singleton_append, List.dropWhile_cons, h]
      simp_all
  · rw [List.reverse_append, List.reverse_reverse]

theorem switchSpace_cases {key : Text} {span : Option SourceSpan}
    (h : outcome (switchSpace key span) s = (.ok ⟨⟩, s')) :
    ∃ space switch, s' = { s with unit := ({ s.unit with space }).created switch } ∧
      (switch = [] ∨ space ∈ [.namespaceHtml, .namespaceMath, .namespaceSvg] ∧
        switch = [space.stmt [] span]) := by
  have hspace : spaceOf key ∈ [.namespaceHtml, .namespaceMath, .namespaceSvg] := by
    unfold spaceOf
    split
    · decide
    · split <;> decide
  unfold switchSpace at h
  rw [outcome_bind, outcome_get] at h
  dsimp only at h
  split at h
  · cases h
    exact ⟨spaceOf key, _, rfl, .inr ⟨hspace, rfl⟩⟩
  · cases h
    refine ⟨s.unit.space, [], ?_, .inl rfl⟩
    rw [TemplateUnit.created, List.append_nil]

theorem listen_code (settings : TemplateSettings) {element : Text} {o : Output} {a : Nat}
    (hL : L.Ready s) (h : outcome (listen element o) s = (.ok ⟨⟩, s')) :
    Advances L s L s' ∧ ∀ f, s'.Later L.ids f →
      ItemCode settings f (.output o) ⟨L, s.unit, a⟩ ⟨L, s'.unit, a⟩ := by
  unfold listen at h
  rw [outcome_locating_ok] at h
  dsimp only at h
  by_cases hphase : (!o.phase.isEmpty) = true
  · rw [if_pos hphase] at h
    cases h
  · rw [if_neg hphase] at h
    obtain ⟨s₀, s₁, hget, h⟩ := outcome_bind_ok.mp h
    cases hget
    obtain ⟨fn, s₂, hhandler, h⟩ := outcome_bind_ok.mp h
    obtain ⟨id, count, ts, hunit, hadv, hcode⟩ := handler_code hL hhandler
    cases h
    refine ⟨hadv.trans (.of_unit hadv.ready rfl rfl rfl), fun f hf => ?_⟩
    rw [← hunit]
    exact .output (hcode f ⟨hf.scopes, hf.pool⟩)

/-- An input becomes an instruction for the element in a slot. -/
theorem bindInput_code {slot : Nat} {i : Input} (hL : L.Ready s)
    (h : outcome (bindInput cx slot i) s = (.ok ⟨⟩, s')) :
    Advances L s L s' ∧ ∀ f, s'.Later L.ids f →
      ItemCode cx.settings f (.input i) ⟨L, s.unit, slot⟩ ⟨L, s'.unit, slot⟩ := by
  unfold bindInput at h
  rw [outcome_locating_ok] at h
  obtain ⟨instruction, s₁, hinstruction, h⟩ := outcome_bind_ok.mp h
  obtain ⟨hinstruction, rfl⟩ := outcome_liftM_ok.mp hinstruction
  obtain ⟨t, s₂, hvalue, h⟩ := outcome_bind_ok.mp h
  obtain ⟨v, rfl, hunit, hadv, hcode⟩ := boundValue_code hL hvalue
  cases h
  have hmem : instruction ∈ [.elementProperty, .elementAttr, .elementClass, .elementStyle] := by
    unfold inputInstruction at hinstruction
    split at hinstruction <;> cases hinstruction <;> decide
  refine ⟨hadv.trans (.of_unit hadv.ready rfl rfl rfl), fun f hf => ?_⟩
  generalize hrest : (if i.type == .style && !i.unit.isEmpty then [Term.ofText i.unit] else []) = rest
  have htexts : ∀ t ∈ rest, ∃ text, t = Term.ofText text := by
    subst hrest
    split
    · exact List.forall_mem_singleton.mpr ⟨_, rfl⟩
    · exact List.forall_mem_nil _
  have hitem : ItemCode cx.settings f (.input i) ⟨L, s.unit, slot⟩ ⟨L, (s.unit.evaluated v).updated
      [instruction.stmt ([.ofNat slot, .ofText i.name, v.passed s.unit.bindings] ++ rest) i.span], slot⟩ :=
    .input hmem (hcode f ⟨hf.scopes, hf.pool⟩) htexts
  rw [← hunit] at hitem
  exact hitem

/-- The listeners and bindings of an element or container. -/
theorem parts_steps {element : Text} {parts : Parts} {slot : Nat} (hL : L.Ready s) {s₁ : Assembly}
    (ho : outcome (parts.outputs.forM (listen element)) s = (.ok ⟨⟩, s₁))
    (hi : outcome (parts.inputs.forM (bindInput cx slot)) s₁ = (.ok ⟨⟩, s')) :
    Advances L s L s' ∧ ∀ f, s'.Later L.ids f →
      Steps cx.settings f parts.items ⟨L, s.unit, slot⟩ ⟨L, s'.unit, slot⟩ := by
  obtain ⟨hadv, houtputs⟩ := forM_steps (a := slot) (listen_code cx.settings) hL ho
  obtain ⟨hadv', hinputs⟩ := forM_steps bindInput_code hadv.ready hi
  exact ⟨hadv.trans hadv', fun f hf => (houtputs f (hadv'.later.trans hf)).append (hinputs f hf)⟩

/-- What elements and containers start with: a slot, attributes, and references. -/
theorem anchor_advances {name : Text} {parts : Parts} {entries : List Term} {attrs refs : Term}
    (hL : L.Ready s) {s₁ s₂ : Assembly} (hentries : ∀ t ∈ entries, ∃ v, t = .ofValue v)
    (hmatch : outcome (matchDirectives cx name parts) { s with unit := s.unit.take 1 } = (.ok ⟨⟩, s₁))
    (hattrs : outcome (sharedArray entries) s₁ = (.ok attrs, s₂))
    (hrefs : outcome (bindReferences parts.refs) s₂ = (.ok refs, s')) :
    Advances L s (L.addReferences (s.unit.slots + 1) parts.refs) s' ∧
      s'.unit = s.unit.take (1 + parts.refs.length) ∧ s'.pool.Constant attrs ∧ s'.pool.Constant refs := by
  obtain ⟨directives, rfl⟩ := matchDirectives_cases hmatch
  have hL₁ : Advances L s L { s with unit := s.unit.take 1, directives } := .of_unit hL rfl rfl rfl
  obtain ⟨hs₂, hsound, hle, hattrs⟩ := sharedArray_constant hentries hL₁.ready.holds.sound hattrs
  have hL₂ : Advances L s L s₂ := by
    refine hL₁.trans (.of_pool hL₁.ready ?_ ?_ hsound hle) <;> rw [hs₂]
  have hunit : s₂.unit = s.unit.take 1 := by rw [hs₂]
  obtain ⟨hadv, hunit', hrefs⟩ := bindReferences_code hL₂.ready hrefs
  rw [hunit] at hadv hunit'
  refine ⟨hL₂.trans hadv, ?_, hattrs.mono hadv.later.pool, hrefs⟩
  rw [hunit', TemplateUnit.take, TemplateUnit.take, TemplateUnit.take, Nat.add_assoc]

/-- An element may change the namespace. -/
theorem switch_cases {α : Type} {p : Compile α} {form : ElementForm} {key : Text}
    {span : Option SourceSpan} {x : α}
    (h : outcome (if form ≠ .container then switchSpace key span >>= fun _ => p else p) s = (.ok x, s')) :
    ∃ space switch, (switch = [] ∨ space ∈ [.namespaceHtml, .namespaceMath, .namespaceSvg] ∧
        switch = [space.stmt [] span]) ∧
      outcome p { s with unit := ({ s.unit with space }).created switch } = (.ok x, s') := by
  split at h
  · obtain ⟨_, s₁, hspace, h⟩ := outcome_bind_ok.mp h
    obtain ⟨space, switch, rfl, hswitch⟩ := switchSpace_cases hspace
    exact ⟨space, switch, hswitch, h⟩
  · refine ⟨s.unit.space, [], .inl rfl, ?_⟩
    rw [TemplateUnit.created, List.append_nil]
    exact h

theorem startElement_steps {span : Option SourceSpan} {name : Text} {parts : Parts} {childless : Bool}
    {form : ElementForm} (hL : L.Ready s)
    (h : outcome (startElement cx span name parts childless) s = (.ok form, s')) :
    ∃ L', Advances L s L' s' ∧ ∀ f, s'.Later L.ids f → ∀ a, Steps cx.settings f
      (.element parts.refs :: parts.items) ⟨L, s.unit, a⟩ ⟨L', s'.unit, s.unit.slots⟩ := by
  unfold startElement at h
  obtain ⟨slot, s₁, hslot, h⟩ := outcome_bind_ok.mp h
  cases hslot
  obtain ⟨⟨space, element⟩, s₂, hsplit, h⟩ := outcome_bind_ok.mp h
  obtain ⟨-, rfl⟩ := outcome_liftM_ok.mp hsplit
  dsimp only at h
  obtain ⟨_, s₂, hmatch, h⟩ := outcome_bind_ok.mp h
  obtain ⟨attrs, s₃, hattrs, h⟩ := outcome_bind_ok.mp h
  obtain ⟨refs, s₄, hrefs, h⟩ := outcome_bind_ok.mp h
  obtain ⟨hL₄, hunit₄, hattrs, hrefs⟩ := anchor_advances hL
    (fun t ht => (List.mem_append.mp ht).elim (literals_values _ t) (selectOnly_values _ t))
    hmatch hattrs hrefs
  obtain ⟨space, switch, hswitch, h⟩ := switch_cases h
  obtain ⟨_, s₅, hcreate, h⟩ := outcome_bind_ok.mp h
  obtain ⟨_, s₆, houtputs, h⟩ := outcome_bind_ok.mp h
  obtain ⟨_, s₇, hinputs, h⟩ := outcome_bind_ok.mp h
  cases h
  generalize elementForm _ element parts childless = form at hcreate
  generalize htag : (if form = .container then ([] : List Term) else [.ofText element]) = tag at hcreate
  have hargs : ∀ t ∈ tag ++ [attrs, refs], s₄.pool.Constant t := by
    intro t ht
    simp only [List.mem_append, List.mem_cons, List.not_mem_nil, or_false] at ht
    rcases ht with ht | rfl | rfl
    · subst htag
      split at ht
      · cases ht
      · rw [List.mem_singleton.mp ht]
        exact ⟨rfl, trivial⟩
    · exact hattrs
    · exact hrefs
  have htrim := trimNulls_append [] (t := .ofNat s.unit.slots) (tag ++ [attrs, refs]) rfl
  have hs₅ : s₅ = { s₄ with
      unit := (({ s.unit with space }).take (1 + parts.refs.length)).created (switch ++
        [form.start.stmt (.ofNat s.unit.slots :: trimNulls (tag ++ [attrs, refs])) span]) } := by
    cases hcreate
    simp only [TemplateUnit.created, hunit₄, List.append_assoc]
    rw [List.cons_append, show trimNulls (.ofNat s.unit.slots :: (tag ++ [attrs, refs])) = _ from htrim]
    rfl
  have hL₅ : Advances L s (L.addReferences (s.unit.slots + 1) parts.refs) s₅ := by
    refine hL₄.trans (.of_unit hL₄.ready ?_ ?_ ?_) <;> rw [hs₅]
    rw [hunit₄]
    rfl
  obtain ⟨hadv, hparts⟩ := parts_steps hL₅.ready houtputs hinputs
  refine ⟨_, hL₅.trans hadv, fun f hf a => ?_⟩
  rw [← hL₅.ids] at hf
  have hle : s₅.pool.le f.pool := (hadv.later.trans hf).pool
  refine .cons (.item ?_) (hparts f hf)
  rw [hs₅] at hle ⊢
  refine .element ?_ hswitch fun t ht => (hargs t (mem_trimNulls ht)).mono hle
  cases form <;> decide

/-! ### Texts and content -/

theorem compileBoundText_code {span : Option SourceSpan} {e : Expr} {a : Nat} (hL : L.Ready s)
    (h : outcome (compileBoundText cx span e) s = (.ok ⟨⟩, s')) :
    Advances L s L s' ∧ ∀ f, s'.Later L.ids f →
      ItemCode cx.settings f (.boundText e) ⟨L, s.unit, a⟩ ⟨L, s'.unit, a⟩ := by
  unfold compileBoundText at h
  rw [outcome_locating_ok] at h
  obtain ⟨slot, s₁, hslot, h⟩ := outcome_bind_ok.mp h
  cases hslot
  obtain ⟨_, s₁, hcreate, h⟩ := outcome_bind_ok.mp h
  let u₁ := (s.unit.take 1).created [Instruction.text.stmt [.ofNat s.unit.slots] span]
  obtain rfl : { s with unit := u₁ } = s₁ := by
    cases hcreate
    rfl
  obtain ⟨t, s₂, hvalue, h⟩ := outcome_bind_ok.mp h
  have hL₁ : Advances L s L { s with unit := u₁ } := .of_unit hL rfl rfl rfl
  obtain ⟨v, rfl, hunit, hadv, hcode⟩ := boundValue_code hL₁.ready hvalue
  cases h
  refine ⟨(hL₁.trans hadv).trans (.of_unit hadv.ready rfl rfl rfl), fun f hf => ?_⟩
  have hitem : ItemCode cx.settings f (.boundText e) ⟨L, s.unit, a⟩ ⟨L, (u₁.evaluated v).updated
      [Instruction.textBinding.stmt [.ofNat s.unit.slots, v.passed s.unit.bindings] span], a⟩ :=
    .boundText rfl (hcode f ⟨hf.scopes, hf.pool⟩)
  rw [← hunit] at hitem
  exact hitem

theorem compileContent_code {span : Option SourceSpan} {selector : Text} {attrs : List Named} {a : Nat}
    (hL : L.Ready s) (h : outcome (compileContent cx span selector attrs) s = (.ok ⟨⟩, s')) :
    Advances L s L s' ∧ ∀ f, s'.Later L.ids f →
      ItemCode cx.settings f .leaf ⟨L, s.unit, a⟩ ⟨L, s'.unit, a⟩ := by
  cases h
  refine ⟨.of_unit hL rfl rfl rfl, fun f _ => .leaf (.inr rfl) ?_⟩
  have hnat : ∀ n : Nat, f.pool.Constant (.ofNat n) := fun n => ⟨rfl, trivial⟩
  split
  · refine List.forall_mem_cons.mpr ⟨hnat _, List.forall_mem_singleton.mpr ?_⟩
    refine Pool.Constant.ofList fun t ht => ?_
    obtain ⟨v, rfl⟩ := literals_values _ t ht
    exact ⟨rfl, trivial⟩
  · split
    · exact List.forall_mem_singleton.mpr (hnat _)
    · exact List.forall_mem_nil _

/-! ### Templates -/

/-- The start of a template, up to its own unit. -/
theorem startTemplate_steps {span : Option SourceSpan} {tag : Text} {parts : Parts}
    {children : List Node} {outer : TemplateUnit} (hL : L.Ready s)
    (h : outcome (startTemplate cx span tag parts children) s = (.ok outer, s')) :
    ∃ L₁ s₁, Advances L s L₁ s₁ ∧
      (∀ f, s₁.Later L.ids f → ∀ a, Steps cx.settings f
        (.container parts.refs (Node.only children) :: parts.items) ⟨L, s.unit, a⟩
          ⟨L₁, s₁.unit, s.unit.slots⟩) ∧
      outer = s₁.unit ∧ s' = { s₁ with
        scopes := (s₁.scopes.nest L₁.id false).2
        unit := s₁.unit.inner (Node.only children) s.unit.slots s₁.scopes.scopes.length } := by
  unfold startTemplate at h
  obtain ⟨slot, s₁, hslot, h⟩ := outcome_bind_ok.mp h
  cases hslot
  obtain ⟨element, s₂, hlift, h⟩ := outcome_bind_ok.mp h
  obtain ⟨honly, rfl⟩ := outcome_liftM_ok.mp hlift
  obtain rfl : Node.only children = element := by rw [Node.only, honly]; rfl
  obtain ⟨s₀, s₁, hget, h⟩ := outcome_bind_ok.mp h
  cases hget
  dsimp only at h
  obtain ⟨_, s₁, hmatch, h⟩ := outcome_bind_ok.mp h
  obtain ⟨attrs, s₂, hattrs, h⟩ := outcome_bind_ok.mp h
  obtain ⟨refs, s₃, hrefs, h⟩ := outcome_bind_ok.mp h
  obtain ⟨hL₃, hunit₃, hattrs, hrefs⟩ := anchor_advances hL (literals_values _) hmatch hattrs hrefs
  obtain ⟨_, s₄, hcreate, h⟩ := outcome_bind_ok.mp h
  obtain ⟨_, s₅, houtputs, h⟩ := outcome_bind_ok.mp h
  obtain ⟨_, s₆, hinputs, h⟩ := outcome_bind_ok.mp h
  obtain ⟨s₀, s₇, hget, h⟩ := outcome_bind_ok.mp h
  cases hget
  let only := Node.only children
  let name : Term := .ofVar (s.unit.innerName only s.unit.slots)
  obtain ⟨tag, htag, hcreate⟩ : ∃ tag : Term, (∃ v, tag = .ofValue v) ∧
      outcome (create .container (trimNulls [.ofNat s.unit.slots, name, tag, attrs, refs]) span) s₃ =
        (.ok ⟨⟩, s₄) := by
    refine ⟨_, ?_, hcreate⟩
    split <;> exact ⟨_, rfl⟩
  have hargs : ∀ t ∈ [tag, attrs, refs], s₃.pool.Constant t := by
    obtain ⟨v, rfl⟩ := htag
    simp only [List.forall_mem_cons]
    exact ⟨⟨rfl, trivial⟩, hattrs, hrefs, List.forall_mem_nil _⟩
  have htrim := trimNulls_append [.ofNat s.unit.slots] (t := name) [tag, attrs, refs] rfl
  have hs₄ : s₄ = { s₃ with
      unit := (s.unit.take (1 + parts.refs.length)).created [Instruction.container.stmt
        (.ofNat s.unit.slots :: name :: trimNulls [tag, attrs, refs]) span] } := by
    cases hcreate
    simp only [hunit₃]
    rw [show trimNulls [.ofNat s.unit.slots, name, tag, attrs, refs] = _ from htrim]
    rfl
  have hL₄ : Advances L s (L.addReferences (s.unit.slots + 1) parts.refs) s₄ := by
    refine hL₃.trans (.of_unit hL₃.ready ?_ ?_ ?_) <;> rw [hs₄]
    rw [hunit₃]
    rfl
  obtain ⟨hadv, hparts⟩ := parts_steps hL₄.ready houtputs hinputs
  have hsteps : ∀ f, s₆.Later L.ids f → ∀ a, Steps cx.settings f (.container parts.refs only :: parts.items)
      ⟨L, s.unit, a⟩ ⟨L.addReferences (s.unit.slots + 1) parts.refs, s₆.unit, s.unit.slots⟩ := by
    intro f hf a
    rw [← hL₄.ids] at hf
    have hle : s₄.pool.le f.pool := (hadv.later.trans hf).pool
    refine .cons (.item ?_) (hparts f hf)
    rw [hs₄] at hle ⊢
    exact .container fun t ht => (hargs t (mem_trimNulls ht)).mono hle
  have hblank : s₆.unit.blank = s.unit.blank := (hsteps s₆ (.refl _ _) 0).blank_eq
  refine ⟨_, s₆, hL₄.trans hadv, hsteps, ?_⟩
  cases h
  refine ⟨rfl, ?_⟩
  have hinner : s₆.unit.inner only s.unit.slots s₆.scopes.scopes.length =
      { level := s₆.unit.level + 1, parameter := contextName ++ Text.ofNat s₆.unit.level
        path := s.unit.innerPath only, functionName := s.unit.innerName only s.unit.slots
        scope := s₆.scopes.scopes.length } := by
    have hpath := congrArg TemplateUnit.path hblank
    change s₆.unit.path = s.unit.path at hpath
    unfold TemplateUnit.inner TemplateUnit.innerName TemplateUnit.innerFront TemplateUnit.innerPath
    rw [hpath]
    rfl
  rw [hinner, ← (hL₄.trans hadv).ready.scope]
  rfl

/-- A nested template becomes a function of its own. -/
theorem nested_step {settings : TemplateSettings} {only : Text} {vars : List Named} {items : List Item}
    {slot : Nat} (hL : L.Ready s) {s₁ s₂ s₃ : Assembly}
    (hs₁ : s₁ = { s with
      scopes := (s.scopes.nest L.id false).2
      unit := s.unit.inner only slot s.scopes.scopes.length })
    (hvars : outcome (bindVariables vars) s₁ = (.ok ⟨⟩, s₂))
    (hchildren : ∀ {L : Lexicon}, L.Ready s₂ → ∃ L' a', Advances L s₂ L' s₃ ∧ ∀ f, s₃.Later L.ids f →
      Steps settings f items ⟨L, s₂.unit, 0⟩ ⟨L', s₃.unit, a'⟩)
    (hend : outcome (endTemplate s.unit) s₃ = (.ok ⟨⟩, s')) :
    ∃ L', Advances L s L' s' ∧ ∀ f, s'.Later L.ids f →
      Step settings f (.nested only vars items) ⟨L, s.unit, slot⟩ ⟨L', s'.unit, slot⟩ := by
  let id := s.scopes.scopes.length
  have hL₁ : (L.enter id).Ready s₁ := by
    rw [hs₁]
    exact ⟨⟨hL.holds.shown.enter, hL.holds.sound⟩, rfl⟩
  obtain ⟨hadv₂, hunit₂⟩ := bindVariables_advances hL₁ hvars
  obtain ⟨L₃, a₃, hadv₃, hsteps⟩ := hchildren hadv₂.ready
  have hadv := hadv₂.trans hadv₃
  cases hend
  have hid : id ∉ L.ids := fun hmem =>
    Nat.lt_irrefl id (hL.holds.shown.shows.lt_length id hmem)
  have hlater : s.Later L.ids s₃ := by
    have hopen := hadv.later
    rw [hs₁] at hopen
    exact ⟨(ScopeTree.extends_nest L.id L.ids s.scopes).leave (Nat.le_refl id) hopen.scopes, hopen.pool⟩
  refine ⟨L₃.leave L, ⟨⟨⟨?_, hadv.ready.holds.sound⟩, hL.scope⟩, rfl, rfl, rfl,
    hlater.scopes, hlater.pool⟩, fun f hf => ?_⟩
  · exact hadv.ready.holds.shown.leave hadv.outerIds hadv.outer hL.holds.shown.nested
  · replace hf : s₃.Later L.ids f := ⟨hf.scopes, hf.pool⟩
    have hopen : s₃.Later (L.enter id).ids f := hf.mono (List.subset_cons_self _ _)
    rw [← hadv₂.ids] at hopen
    have hinner := hsteps f hopen
    have hid₃ : L₃.id = id := hadv.id
    have hsettled : L₃.Settled f := hadv.ready.holds.settled hf (by rw [hid₃]; exact hid)
    rw [hunit₂, hs₁] at hinner
    have hscope : s₃.unit.scope = id := hadv.ready.scope.trans hid₃
    have hlt : id < s₃.scopes.scopes.length := by
      rw [← hid₃]
      exact hadv.ready.holds.shown.shows.lt_length L₃.id List.mem_cons_self
    have hdeclarations : s₃.scopes.declarations s₃.unit.scope = f.scopes.declarations id := by
      unfold ScopeTree.declarations
      rw [hscope, hf.scopes.frozen id hlt hid]
    have hfunction : s₃.unit.function [] (f.scopes.declarations id) =
        s₃.unit.function [] (s₃.scopes.declarations s₃.unit.scope) := by rw [hdeclarations]
    have hstep := Step.nested hinner hsettled
    rw [hfunction] at hstep
    exact hstep

mutual

/-- A node that compiles goes through its items. -/
theorem compileNode_steps : ∀ (n : Node) {L : Lexicon} {s s' : Assembly} (a : Nat), L.Ready s →
    outcome (compileNode cx n) s = (.ok ⟨⟩, s') → ∃ L' a', Advances L s L' s' ∧
      ∀ f, s'.Later L.ids f → Steps cx.settings f n.items ⟨L, s.unit, a⟩ ⟨L', s'.unit, a'⟩
  | .text span value, L, s, s', a, hL, h => by
    cases h
    refine ⟨L, a, .of_unit hL rfl rfl rfl, fun f _ => .one (.leaf (.inl ⟨rfl, List.cons_ne_nil _ _⟩) ?_)⟩
    exact List.forall_mem_singleton.mpr ⟨rfl, trivial⟩
  | .boundText span e, L, s, s', a, hL, h => by
    rw [compileNode] at h
    obtain ⟨hadv, hcode⟩ := compileBoundText_code (a := a) hL h
    exact ⟨L, a, hadv, fun f hf => .one (hcode f hf)⟩
  | .content span selector attrs, L, s, s', a, hL, h => by
    rw [compileNode] at h
    obtain ⟨hadv, hcode⟩ := compileContent_code (a := a) hL h
    exact ⟨L, a, hadv, fun f hf => .one (hcode f hf)⟩
  | .misplaced part, L, s, s', a, hL, h => by
    cases h
  | .element span name parts children, L, s, s', a, hL, h => by
    rw [compileNode] at h
    obtain ⟨form, s₁, hstart, h⟩ := outcome_bind_ok.mp h
    obtain ⟨_, s₂, hchildren, h⟩ := outcome_bind_ok.mp h
    obtain ⟨L₁, hadv₁, hsteps₁⟩ := startElement_steps hL hstart
    obtain ⟨L₂, a₂, hadv₂, hsteps₂⟩ := compileNodes_steps children s.unit.slots hadv₁.ready hchildren
    have hmark : Advances L₂ s₂ L₂ s' ∧
        ∀ f, ItemCode cx.settings f .mark ⟨L₂, s₂.unit, a₂⟩ ⟨L₂, s'.unit, a₂⟩ := by
      cases form with
      | closed =>
          cases h
          exact ⟨.refl hadv₂.ready, fun f => .none⟩
      | opened | container =>
          cases h
          exact ⟨.of_unit hadv₂.ready rfl rfl rfl, fun f => .mark (by decide) fun t ht => nomatch ht⟩
    refine ⟨L₂, a₂, (hadv₁.trans hadv₂).trans hmark.1, fun f hf => ?_⟩
    have hf₂ : s₂.Later L.ids f := by
      have := hmark.1.later
      rw [(hadv₁.trans hadv₂).ids] at this
      exact this.trans hf
    have hf₁ : s₁.Later L.ids f := by
      have := hadv₂.later
      rw [hadv₁.ids] at this
      exact this.trans hf₂
    rw [Node.items]
    refine (hsteps₁ f hf₁ a).append (.append (hsteps₂ f ?_) (.one (hmark.2 f)))
    rw [hadv₁.ids]
    exact hf₂
  | .template span tag parts vars children, L, s, s', a, hL, h => by
    rw [compileNode] at h
    obtain ⟨outer, s₁, hstart, h⟩ := outcome_bind_ok.mp h
    obtain ⟨_, s₂, hvars, h⟩ := outcome_bind_ok.mp h
    obtain ⟨_, s₃, hchildren, h⟩ := outcome_bind_ok.mp h
    obtain ⟨L₀, s₀, hadv₀, hsteps₀, rfl, hs₁⟩ := startTemplate_steps hL hstart
    obtain ⟨L₁, hadv₁, hnested⟩ := nested_step hadv₀.ready hs₁ hvars
      (fun hL₂ => compileNodes_steps children 0 hL₂ hchildren) h
    refine ⟨L₁, s.unit.slots, hadv₀.trans hadv₁, fun f hf => ?_⟩
    rw [← hadv₀.ids] at hf
    rw [Node.items]
    refine (hsteps₀ f ?_ a).append (.cons (hnested f hf) .nil)
    rw [← hadv₀.ids]
    exact hadv₁.later.trans hf

/-- Nodes that compile go through their items. -/
theorem compileNodes_steps : ∀ (ns : List Node) {L : Lexicon} {s s' : Assembly} (a : Nat), L.Ready s →
    outcome (compileNodes cx ns) s = (.ok ⟨⟩, s') → ∃ L' a', Advances L s L' s' ∧
      ∀ f, s'.Later L.ids f → Steps cx.settings f (Node.itemsAll ns) ⟨L, s.unit, a⟩ ⟨L', s'.unit, a'⟩
  | [], L, s, s', a, hL, h => by
    cases h
    exact ⟨L, a, .refl hL, fun f _ => .nil⟩
  | n :: ns, L, s, s', a, hL, h => by
    rw [compileNodes] at h
    obtain ⟨_, s₁, hn, hns⟩ := outcome_bind_ok.mp h
    obtain ⟨L₁, a₁, hadv₁, hsteps₁⟩ := compileNode_steps n a hL hn
    obtain ⟨L₂, a₂, hadv₂, hsteps₂⟩ := compileNodes_steps ns a₁ hadv₁.ready hns
    refine ⟨L₂, a₂, hadv₁.trans hadv₂, fun f hf => ?_⟩
    rw [← hadv₁.ids] at hf
    rw [Node.itemsAll]
    refine (hsteps₁ f ?_).append (hsteps₂ f hf)
    rw [← hadv₁.ids]
    exact hadv₂.later.trans hf

end

/-! ### The root -/

theorem predicateCode_code {q : Query} {t : Term} {pool pool' : Pool} (hs : pool.Sound)
    (h : outcome q.predicateCode pool = (.ok t, pool')) :
    pool'.Sound ∧ pool.le pool' ∧ PredicateCode pool' q t := by
  unfold Query.predicateCode at h
  split at h
  · next texts _ =>
      have hconstant : pool.Constant (.ofList (Query.referenceNames texts)) := by
        refine Pool.Constant.ofList fun t ht => ?_
        obtain ⟨text, -, ht⟩ := List.mem_flatMap.mp ht
        obtain ⟨part, -, rfl⟩ := List.mem_map.mp ht
        exact ⟨rfl, trivial⟩
      obtain ⟨hs', hle, ht⟩ := hs.literal hconstant (outcome_shared_ok.mp h)
      exact ⟨hs', hle, .constant ht⟩
  · next t hpredicate =>
      cases h
      exact ⟨hs, .refl _, .type hpredicate⟩
  · next t hpredicate =>
      cases h
      exact ⟨hs, .refl _, .deferred hpredicate⟩
  · cases h

theorem creation_code {q : Query} {slot : Nat} {stmt : Stmt} {pool pool' : Pool} (hs : pool.Sound)
    (h : outcome (q.creation slot) pool = (.ok stmt, pool')) :
    pool'.Sound ∧ pool.le pool' ∧ ∃ t, stmt = q.created slot t ∧ PredicateCode pool' q t := by
  obtain ⟨t, pool₁, hpredicate, h⟩ := outcome_bind_ok.mp h
  cases h
  obtain ⟨hs', hle, ht⟩ := predicateCode_code hs hpredicate
  exact ⟨hs', hle, t, rfl, ht⟩

theorem addQuery_code (settings : TemplateSettings) {q : Query} {a : Nat} (hL : L.Ready s)
    (h : outcome (addQuery q) s = (.ok ⟨⟩, s')) :
    Advances L s L s' ∧ ∀ f, s'.Later L.ids f →
      ItemCode settings f (.query q) ⟨L, s.unit, a⟩ ⟨L, s'.unit, a⟩ := by
  obtain ⟨slot, s₁, hslot, h⟩ := outcome_bind_ok.mp h
  cases hslot
  obtain ⟨stmt, s₂, hcreation, h⟩ := outcome_bind_ok.mp h
  obtain ⟨pool, hrun, rfl⟩ := outcome_onPool_ok.mp hcreation
  obtain ⟨hsound, hle, t, rfl, ht⟩ := creation_code hL.holds.sound hrun
  cases h
  exact ⟨.of_pool hL rfl rfl hsound hle, fun f hf => .query (ht.mono hf.pool)⟩

/-- The arguments that announce selectors, and the pool afterwards. -/
inductive Announced (pool : Pool) (known : List ContentSelector) : List Term → Pool → Prop
  | none (hnone : known = []) : Announced pool known [] pool
  | arrays {parsed texts : Term} {pool₁ pool₂ : Pool} (hsome : known ≠ [])
      (hparsed : pool.literal (Datum.list (known.map ContentSelector.datum)).term true = .ok (parsed, pool₁))
      (htexts : pool₁.literal (Datum.ofTexts (known.map (·.text))).term true = .ok (texts, pool₂)) :
      Announced pool known [parsed, texts] pool₂

theorem announceContent_cases {any : Bool} {known : List ContentSelector}
    (h : outcome (announceContent any known) s = (.ok ⟨⟩, s')) :
    any = false ∧ s' = s ∨ any = true ∧ ∃ args pool, Announced s.pool known args pool ∧
      s' = { s with pool, unit := s.unit.created [Instruction.projectionDef.stmt args] } := by
  unfold announceContent at h
  split at h
  · next hany =>
      refine .inr ⟨hany, ?_⟩
      split at h
      · next hnone =>
          cases h
          exact ⟨[], _, .none (List.isEmpty_iff.mp hnone), rfl⟩
      · next hsome =>
          obtain ⟨parsed, s₁, hparsed, h⟩ := outcome_bind_ok.mp h
          obtain ⟨pool₁, hrun₁, rfl⟩ := outcome_onPool_ok.mp hparsed
          obtain ⟨texts, s₂, htexts, h⟩ := outcome_bind_ok.mp h
          obtain ⟨pool₂, hrun₂, rfl⟩ := outcome_onPool_ok.mp htexts
          cases h
          exact ⟨_, _, .arrays (hsome ∘ List.isEmpty_iff.mpr) (outcome_shared_ok.mp hrun₁)
            (outcome_shared_ok.mp hrun₂), rfl⟩
  · next hany =>
      cases h
      exact .inl ⟨Bool.eq_false_iff.mpr hany, rfl⟩

theorem announceContent_code (settings : TemplateSettings) {any : Bool}
    {selectors : List ContentSelector} {a : Nat} (hL : L.Ready s)
    (h : outcome (announceContent any selectors) s = (.ok ⟨⟩, s')) :
    Advances L s L s' ∧ ∀ f, s'.Later L.ids f →
      ItemCode settings f .mark ⟨L, s.unit, a⟩ ⟨L, s'.unit, a⟩ := by
  rcases announceContent_cases h with ⟨-, rfl⟩ | ⟨-, args, pool, hannounced, rfl⟩
  · exact ⟨.refl hL, fun f _ => .none⟩
  · cases hannounced with
    | none => exact ⟨.of_unit hL rfl rfl rfl, fun f _ => .mark (by decide) fun t ht => nomatch ht⟩
    | @arrays parsed texts pool₁ pool₂ _ hparsed htexts =>
        have hforms := Datum.fixed_list fun s (_ : s ∈ selectors) => s.fixed_datum
        obtain ⟨hs₁, hle₁, hparsed⟩ := hL.holds.sound.literal (hforms.constant _) hparsed
        obtain ⟨hs₂, hle₂, htexts⟩ := hs₁.literal ((Datum.fixed_ofTexts _).constant _) htexts
        refine ⟨.of_pool hL rfl rfl hs₂ (hle₁.trans hle₂), fun f hf => .mark (by decide) ?_⟩
        simp only [List.forall_mem_cons]
        exact ⟨(hparsed.mono hle₂).mono hf.pool, htexts.mono hf.pool, fun t ht => nomatch ht⟩

end Compile

def Lexicon.root : Lexicon where
  id := 1
  outerIds := [0]
  outer := [[(eventName, { var := eventName })]]
  fresh := 0

theorem Lexicon.Shown.declared_zero {L : Lexicon} {t : ScopeTree} (h : L.Shown t)
    (hids : L.outerIds = Lexicon.root.outerIds) (houter : L.outer = Lexicon.root.outer) :
    t.declared 0 = [] := by
  have hshows := h.shows
  rw [ids, env, hids, houter] at hshows
  obtain ⟨s, hs, -, -, hshows⟩ := hshows.2.2.1
  rw [ScopeTree.declared, hs]
  refine List.eq_nil_iff_forall_not_mem.mpr fun d hd => ?_
  obtain ⟨name, e, he, -, hvalue, -⟩ := hshows.declarations d.1 d.2 hd
  obtain ⟨b, hb, -, hbvalue⟩ := hshows.binding he
  have hmem := Env.mem_flatten_of_find? hb
  rw [List.flatten_cons, List.flatten_nil, List.append_nil, List.mem_singleton] at hmem
  have hnone := hbvalue d.2 hvalue
  rw [(Prod.mk.inj hmem).2] at hnone
  cases hnone

theorem Lexicon.root_shown : Lexicon.root.Shown (ScopeTree.root.nest 0 false).2 := by
  have hroot : ScopeTree.root.Shows [0] [[(eventName, { var := eventName })]] := by
    refine ⟨⟨_, rfl, rfl, fun _ => rfl, ?_⟩, (fun i hi => nomatch hi), trivial⟩
    have hentry : ∀ name e, List.lookup name [(eventName, ({ var := eventName } : ScopeEntry))] = some e →
        name = eventName ∧ e = { var := eventName } := by
      intro name e h
      rw [List.lookup_cons] at h
      split at h
      · next heq =>
          cases h
          exact ⟨eq_of_beq heq, rfl⟩
      · cases h
    refine ⟨fun name e h => ⟨false, ?_⟩, fun name e h he => ?_, fun name e v he hv => ?_,
      (fun var v h => nomatch h), List.nodup_nil, fun _ name e he => ?_⟩
    · obtain ⟨-, rfl⟩ := hentry name e h
      exact h
    · cases h.symm.trans he
    · obtain ⟨-, rfl⟩ := hentry name e he
      cases hv
    · obtain ⟨-, rfl⟩ := hentry name e he
      rfl
  refine ⟨hroot.nest, rfl, ?_, fun p hp => .inl ?_, List.cons_ne_nil _ _⟩
  · exact List.nodup_singleton _
  · rw [List.mem_singleton.mp hp]

def TemplateSettings.rootUnit (settings : TemplateSettings) : TemplateUnit where
  level := 0
  parameter := contextName
  path := settings.name
  functionName := (if settings.name.isEmpty then [] else settings.name ++ "_" : Text) ++ "Template"
  scope := 1

def TemplateSettings.start (settings : TemplateSettings) : Stage where
  names := Lexicon.root.addVariables contextName settings.vars
  unit := settings.rootUnit
  anchor := 0

/-- The statements that create queries in slots from `slot` on. -/
inductive CreationsCode (pool : Pool) : (slot : Nat) → List Query → List Stmt → Prop
  | nil {slot : Nat} : CreationsCode pool slot [] []
  | cons {slot : Nat} {q : Query} {qs : List Query} {t : Term} {ss : List Stmt} :
      PredicateCode pool q t → CreationsCode pool (slot + 1) qs ss →
      CreationsCode pool slot (q :: qs) (q.created slot t :: ss)

theorem CreationsCode.of_outcome {qs : List Query} : ∀ {slot : Nat} {ss : List Stmt} {pool pool' : Pool},
    pool.Sound → outcome (Query.creations slot qs) pool = (.ok ss, pool') →
    pool'.Sound ∧ pool.le pool' ∧ CreationsCode pool' slot qs ss := by
  induction qs with
  | nil =>
      intro slot ss pool pool' hs h
      cases h
      exact ⟨hs, .refl _, .nil⟩
  | cons q qs ih =>
      intro slot ss pool pool' hs h
      obtain ⟨stmt, pool₁, hcreation, h⟩ := outcome_bind_ok.mp h
      obtain ⟨rest, pool₂, hrest, h⟩ := outcome_bind_ok.mp h
      cases h
      obtain ⟨hs₁, hle₁, t, rfl, ht⟩ := Compile.creation_code hs hcreation
      obtain ⟨hs₂, hle₂, hss⟩ := ih hs₁ hrest
      exact ⟨hs₂, hle₁.trans hle₂, .cons (ht.mono hle₂) hss⟩

/-- What a compilation comes to: the functions of a template, and the state at the end. -/
structure Compiled (settings : TemplateSettings) (nodes : List Node) (c : CompiledTemplate) (f : Assembly)
    (g : Stage) : Prop where
  sound : f.pool.Sound
  statements : c.statements = f.pool.statements
  steps : Steps settings f (settings.items nodes) settings.start g
  settled : g.names.Settled f
  /-- The scope of the event declares nothing. -/
  outermost : f.scopes.declared 0 = []
  template : c.template =
    g.unit.function (Query.temporaries settings.ownQueries) (f.scopes.declarations settings.rootUnit.scope)
  viewQuery : ∀ fn, c.viewQuery = some fn → ∃ ss, CreationsCode f.pool 0 settings.queries ss ∧
    fn.params = [renderFlags, contextName] ∧ fn.body = Query.temporaries settings.queries ++
      [onFlag createFlag ss, onFlag updateFlag (Query.refreshes 0 settings.queries)]

variable {settings : TemplateSettings} {nodes : List Node}

theorem Compile.startUnit_root {s s' : Assembly} (hscopes : s.scopes = .root) (hpool : s.pool.Sound)
    (h : outcome (startUnit 0 0 contextName settings.name
      ((if settings.name.isEmpty then [] else settings.name ++ "_" : Text) ++ "Template")) s = (.ok ⟨⟩, s')) :
    s' = { s with scopes := (s.scopes.nest 0 false).2, unit := settings.rootUnit } ∧
      Lexicon.root.Ready s' := by
  obtain rfl : { s with scopes := (s.scopes.nest 0 false).2, unit := settings.rootUnit } = s' := by
    cases h
    unfold TemplateSettings.rootUnit
    rw [hscopes]
    rfl
  refine ⟨rfl, ⟨?_, hpool⟩, rfl⟩
  rw [hscopes]
  exact Lexicon.root_shown

theorem templateFunction_steps {s s' : Assembly} {template : FunctionCode} (hscopes : s.scopes = .root)
    (hpool : s.pool.Sound)
    (h : outcome (Compile.templateFunction settings nodes) s = (.ok template, s')) :
    s'.pool.Sound ∧ s.pool.le s'.pool ∧ ∃ g, ∀ f, s'.Later [] f →
      Steps settings f (settings.items nodes) settings.start g ∧ g.names.Settled f ∧
      f.scopes.declared 0 = [] ∧
      template = g.unit.function (Query.temporaries settings.ownQueries) (f.scopes.declarations 1) := by
  unfold Compile.templateFunction at h
  obtain ⟨_, s₁, hstart, h⟩ := outcome_bind_ok.mp h
  obtain ⟨rfl, hL₁⟩ := Compile.startUnit_root hscopes hpool hstart
  obtain ⟨_, s₂, hvars, h⟩ := outcome_bind_ok.mp h
  obtain ⟨hadv₂, hunit₂⟩ := Compile.bindVariables_advances hL₁ hvars
  dsimp only at h
  obtain ⟨selectors, s₃, hselectors, h⟩ := outcome_bind_ok.mp h
  obtain ⟨-, rfl⟩ := Compile.outcome_liftM_ok.mp hselectors
  obtain ⟨_, s₃, hannounce, h⟩ := outcome_bind_ok.mp h
  obtain ⟨_, s₄, hqueries, h⟩ := outcome_bind_ok.mp h
  obtain ⟨_, s₅, hnodes, h⟩ := outcome_bind_ok.mp h
  cases h
  obtain ⟨hadv₃, hmark⟩ := Compile.announceContent_code settings (a := 0) hadv₂.ready hannounce
  obtain ⟨hadv₄, hsteps₄⟩ := Compile.forM_steps (a := 0) (Compile.addQuery_code settings) hadv₃.ready
    hqueries
  obtain ⟨L₅, a₅, hadv₅, hsteps₅⟩ := Compile.compileNodes_steps nodes 0 hadv₄.ready hnodes
  have hadv := hadv₂.trans (hadv₃.trans (hadv₄.trans hadv₅))
  refine ⟨hadv.ready.holds.sound, hadv.later.pool, ⟨L₅, s'.unit, a₅⟩, fun f hf => ⟨?_, ?_, ?_, ?_⟩⟩
  · have hf₅ := hf.mono (List.nil_subset (Lexicon.root.addVariables contextName settings.vars).ids)
    have hf₄ := hadv₅.later.trans hf₅
    rw [hunit₂] at hmark
    exact .append (.cons (.item (hmark f (hadv₄.later.trans hf₄))) (hsteps₄ f hf₄)) (hsteps₅ f hf₅)
  · exact hadv.ready.holds.settled hf List.not_mem_nil
  · have hshown := hadv.ready.holds.shown
    have hlt : 0 < s'.scopes.scopes.length := Nat.zero_lt_of_lt
      (hshown.shows.lt_length L₅.id List.mem_cons_self)
    unfold ScopeTree.declared
    rw [hf.scopes.frozen 0 hlt List.not_mem_nil]
    exact hshown.declared_zero hadv.outerIds hadv.outer
  · have hscope : s'.unit.scope = 1 := hadv.ready.scope.trans hadv.id
    have hlt : 1 < s'.scopes.scopes.length := by
      have := hadv.ready.holds.shown.shows.lt_length L₅.id List.mem_cons_self
      rwa [hadv.id] at this
    have hdeclarations : f.scopes.declarations 1 = s'.scopes.declarations s'.unit.scope := by
      unfold ScopeTree.declarations
      rw [hscope, hf.scopes.frozen 1 hlt List.not_mem_nil]
    rw [hdeclarations]
    rfl

theorem exists_compiled_of_isOk {pool : Pool} (h : (compileTemplate settings nodes pool).1.isOk = true) :
    ∃ c pool', compileTemplate settings nodes pool = (.ok c, pool') := by
  rcases hresult : compileTemplate settings nodes pool with ⟨_ | c, pool'⟩
  · rw [hresult] at h
    cases h
  · exact ⟨c, pool', rfl⟩

/-- A template that compiles goes through its items, and its pool only grows. -/
theorem compiled_and_le_of_compileTemplate {c : CompiledTemplate} {pool pool' : Pool} (hpool : pool.Sound)
    (h : compileTemplate settings nodes pool = (.ok c, pool')) :
    ∃ f g, f.pool = pool' ∧ Compiled settings nodes c f g ∧ pool.le pool' := by
  unfold compileTemplate at h
  dsimp only at h
  split at h
  · next template viewQuery s' hrun =>
      cases h
      obtain ⟨template, s₁, htemplate, hrun⟩ := outcome_bind_ok.mp hrun
      obtain ⟨hsound, hgrown, g, hg⟩ := templateFunction_steps rfl hpool htemplate
      split at hrun
      · obtain ⟨fn, s₂, hfunction, hrun⟩ := outcome_bind_ok.mp hrun
        obtain ⟨pool, hpool, rfl⟩ := Compile.outcome_onPool_ok.mp hfunction
        cases hrun
        obtain ⟨ss, pool', hcreations, hreturn⟩ := outcome_bind_ok.mp hpool
        cases hreturn
        obtain ⟨hsound', hle, hss⟩ := CreationsCode.of_outcome hsound hcreations
        obtain ⟨hsteps, hsettled, houter, rfl⟩ := hg { s₁ with pool := pool } ⟨.refl _ _, hle⟩
        refine ⟨_, g, rfl, ⟨hsound', rfl, hsteps, hsettled, houter, rfl, fun fn hfn => ?_⟩, hgrown.trans hle⟩
        cases hfn
        exact ⟨ss, hss, rfl, rfl⟩
      · cases hrun
        obtain ⟨hsteps, hsettled, houter, rfl⟩ := hg s' (.refl _ _)
        exact ⟨s', g, rfl, ⟨hsound, rfl, hsteps, hsettled, houter, rfl, fun fn hfn => nomatch hfn⟩, hgrown⟩
  · cases h

theorem compiled_of_compileTemplate {c : CompiledTemplate} {pool pool' : Pool} (hpool : pool.Sound)
    (h : compileTemplate settings nodes pool = (.ok c, pool')) :
    ∃ f g, f.pool = pool' ∧ Compiled settings nodes c f g := by
  obtain ⟨f, g, hf, hcompiled, -⟩ := compiled_and_le_of_compileTemplate hpool h
  exact ⟨f, g, hf, hcompiled⟩

end TemplateCompiler
