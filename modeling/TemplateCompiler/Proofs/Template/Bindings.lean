import TemplateCompiler.Proofs.Template.Items

/-!
# Running bindings and event handlers

`Advances L s L' s'` says that the names in force are those of `L` before a part of a compilation and those
of `L'` after it. Bindings and handlers leave the names alone:

* `boundValue_code` : what a binding becomes, from the run that lowers it;
* `handler_code` : what an event handler becomes.
-/

namespace TemplateCompiler

/-! ### States and lexicons -/

/-- A state whose unit has the names of a lexicon. -/
structure Lexicon.Ready (L : Lexicon) (s : Assembly) : Prop where
  holds : L.Holds s
  scope : s.unit.scope = L.id

/-- A part of a compilation within one unit. -/
structure Advances (L : Lexicon) (s : Assembly) (L' : Lexicon) (s' : Assembly) : Prop where
  ready : L'.Ready s'
  id : L'.id = L.id
  outerIds : L'.outerIds = L.outerIds
  outer : L'.outer = L.outer
  later : s.Later L.ids s'

namespace Advances

variable {L L' L'' : Lexicon} {s s' s'' : Assembly}

theorem ids (h : Advances L s L' s') : L'.ids = L.ids := by
  rw [Lexicon.ids, Lexicon.ids, h.id, h.outerIds]

theorem refl (h : L.Ready s) : Advances L s L s := ⟨h, rfl, rfl, rfl, .refl _ _⟩

theorem trans (h : Advances L s L' s') (h' : Advances L' s' L'' s'') : Advances L s L'' s'' := by
  refine ⟨h'.ready, h'.id.trans h.id, h'.outerIds.trans h.outerIds, h'.outer.trans h.outer, ?_⟩
  have hlater := h'.later
  rw [h.ids] at hlater
  exact h.later.trans hlater

/-- A part that leaves the scopes alone. -/
theorem of_pool (h : L.Ready s) (hscopes : s'.scopes = s.scopes) (hunit : s'.unit.scope = s.unit.scope)
    (hsound : s'.pool.Sound) (hle : s.pool.le s'.pool) : Advances L s L s' := by
  refine ⟨⟨⟨?_, hsound⟩, hunit.trans h.scope⟩, rfl, rfl, rfl, ⟨?_, hle⟩⟩
  · rw [hscopes]
    exact h.holds.shown
  · rw [hscopes]
    exact .refl _ _

/-- A part that leaves scopes and pool alone. -/
theorem of_unit (h : L.Ready s) (hscopes : s'.scopes = s.scopes) (hpool : s'.pool = s.pool)
    (hunit : s'.unit.scope = s.unit.scope) : Advances L s L s' := by
  refine of_pool h hscopes hunit ?_ ?_
  · rw [hpool]
    exact h.holds.sound
  · rw [hpool]
    exact .refl _

end Advances

/-- Facts about open scopes stay true while fewer are. -/
theorem Assembly.Later.mono {ids ids' : List Nat} {s f : Assembly} (h : s.Later ids f)
    (hids : ids ⊆ ids') : s.Later ids' f :=
  ⟨⟨h.scopes.length, h.scopes.declared, fun i hi hi' => h.scopes.frozen i hi fun hmem => hi' (hids hmem)⟩,
    h.pool⟩

/-- A scope that is no longer open has taken all its declarations. -/
theorem Lexicon.Holds.settled {L : Lexicon} {s f : Assembly} {ids : List Nat} (h : L.Holds s)
    (hf : s.Later ids f) (hid : L.id ∉ ids) : L.Settled f := by
  obtain ⟨⟨scope, hscope, -, -, hshows⟩, -, -⟩ := h.shown.shows
  have hlt : L.id < s.scopes.scopes.length := h.shown.shows.lt_length L.id List.mem_cons_self
  refine ⟨⟨scope, ?_, hshows.mono fun var v => hf.scopes.declaredIn⟩, h.shown.numbered⟩
  rw [hf.scopes.frozen L.id hlt hid, hscope]

/-! ### Running a binding -/

section Value

variable {L : Lexicon} {s s' : Assembly}

theorem declarations_of_eq {stack : TemporaryStack} {b : Text} (h : stack.binding = b) :
    stack.declarations = temporaries b stack.count := by
  unfold temporaries TemporaryStack.declarations
  rw [h]

/-- A simple property without temporaries is its bare value. -/
theorem lowerProperty_simple {host : Host Assembly} {e : Expr} {b : Text} {code : PropertyCode}
    (h : outcome (lowerProperty host e b true) s = (.ok code, s')) :
    ∃ t stack, outcome (lowerBinding host b (e.lower host)) s = (.ok (t, stack), s') ∧
      code = if stack.count = 0 then ⟨[], t⟩
        else ⟨stack.declarations ++ [.const ("currVal_" ++ b) t], .ofVar ("currVal_" ++ b)⟩ := by
  unfold lowerProperty at h
  obtain ⟨⟨t, stack⟩, s₁, hbinding, h⟩ := outcome_bind_ok.mp h
  dsimp only at h
  split at h
  · next hsimple =>
      cases h
      exact ⟨t, stack, hbinding, (if_pos hsimple.1).symm⟩
  · next hsimple =>
      cases h
      exact ⟨t, stack, hbinding, (if_neg fun hzero => hsimple ⟨hzero, rfl⟩).symm⟩

/-- What a binding becomes whose builtins were replaced. -/
theorem loweredValue_code {interpolate : List Term → Except Failure Term} (hint : PassesOn interpolate)
    {e : Expr} {t : Term} (hL : L.Ready s)
    (h : outcome (Compile.loweredValue e interpolate) s = (.ok t, s')) :
    ∃ v : LoweredValue, v.pipes = [] ∧ v.expr = e ∧ t = v.value s.unit.bindings ∧
      s'.unit = s.unit.evaluated v ∧ Advances L s L s' ∧
      Tiles s.unit.pureSlots v.blocks v.stop ∧
      Accounts (e.Every fun x => x.isPaired = true) (pureBlocks v.made.code.calls) v.blocks ∧
      ∀ f, s'.Later L.ids f →
        (valueAnswers L interpolate f).Code (.ofNat s.unit.bindings) 0 v.count e v.made := by
  let b := s.unit.bindings
  let s₁ : Assembly := { s with unit := { s.unit with bindings := b + 1 } }
  have hL₁ : L.Ready s₁ := ⟨⟨hL.holds.shown, hL.holds.sound⟩, hL.scope⟩
  unfold Compile.loweredValue at h
  rw [outcome_bind, outcome_get] at h
  dsimp only at h
  rw [outcome_bind, hL.scope] at h
  change outcome (lowerProperty (Compile.host L.id Compile.builtinCode interpolate) e (.ofNat b) true >>=
    fun code => do
      Compile.update code.statements
      pure code.value) s₁ = _ at h
  obtain ⟨code, s₂, hlower, h⟩ := outcome_bind_ok.mp h
  cases h
  obtain ⟨t, stack, hbinding, hcode⟩ := lowerProperty_simple hlower
  -- the derivation and the account of the same run
  have hmade := outcome_lowerBinding (C := valueContract L interpolate hint.isInterpolation)
    (makes_lower e) (b := .ofNat b) hL₁.holds
  rw [hbinding] at hmade
  obtain ⟨hname, -, s₃, hmoves, hs₃, hderived⟩ := hmade
  obtain rfl : s₂ = s₃ := by
    rcases hs₃ with rfl | rfl <;> rfl
  have hmoves : L.Moves TemplateUnit.Pays s₁ s₂ := hmoves
  obtain ⟨final, hrun, hfinal⟩ := outcome_lowerBinding_ok hbinding
  obtain rfl : s₂ = final.host := by
    rcases hfinal with rfl | rfl <;> rfl
  obtain ⟨blocks, htiles, hholds⟩ := spends_lower (thrifty_host L.id hint) e _ _ _ hrun
  have hderived' : ∃ m, (valueAnswers L interpolate final.host).Code (.ofNat b) 0 stack.count e m ∧ t = m.code :=
    hderived final.host ((valueContract L interpolate hint.isInterpolation).refl hmoves.holds)
  obtain ⟨m, hcode', rfl⟩ := hderived'
  rw [declarations_of_eq hname] at hcode
  refine ⟨⟨[], e, stack.count, m, blocks, final.host.unit.pureSlots⟩, rfl, rfl, ?_, ?_, ?_, htiles,
    hholds.accounts, fun f hf => ?_⟩
  · rw [hcode, LoweredValue.value]
    split <;> rfl
  · change { final.host.unit with update := final.host.unit.update ++ code.statements } = _
    rw [hmoves.unit, TemplateUnit.evaluated, TemplateUnit.addPipes_nil, hcode, LoweredValue.statements]
    split <;> rfl
  · refine ⟨⟨⟨hmoves.holds.shown, hmoves.holds.sound⟩, ?_⟩, rfl, rfl, rfl,
      ⟨hmoves.later.scopes, hmoves.later.pool⟩⟩
    change final.host.unit.scope = _
    rw [hmoves.unit]
    exact hL.scope
  · exact hcode'.mono (valueAnswers_le ⟨hf.scopes, hf.pool⟩)

theorem boundValue_code {settings : TemplateSettings} {e : Expr} {t : Term} (hL : L.Ready s)
    (h : outcome (Compile.boundValue settings.pipes settings.interpolate e) s = (.ok t, s')) :
    ∃ v : LoweredValue, t = v.passed s.unit.bindings ∧ s'.unit = s.unit.evaluated v ∧
      Advances L s L s' ∧ ∀ f, s'.Later L.ids f → ValueCode settings f L s.unit e v := by
  unfold Compile.boundValue at h
  obtain ⟨e', s₁, hreplace, h⟩ := outcome_bind_ok.mp h
  obtain ⟨ps, hconverted, hs₁, hplaced⟩ := Expr.converted_of_outcome hreplace
  have hL₁ : Advances L s L s₁ := by
    refine .of_unit hL ?_ ?_ ?_ <;> rw [hs₁]
    rfl
  have hunit : s₁.unit = s.unit.addPipes ps := by rw [hs₁]
  -- both kinds of bindings are lowered alike
  have hvalue : ∃ t' s'', outcome (Compile.loweredValue e' (settings.interpolation e')) s₁ = (.ok t', s'') ∧
      s'' = s' ∧ t = if e'.isInterpolation then t' else Instruction.bind.call [t'] := by
    unfold TemplateSettings.interpolation
    cases e' with
    | interpolation p texts es => exact ⟨t, s', h, rfl, rfl⟩
    | _ =>
        obtain ⟨t', s'', hlowered, h⟩ := outcome_bind_ok.mp h
        cases h
        exact ⟨t', _, hlowered, rfl, rfl⟩
  obtain ⟨t', s'', hlowered, rfl, rfl⟩ := hvalue
  obtain ⟨v, hpipes, hexpr, rfl, hunit', hadv, htiles, haccounts, hcode⟩ :=
    loweredValue_code (passesOn_interpolation settings e') hL₁.ready hlowered
  rw [hunit] at hunit' htiles hcode
  refine ⟨{ v with pipes := ps }, ?_, ?_, hL₁.trans hadv, fun f hf => ⟨?_, hplaced, ?_, htiles, ?_⟩⟩
  · rw [LoweredValue.passed, hunit, ← hexpr]
    rfl
  · rw [hunit', TemplateUnit.evaluated, hpipes, TemplateUnit.addPipes_nil]
    rfl
  · rw [hexpr]
    exact hconverted
  · rw [hexpr]
    exact hcode f hf
  · rw [hexpr]
    exact haccounts

/-! ### Running an event handler -/

/-- The body of a handler returns what the code keeps. -/
theorem functionBody_withPreventDefault (count : Nat) (ts : List Term) :
    (withPreventDefault Compile.handlerBinding
      (temporaries Compile.handlerBinding count ++ ts.map Stmt.ofTerm)).functionBody =
        handlerBody count ts := by
  rcases List.eq_nil_or_concat ts with rfl | ⟨init, t, rfl⟩
  · rw [List.map_nil, temporaries, withPreventDefault_declarations, functionBody_declarations]
    exact (List.append_nil _).symm
  · rw [List.concat_eq_append, List.map_append, ← List.append_assoc]
    change (withPreventDefault _ (_ ++ [Stmt.ofTerm t])).functionBody = _
    rw [withPreventDefault_concat, temporaries, functionBody_append, functionBody_append,
      functionBody_declarations, functionBody_map_ofTerm, functionBody_preventDefaultStmt, handlerBody,
      List.dropLast_concat, List.getLast?_concat, List.append_assoc]
    rfl

theorem handler_code {name : Text} {e : Expr} {fn : FunctionCode} (hL : L.Ready s)
    (h : outcome (Compile.handler name e) s = (.ok fn, s')) :
    ∃ id count ts, s'.unit = s.unit ∧ Advances L s L s' ∧
      ∀ f, s'.Later L.ids f → HandlerCode f L e fn id count ts := by
  let id := s.scopes.scopes.length
  let s₁ : Assembly := { s with scopes := (s.scopes.nest L.id false).2 }
  have hL₁ : (L.enter id).Holds s₁ := ⟨hL.holds.shown.enter, hL.holds.sound⟩
  unfold Compile.handler at h
  rw [outcome_bind, outcome_get] at h
  dsimp only at h
  rw [hL.scope] at h
  change outcome (lowerAction (Compile.host (L.enter id).id (fun kind args => .mk (pure (kind.write args)))
    Compile.noInterpolation) e Compile.handlerBinding >>= fun code => do
      let s ← get
      pure ({ name, params := [eventName], body := s.scopes.declarations id ++ code.functionBody } :
        FunctionCode)) s₁ = _ at h
  obtain ⟨code, s₂, hlower, h⟩ := outcome_bind_ok.mp h
  cases h
  obtain ⟨e', body, stack, hreplace, hbinding, rfl⟩ := lowerAction_cases hlower
  obtain rfl := Expr.eq_written_of_replaceBuiltins hreplace
  have hmade := outcome_lowerBinding (C := handlerContract (L.enter id))
    (makes_lowerStatements e.written) (b := Compile.handlerBinding) hL₁
  rw [hbinding] at hmade
  obtain ⟨hname, -, s₃, hmoves, hs₃, hderived⟩ := hmade
  obtain rfl : s' = s₃ := by
    rcases hs₃ with rfl | rfl <;> rfl
  have hmoves : (L.enter id).Moves (fun u u' => u' = u) s₁ s' := hmoves
  obtain ⟨ts, rfl, hcodes⟩ := hderived s' ((handlerContract (L.enter id)).refl hmoves.holds)
  have hlater : s.Later L.ids s' := by
    refine ⟨?_, hmoves.later.pool⟩
    exact (ScopeTree.extends_nest L.id L.ids s.scopes).leave (Nat.le_refl id) hmoves.later.scopes
  have hid : id ∉ L.ids := fun hmem =>
    Nat.lt_irrefl id (hL.holds.shown.shows.lt_length id hmem)
  refine ⟨id, stack.count, ts, hmoves.unit, ?_, fun f hf => ⟨hmoves.holds.settled hf hid, ?_, rfl, ?_⟩⟩
  · refine ⟨⟨⟨?_, hmoves.holds.sound⟩, ?_⟩, rfl, rfl, rfl, hlater⟩
    · exact hmoves.holds.shown.leave rfl rfl hL.holds.shown.nested
    · rw [hmoves.unit]
      exact hL.scope
  · have hcodes' : (handlerAnswers (L.enter id) s').Codes Compile.handlerBinding 0 stack.count
        e.written.items ts := hcodes
    exact hcodes'.mono (handlerAnswers_le (hf.mono (List.subset_cons_self _ _)))
  · have hlt : id < s'.scopes.scopes.length := hmoves.holds.shown.shows.lt_length id List.mem_cons_self
    have hfrozen : f.scopes.declarations id = s'.scopes.declarations id := by
      unfold ScopeTree.declarations
      rw [hf.scopes.frozen id hlt hid]
    rw [hfrozen, declarations_of_eq hname, functionBody_withPreventDefault]

end Value

end TemplateCompiler
