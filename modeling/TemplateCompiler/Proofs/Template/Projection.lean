import TemplateCompiler.Proofs.Template.Places

/-!
# Projections and their announcement

A template announces the selectors of its places for content in two shared arrays, and its units project by
numbers. Both agree.

* `Pool.constant?` : what is read from a pool, which a growing pool does not change;
* `Announces` : the arguments that announce selectors. A pool that is coherent reads back what was shared
  (`Compile.Announced.announces`);
* `projection_indices_agree` : the announcement comes first, once, and exactly if there is a place; each
  unit projects by the numbers of what is announced.
-/

namespace TemplateCompiler

/-! ### The announced arrays -/

namespace Pool

/-- The literal that a term reads from a pool, as it was written. -/
def constant? (pool : Pool) : Term → Option Term
  | .pooled key _ => ((pool.names key).bind pool.initializer?).map Term.written
  | _ => none

variable {pool pool' : Pool} {t u v : Term}

theorem le.constant? (h : pool.le pool') (hu : pool.constant? u = some v) : pool'.constant? u = some v := by
  cases u with
  | pooled key kept =>
      obtain ⟨w, hw, rfl⟩ := Option.map_eq_some_iff.mp hu
      obtain ⟨n, hn, hvalue⟩ := Option.bind_eq_some_iff.mp hw
      obtain ⟨ss, hss, -⟩ := h.added
      refine Option.map_eq_some_iff.mpr ⟨w, Option.bind_eq_some_iff.mpr ⟨n, h.names key n hn, ?_⟩, rfl⟩
      rw [initializer?, initializerIn] at hvalue ⊢
      rw [hss, List.findSome?_append, hvalue]
      rfl
  | _ => cases hu

/-- A literal that is shared at once is read from the pool. -/
theorem pooled_of_literal (hinline : isInline t = false) (h : pool.literal t true = .ok (u, pool')) :
    ∃ key kept n, u = .pooled key kept ∧ t.keyOf = .ok key ∧ pool'.names key = some n := by
  rw [Pool.literal, if_neg (Bool.eq_false_iff.mp hinline)] at h
  obtain ⟨key, hkey, h⟩ := except_bind_ok.mp h
  split at h
  · next kept n hlookup =>
      cases h
      exact ⟨key, kept, n, rfl, hkey, by rw [names, hlookup]; rfl⟩
  · next kept hlookup =>
      cases h
      exact ⟨key, kept, _, rfl, hkey, names_share_self hlookup⟩
  · next hlookup =>
      cases h
      exact ⟨key, t, _, rfl, hkey, names_share_self (lookup_keep hlookup)⟩

/-- A literal that is shared reads as it is written. -/
theorem Coherent.constant?_of_literal (h : pool.Coherent) (ht : t.Literal) (hinline : isInline t = false)
    (hrun : pool.literal t true = .ok (u, pool')) :
    pool'.Coherent ∧ pool'.constant? u = some t.written := by
  obtain ⟨_, _, hrun', hcoherent, -⟩ := h.literal ht true
  cases hrun.symm.trans hrun'
  obtain ⟨key, kept, n, rfl, hkey, hn⟩ := pooled_of_literal hinline hrun
  obtain ⟨value, hvalue, hheld⟩ := hcoherent.shared key n hn
  refine ⟨hcoherent, ?_⟩
  rw [Pool.constant?, hn, Option.bind_some, hvalue, Option.map_some,
    hheld.literal.written_eq ht hheld.keyOf hkey]

end Pool

/-- The arguments that announce selectors: none if there are no selectors, and otherwise two arrays, of
their parsed forms and of the selectors themselves. -/
inductive Announces (pool : Pool) : List Text → List Term → Prop
  | none : Announces pool [] []
  | arrays {known : List ContentSelector} {parsed texts : Term} (hsome : known ≠ [])
      (hknown : ∀ s ∈ known, parseRuntimeSelectors s.text = .ok s.parsed)
      (hparsed : pool.constant? parsed = some (Datum.list (known.map ContentSelector.datum)).term)
      (htexts : pool.constant? texts = some (Datum.ofTexts (known.map (·.text))).term) :
      Announces pool (known.map (·.text)) [parsed, texts]

theorem Announces.mono {pool pool' : Pool} {selectors : List Text} {args : List Term}
    (h : Announces pool selectors args) (hle : pool.le pool') : Announces pool' selectors args := by
  cases h with
  | none => exact .none
  | arrays hsome hknown hparsed htexts =>
      exact .arrays hsome hknown (hle.constant? hparsed) (hle.constant? htexts)

theorem Compile.Announced.announces {pool pool' : Pool} {known : List ContentSelector} {args : List Term}
    {met : List Text} (h : Announced pool known args pool') (hknown : ContentSelector.Collected met known)
    (hsound : pool.Sound) (hcoherent : pool.Coherent) :
    Announces pool' (ContentSelector.numbered met) args := by
  rw [← hknown.texts]
  cases h with
  | none hnone =>
      rw [hnone]
      exact .none
  | arrays hsome hparsed htexts =>
      have hforms := Datum.fixed_list fun s (_ : s ∈ known) => s.fixed_datum
      have hselectors := Datum.fixed_ofTexts (known.map (·.text))
      obtain ⟨hcoherent₁, hfirst⟩ := hcoherent.constant?_of_literal hforms.literal rfl hparsed
      obtain ⟨-, hsecond⟩ := hcoherent₁.constant?_of_literal hselectors.literal rfl htexts
      obtain ⟨hsound₁, -, -⟩ := hsound.literal (hforms.constant _) hparsed
      obtain ⟨-, hle, -⟩ := hsound₁.literal (hselectors.constant _) htexts
      rw [hforms.written] at hfirst
      rw [hselectors.written] at hsecond
      exact .arrays hsome hknown.parsed (hle.constant? hfirst) hsecond

theorem Compile.Announced.eq_nil_iff {pool pool' : Pool} {known : List ContentSelector} {args : List Term}
    {met : List Text} (h : Announced pool known args pool')
    (hknown : ContentSelector.Collected met known) : args = [] ↔ ContentSelector.numbered met = [] := by
  rw [← hknown.texts, List.map_eq_nil_iff]
  cases h with
  | none hnone => exact iff_of_true rfl hnone
  | arrays hsome => exact iff_of_false (List.cons_ne_nil _ _) hsome

/-! ### Whole templates -/

/-- What the code of a template announces of the places for content, and projects into them. -/
structure ContentAgrees (nodes : List Node) (c : CompiledTemplate) : Prop where
  /-- The selectors are announced once, before anything else. -/
  announced : Node.placesAll nodes ≠ [] → ∃ args rest,
    c.template.creation = Instruction.projectionDef.stmt args :: rest ∧
      Stmt.callsOf .projectionDef rest = [] ∧
      (args = [] ↔ ContentSelector.numbered (Node.placesAll nodes) = [])
  unannounced : Node.placesAll nodes = [] → Stmt.callsOf .projectionDef c.template.creation = []
  inner : ∀ fn ∈ Stmt.unitsAll c.template.body, Stmt.callsOf .projectionDef fn.creation = []
  /-- Every place belongs to one unit. -/
  places : (Node.placesAll nodes).Perm ((Node.units nodes).flatMap Node.ownPlacesAll)
  /-- Every unit projects into its own places, by the numbers of their selectors. -/
  projections : List.Forall₂ (fun ns fn => List.Forall₂
      (Projects (ContentSelector.numbered (Node.placesAll nodes))) (Node.ownPlacesAll ns)
      (Stmt.callsOf .projection fn.creation)) (Node.units nodes) c.units

namespace Compile

variable {s s' : Assembly} {settings : TemplateSettings} {nodes : List Node} {fn : FunctionCode}

/-- The variables of a template leave the unit and the pool alone. -/
theorem bindVariables_keeps {vars : List Named} : ∀ {s : Assembly},
    outcome (bindVariables vars) s = (.ok ⟨⟩, s') → s'.unit = s.unit ∧ s'.pool = s.pool := by
  induction vars with
  | nil =>
      intro s h
      cases h
      exact ⟨rfl, rfl⟩
  | cons v vs ih =>
      intro s h
      obtain ⟨s₁, hv, hvs⟩ := outcome_forM_cons.mp h
      obtain ⟨scopes, -, rfl⟩ := bindName_cases (s := { s with scopes := s.scopes.freshName.2 }) hv
      exact (ih hvs :)

/-- The run of a whole template: a blank unit, the selectors and their announcement, the queries and the
nodes. -/
theorem templateFunction_cases (h : outcome (templateFunction settings nodes) s = (.ok fn, s')) :
    ∃ s₂ known s₃ s₄, s₂.unit = s₂.unit.blank ∧ s₂.pool = s.pool ∧
      (s.scopes = .root → s.pool.Sound → ∃ L : Lexicon, L.Ready s₂) ∧
      ContentSelector.collectAll (Node.contents nodes) = .ok known ∧
      outcome (announceContent (!(Node.contents nodes).isEmpty) known) s₂ = (.ok ⟨⟩, s₃) ∧
      outcome (settings.ownQueries.forM addQuery) s₃ = (.ok ⟨⟩, s₄) ∧
      outcome (compileNodes ⟨settings, known.map (·.text)⟩ nodes) s₄ = (.ok ⟨⟩, s') ∧
      fn = s'.unit.function (Query.temporaries settings.ownQueries)
        (s'.scopes.declarations s'.unit.scope) := by
  unfold templateFunction at h
  obtain ⟨_, s₁, hstart, h⟩ := outcome_bind_ok.mp h
  obtain ⟨_, s₂, hvars, h⟩ := outcome_bind_ok.mp h
  dsimp only at h
  obtain ⟨known, _, hliftM, h⟩ := outcome_bind_ok.mp h
  obtain ⟨hcollected, rfl⟩ := outcome_liftM_ok.mp hliftM
  obtain ⟨_, s₃, hannounce, h⟩ := outcome_bind_ok.mp h
  obtain ⟨_, s₄, hqueries, h⟩ := outcome_bind_ok.mp h
  obtain ⟨_, s₅, hnodes, h⟩ := outcome_bind_ok.mp h
  cases h
  obtain ⟨hunit, hpool⟩ := bindVariables_keeps hvars
  have hblank : s₁.unit = s₁.unit.blank ∧ s₁.pool = s.pool := by
    cases hstart
    exact ⟨rfl, rfl⟩
  refine ⟨s₂, known, s₃, s₄, ?_, hpool.trans hblank.2, fun hscopes hsound => ?_, hcollected, hannounce,
    hqueries, hnodes, rfl⟩
  · rw [hunit]
    exact hblank.1
  · obtain ⟨-, hL⟩ := startUnit_root hscopes hsound hstart
    exact ⟨_, (bindVariables_advances hL hvars).1.ready⟩

/-- The first statements of a template that has some places: what is known is announced if there are any. -/
structure Opens (nodes : List Node) (known : List ContentSelector) (pool pool' : Pool) (front : List Stmt) :
    Prop where
  none : Node.placesAll nodes = [] → front = []
  some : Node.placesAll nodes ≠ [] → ∃ args, front = [Instruction.projectionDef.stmt args] ∧
    Announced pool known args pool'

namespace Opens

variable {known : List ContentSelector} {pool pool' : Pool} {front : List Stmt} {args : List Term}

theorem projection_eq_nil (h : Opens nodes known pool pool' front) : Stmt.callsOf .projection front = [] := by
  by_cases hsome : Node.placesAll nodes = []
  · rw [h.none hsome]
    rfl
  · obtain ⟨args, rfl, -⟩ := h.some hsome
    exact Stmt.callsOf_stmt_of_ne (by decide)

theorem announced_of_mem (h : Opens nodes known pool pool' front)
    (hargs : args ∈ Stmt.callsOf .projectionDef front) : Announced pool known args pool' := by
  by_cases hsome : Node.placesAll nodes = []
  · rw [h.none hsome] at hargs
    cases hargs
  · obtain ⟨args', rfl, hannounced⟩ := h.some hsome
    rw [Stmt.callsOf_stmt, List.mem_singleton] at hargs
    rwa [hargs]

end Opens

theorem announceContent_opens {known : List ContentSelector} (hblank : s.unit = s.unit.blank)
    (h : outcome (announceContent (!(Node.contents nodes).isEmpty) known) s = (.ok ⟨⟩, s')) :
    ∃ front, Opens nodes known s.pool s'.pool front ∧ ∀ selectors, Places selectors front s'.unit [] [] := by
  have hany : (!(Node.contents nodes).isEmpty) = true ↔ Node.placesAll nodes ≠ [] := by
    rw [Bool.not_eq_true', List.isEmpty_eq_false_iff, ← Node.map_contents, Ne, Ne, List.map_eq_nil_iff]
  rcases announceContent_cases h with ⟨hnone, rfl⟩ | ⟨hsome, args, pool, hannounced, rfl⟩
  · have hnone' : ¬ Node.placesAll nodes ≠ [] := by
      rw [← hany, hnone]
      exact Bool.false_ne_true
    exact ⟨[], ⟨fun _ => rfl, fun hsome => absurd hsome hnone'⟩, fun _ => .blank hblank⟩
  · refine ⟨_, ⟨fun hnone => absurd hnone (hany.mp hsome), fun _ => ⟨args, rfl, hannounced⟩⟩, ?_⟩
    rw [hblank]
    exact fun _ => ⟨⟨[], rfl, .nil⟩, .nil rfl⟩

/-- The function of a whole template projects by the numbers of the selectors that it announces first. -/
theorem templateFunction_places (h : outcome (templateFunction settings nodes) s = (.ok fn, s')) :
    ∃ known pool front, ContentSelector.Collected (Node.placesAll nodes) known ∧
      Opens nodes known s.pool pool front ∧ (s.scopes = .root → s.pool.Sound → pool.le s'.pool) ∧
      (∃ ss, fn.creation = front ++ ss ∧
        Projections (known.map (·.text)) (Node.ownPlacesAll nodes) ss) ∧
      List.Forall₂ (ProjectsInto (known.map (·.text))) (Node.innerAll nodes) (Stmt.unitsAll fn.body) := by
  obtain ⟨s₂, known, s₃, s₄, hblank, hpool, hready, hcollected, hannounce, hqueries, hnodes, rfl⟩ :=
    templateFunction_cases h
  have hknown := ContentSelector.collected_of_collectAll hcollected
  have hmem : ∀ t ∈ Node.placesAll nodes, isDefaultContent t = false → t ∈ known.map (·.text) := by
    intro t ht hdefault
    rw [hknown.texts]
    exact ContentSelector.mem_numbered.mpr ⟨ht, hdefault⟩
  obtain ⟨front, hopens, hs₃⟩ := announceContent_opens hblank hannounce
  rw [hpool] at hopens
  have hs₄ := (hs₃ (known.map (·.text))).after (idles_forM idles_addQuery _) hqueries
  refine ⟨known, s₃.pool, front, hknown, hopens, fun hscopes hsound => ?_,
    (compileNodes_places nodes hmem hs₄ hnodes).function _ _ _⟩
  obtain ⟨L, hL⟩ := hready hscopes hsound
  obtain ⟨hadv₃, -⟩ := announceContent_code settings (a := 0) hL hannounce
  obtain ⟨hadv₄, -⟩ := forM_steps (a := 0) (addQuery_code settings) hadv₃.ready hqueries
  obtain ⟨_, _, hadv₅, -⟩ := compileNodes_steps nodes 0 hadv₄.ready hnodes
  exact hadv₄.later.pool.trans hadv₅.later.pool

end Compile

/-- The function of a template that compiles, after which the pool only grows. -/
theorem templateFunction_of_compileTemplate {settings : TemplateSettings} {nodes : List Node}
    {c : CompiledTemplate} {pool pool' : Pool} (h : compileTemplate settings nodes pool = (.ok c, pool')) :
    ∃ s s', s.pool = pool ∧ s.scopes = .root ∧
      outcome (Compile.templateFunction settings nodes) s = (.ok c.template, s') ∧
      (pool.Sound → s'.pool.le pool') := by
  unfold compileTemplate at h
  dsimp only at h
  split at h
  · next template viewQuery s' hrun =>
      cases h
      obtain ⟨template, s₁, htemplate, hrun⟩ := outcome_bind_ok.mp hrun
      split at hrun
      · obtain ⟨fn, s₂, hfunction, hrun⟩ := outcome_bind_ok.mp hrun
        obtain ⟨pool, hpool, rfl⟩ := Compile.outcome_onPool_ok.mp hfunction
        cases hrun
        refine ⟨_, s₁, rfl, rfl, htemplate, fun hsound => ?_⟩
        obtain ⟨ss, pool', hcreations, hreturn⟩ := outcome_bind_ok.mp hpool
        cases hreturn
        exact (CreationsCode.of_outcome (templateFunction_steps rfl hsound htemplate).1 hcreations).2.1
      · cases hrun
        exact ⟨_, _, rfl, rfl, htemplate, fun _ => .refl _⟩
  · cases h

/-- A template that compiles announces its selectors before anything else, and exactly if there is a place
for content at any depth. Every unit projects into its places by the numbers of their selectors, and what
is announced are the selectors in this order, with their parsed forms. -/
theorem projection_indices_agree {settings : TemplateSettings} {nodes : List Node} {c : CompiledTemplate}
    {pool pool' : Pool} (h : compileTemplate settings nodes pool = (.ok c, pool')) :
    ContentAgrees nodes c ∧ (pool.Sound → pool.Coherent →
      ∀ args ∈ Stmt.callsOf .projectionDef c.template.creation,
        Announces pool' (ContentSelector.numbered (Node.placesAll nodes)) args) := by
  obtain ⟨s, s', rfl, hscopes, hrun, hle⟩ := templateFunction_of_compileTemplate h
  obtain ⟨known, pool, front, hknown, hopens, hgrown, ⟨ss, hcreation, hss⟩, hinner⟩ :=
    Compile.templateFunction_places hrun
  rw [hknown.texts] at hss hinner
  refine ⟨⟨fun hsome => ?_, fun hnone => ?_, ?_, Node.perm_placesAll nodes, .cons ?_ ?_⟩, ?_⟩
  · obtain ⟨args, rfl, hannounced⟩ := hopens.some hsome
    exact ⟨args, ss, hcreation, hss.unannounced, hannounced.eq_nil_iff hknown⟩
  · rw [hcreation, hopens.none hnone]
    exact hss.unannounced
  · have hunits := hinner.flip.imp fun fn ns (hfn : flip (ProjectsInto _) fn ns) =>
      (⟨hfn.unannounced, hfn⟩ : Stmt.callsOf .projectionDef fn.creation = [] ∧ _)
    exact ((List.forall₂_and_left _ _).mp hunits).1
  · rw [hcreation, Stmt.callsOf_append, hopens.projection_eq_nil]
    exact hss.projections
  · exact hinner.imp fun _ _ hfn => hfn.projections
  · intro hsound hcoherent args hargs
    rw [hcreation, Stmt.callsOf_append, hss.unannounced, List.append_nil] at hargs
    have hannounces := (hopens.announced_of_mem hargs).announces hknown hsound hcoherent
    exact hannounces.mono ((hgrown hscopes hsound).trans (hle hsound))

namespace Sample

/-- A template with places at three levels, some of which have the same selector or take everything. -/
def gallery : List Node :=
  [.element none "figure" {} [.content none "img" []],
    .template none [] {} [] [.content none "*" [], .content none "figcaption" [⟨"class", "x", none⟩],
      .template none [] {} [] [.content none "img" [], .content none ".last" []]],
    .content none [] []]

/-- The selectors of its places that have a number. -/
def galleryNumbered : List Text := ["img", "figcaption", ".last"]

theorem projection_indices_agree_gallery : ∃ c pool, compileTemplate {} gallery {} = (.ok c, pool) ∧
    ContentAgrees gallery c ∧
    ∀ args ∈ Stmt.callsOf .projectionDef c.template.creation, Announces pool galleryNumbered args := by
  obtain ⟨c, pool, h⟩ := exists_compiled_of_isOk
    (by decide +kernel : (compileTemplate {} gallery {}).1.isOk = true)
  obtain ⟨hagrees, hannounces⟩ := projection_indices_agree h
  have hnumbered : ContentSelector.numbered (Node.placesAll gallery) = galleryNumbered := by decide +kernel
  rw [hnumbered] at hannounces
  exact ⟨c, pool, h, hagrees, hannounces .empty .empty⟩

end Sample

end TemplateCompiler
