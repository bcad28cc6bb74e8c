import TemplateCompiler.Proofs.Template.Replay

/-!
# Places for content

Selectors of places for content are numbered over a whole template, while each unit projects into its own
places only.

* `Node.placesAll`, `Node.ownPlacesAll` : the places of a forest, and those outside of the templates inside
  it. Every place belongs to one unit (`Node.perm_placesAll`);
* `ContentSelector.collected_of_collectAll` : what is collected is every selector once, in the order in which
  selectors occur first;
* `Projects` : the arguments of a projection give the number of a selector;
* `Places` : what a unit has created so far projects into its places. Each node adds its own
  (`compileNode_places`), by induction along the tree.
-/

namespace TemplateCompiler

/-! ### Places in a tree -/

def Visit.place? : Visit → Option Text
  | .node (.content _ selector _) => some selector
  | _ => none

namespace Node

mutual

/-- The selectors of the places for content in a node, in document order. -/
def places : Node → List Text
  | text .. | boundText .. | misplaced _ => []
  | content _ selector _ => [selector]
  | element _ _ _ children => placesAll children
  | template _ _ _ _ children => placesAll children

/-- The selectors of the places for content in a forest, in document order. -/
def placesAll : List Node → List Text
  | [] => []
  | n :: ns => n.places ++ placesAll ns

end

mutual

def ownPlaces : Node → List Text
  | text .. | boundText .. | misplaced _ | template .. => []
  | content _ selector _ => [selector]
  | element _ _ _ children => ownPlacesAll children

/-- The places in a forest that are in no template inside it. -/
def ownPlacesAll : List Node → List Text
  | [] => []
  | n :: ns => n.ownPlaces ++ ownPlacesAll ns

end

theorem filterMap_visitParts {α : Type} (kind : α → NodePart) (parts : List α) :
    (visitParts kind parts).filterMap Visit.place? = [] := by
  rw [visitParts, List.filterMap_map]
  exact List.filterMap_eq_nil_iff.mpr fun _ _ => rfl

theorem filterMap_partsVisits (parts : Parts) : parts.visits.filterMap Visit.place? = [] := by
  simp only [Parts.visits, List.filterMap_append, filterMap_visitParts, List.append_nil]

mutual

theorem filterMap_visits : ∀ n : Node, n.visits.filterMap Visit.place? = n.places
  | .text .. | .boundText .. | .misplaced _ => rfl
  | .content _ selector attrs => by
      rw [visits, List.filterMap_cons, filterMap_visitParts]
      rfl
  | .element _ _ parts children => by
      simp only [visits, List.cons_append, List.filterMap_cons, List.filterMap_append, filterMap_visitParts,
        filterMap_partsVisits, filterMap_visitsAll children, List.nil_append, List.append_nil]
      rfl
  | .template _ _ parts vars children => by
      simp only [visits, List.cons_append, List.filterMap_cons, List.filterMap_append, filterMap_visitParts,
        filterMap_partsVisits, filterMap_visitsAll children, List.nil_append, List.append_nil]
      rfl

theorem filterMap_visitsAll : ∀ ns : List Node, (visitsAll ns).filterMap Visit.place? = placesAll ns
  | [] => rfl
  | n :: ns => by
      rw [visitsAll, List.filterMap_append, filterMap_visits n, filterMap_visitsAll ns]
      rfl

end

/-- What is collected of a template are its places. -/
theorem map_contents (nodes : List Node) : (contents nodes).map (·.2) = placesAll nodes := by
  rw [contents, List.map_filterMap, ← filterMap_visitsAll]
  congr 1
  funext v
  rcases v with n | p
  · cases n <;> rfl
  · rfl

mutual

theorem perm_places : ∀ n : Node, n.places.Perm (n.ownPlaces ++ n.inner.flatMap ownPlacesAll)
  | .text .. | .boundText .. | .misplaced _ => .nil
  | .content .. => .refl _
  | .element _ _ _ children => perm_placesAll children
  | .template _ _ _ _ children => perm_placesAll children

/-- Every place of a forest is one of a single unit of it. -/
theorem perm_placesAll : ∀ ns : List Node, (placesAll ns).Perm ((units ns).flatMap ownPlacesAll)
  | [] => .nil
  | n :: ns => by
      have h := (perm_places n).append (perm_placesAll ns)
      refine h.trans ?_
      simp only [units, innerAll, ownPlacesAll, List.flatMap_cons, List.flatMap_append, List.append_assoc]
      refine List.Perm.append_left _ ?_
      rw [← List.append_assoc, ← List.append_assoc (ownPlacesAll ns)]
      exact List.perm_append_comm.append_right _

end

end Node

/-! ### Numbers -/

theorem eraseDups_concat (ts : List Text) (t : Text) :
    (ts ++ [t]).eraseDups = if t ∈ ts then ts.eraseDups else ts.eraseDups ++ [t] := by
  rw [List.eraseDups_append, List.removeAll, List.filter_singleton]
  by_cases h : t ∈ ts
  · rw [if_pos h, List.elem_eq_true_of_mem h]
    exact List.append_nil _
  · have hnot : List.elem t ts = false := by
      rwa [List.elem_eq_contains, List.contains_eq_mem, decide_eq_false_iff_not]
    rw [if_neg h, hnot]
    rfl

namespace ContentSelector

/-- The selectors that have a number: all that do not take all content, each where it occurs first. -/
def numbered (met : List Text) : List Text := (met.filter (!isDefaultContent ·)).eraseDups

variable {met : List Text} {known known' : List ContentSelector} {text : Text}

theorem isDefaultContent_iff : isDefaultContent text = true ↔ text = [] ∨ text = "*" := by
  rw [isDefaultContent, Bool.or_eq_true, List.isEmpty_iff, beq_iff_eq]

theorem mem_numbered : text ∈ numbered met ↔ text ∈ met ∧ isDefaultContent text = false := by
  rw [numbered, List.mem_eraseDups, List.mem_filter, Bool.not_eq_true']

theorem numbered_concat (met : List Text) (text : Text) : numbered (met ++ [text]) =
    if isDefaultContent text ∨ text ∈ numbered met then numbered met else numbered met ++ [text] := by
  unfold numbered
  rw [List.filter_append, List.filter_singleton]
  cases isDefaultContent text with
  | true =>
      rw [if_pos (.inl rfl)]
      exact congrArg _ (List.append_nil _)
  | false =>
      have hnew (a : List Text) : (false = true ∨ text ∈ a.eraseDups) ↔ text ∈ a := by
        rw [List.mem_eraseDups]
        exact or_iff_right Bool.false_ne_true
      rw [if_congr (hnew _) rfl rfl]
      exact eraseDups_concat _ text

/-- What is known once some places are met. -/
structure Collected (met : List Text) (known : List ContentSelector) : Prop where
  texts : known.map (·.text) = numbered met
  parsed : ∀ s ∈ known, parseRuntimeSelectors s.text = .ok s.parsed

theorem Collected.nil : Collected [] [] := ⟨rfl, List.forall_mem_nil _⟩

/-- A selector is added unless it takes all content or is known. -/
theorem Collected.collect {span : Option SourceSpan} (h : Collected met known)
    (hrun : collect known (span, text) = .ok known') : Collected (met ++ [text]) known' := by
  have hany : known.any (·.text == text) = true ↔ text ∈ numbered met := by
    rw [← h.texts, List.any_eq_true, List.mem_map]
    simp only [beq_iff_eq]
  have hknown : (isDefaultContent text || known.any (·.text == text)) = true ↔
      isDefaultContent text = true ∨ text ∈ numbered met := by
    rw [Bool.or_eq_true, hany]
  unfold ContentSelector.collect at hrun
  dsimp only at hrun
  split at hrun
  · next hskip =>
      cases hrun
      exact ⟨by rw [numbered_concat, if_pos (hknown.mp hskip), h.texts], h.parsed⟩
  · next hnew =>
      split at hrun
      · next parsed hparsed =>
          cases hrun
          refine ⟨?_, List.forall_mem_append.mpr ⟨h.parsed, List.forall_mem_singleton.mpr hparsed⟩⟩
          rw [numbered_concat, if_neg (hnew ∘ hknown.mpr), List.map_append, h.texts]
          rfl
      · cases hrun

theorem Collected.foldlM {found : List (Option SourceSpan × Text)} : ∀ {met known},
    Collected met known → found.foldlM ContentSelector.collect known = .ok known' →
    Collected (met ++ found.map (·.2)) known' := by
  induction found with
  | nil =>
      intro met known h hrun
      cases hrun
      rwa [List.map_nil, List.append_nil]
  | cons x xs ih =>
      intro met known h hrun
      rw [List.foldlM_cons] at hrun
      obtain ⟨known₁, hx, hxs⟩ := except_bind_ok.mp hrun
      rw [List.map_cons, List.append_cons]
      exact ih (h.collect hx) hxs

/-- Everything is known once all is collected. -/
theorem collected_of_collectAll {nodes : List Node} (h : collectAll (Node.contents nodes) = .ok known) :
    Collected (Node.placesAll nodes) known := by
  rw [← Node.map_contents]
  exact Collected.nil.foldlM h

end ContentSelector

/-- The number that the arguments of a projection give, which is zero if they leave it out. -/
def projectionIndex? : List Term → Option Nat
  | [] => none
  | [_] => some 0
  | _ :: index :: _ => index.nat?

/-- The arguments of a projection give the number of a selector: zero if it takes all content, and
otherwise its place among those announced. -/
def Projects (selectors : List Text) (selector : Text) (args : List Term) : Prop :=
  ∃ k, projectionIndex? args = some k ∧ (k = 0 ↔ selector = [] ∨ selector = "*") ∧
    (k ≠ 0 → selectors[k - 1]? = some selector)

/-- The number of a selector is its place in a list that has it. -/
theorem projects_indexOf {selectors : List Text} {selector : Text} {args : List Term}
    (hknown : isDefaultContent selector = false → selector ∈ selectors)
    (hargs : projectionIndex? args = some (ContentSelector.indexOf selectors selector)) :
    Projects selectors selector args := by
  refine ⟨_, hargs, ?_⟩
  unfold ContentSelector.indexOf
  rw [← ContentSelector.isDefaultContent_iff]
  split
  · next hdefault => exact ⟨iff_of_true rfl hdefault, fun h => absurd rfl h⟩
  · next hdefault =>
      refine ⟨iff_of_false (Nat.succ_ne_zero _) hdefault, fun _ => ?_⟩
      rw [Nat.add_sub_cancel]
      exact List.getElem?_idxOf (hknown (Bool.eq_false_iff.mpr hdefault))

/-! ### Calls of an instruction -/

/-- The arguments of the calls of an instruction among statements. -/
def Stmt.callsOf (i : Instruction) (ss : List Stmt) : List (List Term) :=
  (ss.filterMap Stmt.instruction?).filterMap fun c => if c.name = i.name then some c.args else none

namespace Stmt

variable {i j : Instruction} {args : List Term} {span : Option SourceSpan}

theorem callsOf_append (i : Instruction) (ss ss' : List Stmt) :
    callsOf i (ss ++ ss') = callsOf i ss ++ callsOf i ss' := by
  rw [callsOf, List.filterMap_append, List.filterMap_append]
  rfl

theorem callsOf_stmt : callsOf i [i.stmt args span] = [args] := by
  rw [callsOf, List.filterMap_cons, instruction?_stmt, List.filterMap_cons, if_pos rfl]
  rfl

theorem callsOf_stmt_of_ne (h : j.name ≠ i.name) : callsOf i [j.stmt args span] = [] := by
  rw [callsOf, List.filterMap_cons, instruction?_stmt, List.filterMap_cons, if_neg h]
  rfl

end Stmt

def Instruction.ofContent : List Instruction := [.projection, .projectionDef]

/-- Statements that project into the places of a unit, one after the other, and announce nothing. -/
structure Projections (selectors own : List Text) (ss : List Stmt) : Prop where
  projections : List.Forall₂ (Projects selectors) own (Stmt.callsOf .projection ss)
  unannounced : Stmt.callsOf .projectionDef ss = []

namespace Projections

variable {selectors own own' : List Text} {ss ss' : List Stmt} {i : Instruction} {args : List Term}
  {span : Option SourceSpan}

theorem nil : Projections selectors [] [] := ⟨.nil, rfl⟩

theorem append (h : Projections selectors own ss) (h' : Projections selectors own' ss') :
    Projections selectors (own ++ own') (ss ++ ss') := by
  refine ⟨?_, ?_⟩
  · rw [Stmt.callsOf_append]
    exact List.rel_append h.projections h'.projections
  · rw [Stmt.callsOf_append, h.unannounced, h'.unannounced]
    rfl

/-- An instruction that has nothing to do with content. -/
theorem stmt (h : i.name ∉ Instruction.ofContent.map Instruction.name) :
    Projections selectors [] [i.stmt args span] := by
  have hne : ∀ j ∈ Instruction.ofContent, i.name ≠ j.name := fun j hj heq =>
    h (List.mem_map.mpr ⟨j, hj, heq.symm⟩)
  refine ⟨?_, Stmt.callsOf_stmt_of_ne (hne _ (by decide))⟩
  rw [Stmt.callsOf_stmt_of_ne (hne _ (by decide))]
  exact .nil

theorem projection {selector : Text} (h : Projects selectors selector args) :
    Projections selectors [selector] [Instruction.projection.stmt args span] := by
  refine ⟨?_, Stmt.callsOf_stmt_of_ne (by decide)⟩
  rw [Stmt.callsOf_stmt]
  exact .cons h .nil

theorem incidental (h : ∀ s ∈ ss, s.Incidental) : Projections selectors [] ss := by
  induction ss with
  | nil => exact nil
  | cons s ss ih =>
      obtain ⟨⟨i, hi, args, span, rfl⟩, hss⟩ := List.forall_mem_cons.mp h
      have hnames : ∀ i ∈ Instruction.incidental, i.name ∉ Instruction.ofContent.map Instruction.name := by
        decide
      exact (stmt (hnames i hi)).append (ih hss)

end Projections

/-! ### Units -/

/-- The first run of a function projects into the places of a forest and announces nothing. -/
def ProjectsInto (selectors : List Text) (ns : List Node) (fn : FunctionCode) : Prop :=
  Projections selectors (Node.ownPlacesAll ns) fn.creation

/-- After `front`, a unit has projected into the places `own`; the functions inside it project into those
of the forests `nss`. -/
structure Places (selectors : List Text) (front : List Stmt) (u : TemplateUnit) (own : List Text)
    (nss : List (List Node)) : Prop where
  creation : ∃ ss, u.creation = front ++ ss ∧ Projections selectors own ss
  nests : Nests (ProjectsInto selectors) nss u

namespace Places

variable {selectors own own' : List Text} {front ss : List Stmt} {u u' : TemplateUnit}
  {nss : List (List Node)}

theorem blank (h : u = u.blank) : Places selectors [] u [] [] := by
  rw [h]
  exact ⟨⟨[], rfl, .nil⟩, .nil rfl⟩

theorem append (h : Places selectors front u own nss) (hnested : u'.nested = u.nested)
    (hcreation : u'.creation = u.creation ++ ss) (hss : Projections selectors own' ss) :
    Places selectors front u' (own ++ own') nss := by
  obtain ⟨ss₀, hu, hss₀⟩ := h.creation
  refine ⟨⟨ss₀ ++ ss, ?_, hss₀.append hss⟩, h.nests.congr hnested⟩
  rw [hcreation, hu, List.append_assoc]

/-- Statements that have nothing to do with content. -/
theorem grow (h : Places selectors front u own nss) (hnested : u'.nested = u.nested)
    (hcreation : u'.creation = u.creation ++ ss) (hss : Projections selectors [] ss) :
    Places selectors front u' own nss := by
  have hgrown := h.append hnested hcreation hss
  rwa [List.append_nil] at hgrown

/-- A step that makes no node. -/
theorem after {α : Type} {p : Compile α} (hp : Compile.Idles p) {s s' : Assembly} {a : α}
    (h : Places selectors front s.unit own nss) (hrun : outcome p s = (.ok a, s')) :
    Places selectors front s'.unit own nss := by
  obtain ⟨-, hnested, ss, hss, hincidental⟩ := hp s a s' hrun
  exact h.grow hnested hss (.incidental hincidental)

/-- The function of a unit, with what it does on its first run. -/
theorem function (h : Places selectors front u own nss) (qs : List Query) (tree : ScopeTree) (id : Nat) :
    (∃ ss, (u.function (Query.temporaries qs) (tree.declarations id)).creation = front ++ ss ∧
        Projections selectors own ss) ∧
      List.Forall₂ (ProjectsInto selectors) nss
        (Stmt.unitsAll (u.function (Query.temporaries qs) (tree.declarations id)).body) := by
  obtain ⟨ss, hu, hss⟩ := h.creation
  obtain ⟨hcreation, hunits⟩ := h.nests.function qs tree id
  refine ⟨⟨ss ++ u.reservation, ?_, ?_⟩, hunits⟩
  · rw [hcreation, hu, List.append_assoc]
  · have hreserved := hss.append (.incidental u.incidental_reservation)
    rwa [List.append_nil] at hreserved

end Places

namespace Compile

variable {cx : Setting} {s s' : Assembly} {selectors own : List Text} {front : List Stmt}
  {nss : List (List Node)}

/-- An instruction that has nothing to do with content. -/
theorem create_places {i : Instruction} {args : List Term} {span : Option SourceSpan}
    (hs : Places selectors front s.unit own nss) (hi : i.name ∉ Instruction.ofContent.map Instruction.name)
    (h : outcome (create i args span) s = (.ok ⟨⟩, s')) : Places selectors front s'.unit own nss := by
  cases h
  exact hs.grow rfl rfl (.stmt hi)

theorem startElement_places {span : Option SourceSpan} {name : Text} {parts : Parts} {childless : Bool}
    {form : ElementForm} (hs : Places selectors front s.unit own nss)
    (h : outcome (startElement cx span name parts childless) s = (.ok form, s')) :
    Places selectors front s'.unit own nss := by
  unfold startElement at h
  obtain ⟨slot, s₁, hslot, h⟩ := outcome_bind_ok.mp h
  obtain ⟨⟨key, tag⟩, s₂, hsplit, h⟩ := outcome_bind_ok.mp h
  dsimp only at h
  obtain ⟨_, s₃, hmatch, h⟩ := outcome_bind_ok.mp h
  obtain ⟨attrs, s₄, hattrs, h⟩ := outcome_bind_ok.mp h
  obtain ⟨refs, s₅, hrefs, h⟩ := outcome_bind_ok.mp h
  have hs₅ : Places selectors front s₅.unit own nss := ((hs.after idles_allocateSlot hslot).after
    idles_liftM hsplit).after (idles_matchDirectives cx tag parts) hmatch |>.after (idles_sharedArray _) hattrs
    |>.after (idles_bindReferences _) hrefs
  obtain ⟨space, switch, hswitch, h⟩ := switch_cases h
  have hquiet : Projections selectors [] switch := by
    rcases hswitch with rfl | ⟨hspace, rfl⟩
    · exact .nil
    · have hnames : ∀ i ∈ [Instruction.namespaceHtml, .namespaceMath, .namespaceSvg],
          i.name ∉ Instruction.ofContent.map Instruction.name := by decide
      exact .stmt (hnames space hspace)
  have hs₆ : Places selectors front (({ s₅.unit with space }).created switch) own nss :=
    hs₅.grow rfl rfl hquiet
  obtain ⟨_, s₇, hcreate, h⟩ := outcome_bind_ok.mp h
  obtain ⟨_, s₈, houtputs, h⟩ := outcome_bind_ok.mp h
  obtain ⟨_, s₉, hinputs, h⟩ := outcome_bind_ok.mp h
  cases h
  have hnames : ∀ form : ElementForm, form.start.name ∉ Instruction.ofContent.map Instruction.name := by
    intro form
    cases form <;> decide
  have hs₇ := create_places hs₆ (hnames _) hcreate
  exact (hs₇.after (idles_forM (idles_listen tag) _) houtputs).after (idles_forM (idles_bindInput cx slot) _)
    hinputs

theorem endElement_places {span : Option SourceSpan} {form : ElementForm}
    (hs : Places selectors front s.unit own nss) (h : outcome (endElement span form) s = (.ok ⟨⟩, s')) :
    Places selectors front s'.unit own nss := by
  cases form with
  | closed =>
      cases h
      exact hs
  | opened => exact create_places hs (by decide) h
  | container => exact create_places hs (by decide) h

theorem compileBoundText_places {span : Option SourceSpan} {e : Expr}
    (hs : Places selectors front s.unit own nss)
    (h : outcome (compileBoundText cx span e) s = (.ok ⟨⟩, s')) : Places selectors front s'.unit own nss := by
  rw [compileBoundText, outcome_locating_ok] at h
  obtain ⟨slot, s₁, hslot, h⟩ := outcome_bind_ok.mp h
  obtain ⟨_, s₂, hcreate, h⟩ := outcome_bind_ok.mp h
  exact (create_places (hs.after idles_allocateSlot hslot) (by decide) hcreate).after
    (idles_bind (idles_value cx e) fun _ => idles_update _) h

/-- A place for content is projected into, with the number of its selector. -/
theorem compileContent_places {span : Option SourceSpan} {selector : Text} {attrs : List Named}
    (hknown : isDefaultContent selector = false → selector ∈ cx.selectors)
    (hs : Places cx.selectors front s.unit own nss)
    (h : outcome (compileContent cx span selector attrs) s = (.ok ⟨⟩, s')) :
    Places cx.selectors front s'.unit (own ++ [selector]) nss := by
  unfold compileContent at h
  obtain ⟨slot, s₁, hslot, h⟩ := outcome_bind_ok.mp h
  cases h
  refine (hs.after idles_allocateSlot hslot).append rfl rfl (.projection (projects_indexOf hknown ?_))
  split
  · exact Term.nat?_ofNat _
  · split
    · exact Term.nat?_ofNat _
    · next hindex => exact congrArg some (not_not.mp hindex).symm

/-- The start of a template leaves the unit around it, and starts a unit of its own. -/
theorem startTemplate_places {span : Option SourceSpan} {tag : Text} {parts : Parts} {children : List Node}
    {outer : TemplateUnit} (hs : Places selectors front s.unit own nss)
    (h : outcome (startTemplate cx span tag parts children) s = (.ok outer, s')) :
    Places selectors front outer own nss ∧ Places selectors [] s'.unit [] [] := by
  unfold startTemplate at h
  obtain ⟨slot, s₁, hslot, h⟩ := outcome_bind_ok.mp h
  obtain ⟨element, s₂, hlift, h⟩ := outcome_bind_ok.mp h
  obtain ⟨_, s₃, hget, h⟩ := outcome_bind_ok.mp h
  cases hget
  dsimp only at h
  obtain ⟨_, s₄, hmatch, h⟩ := outcome_bind_ok.mp h
  obtain ⟨attrs, s₅, hattrs, h⟩ := outcome_bind_ok.mp h
  obtain ⟨refs, s₆, hrefs, h⟩ := outcome_bind_ok.mp h
  obtain ⟨_, s₇, hcreate, h⟩ := outcome_bind_ok.mp h
  obtain ⟨_, s₈, houtputs, h⟩ := outcome_bind_ok.mp h
  obtain ⟨_, s₉, hinputs, h⟩ := outcome_bind_ok.mp h
  have hs₆ : Places selectors front s₆.unit own nss := ((hs.after idles_allocateSlot hslot).after
    idles_liftM hlift).after (idles_matchDirectives cx "ng-template" parts) hmatch |>.after
    (idles_sharedArray _) hattrs |>.after (idles_bindReferences _) hrefs
  have hs₇ := create_places hs₆ (by decide) hcreate
  have hs₉ := (hs₇.after (idles_forM (idles_listen _) _) houtputs).after
    (idles_forM (idles_bindInput cx slot) _) hinputs
  cases h
  exact ⟨hs₉, .blank rfl⟩

/-- The end of a template adds its function to the unit around it. -/
theorem endTemplate_places {outer : TemplateUnit} {ns : List Node} {nss' : List (List Node)}
    (houter : Places selectors front outer own nss)
    (hs : Places selectors [] s.unit (Node.ownPlacesAll ns) nss')
    (h : outcome (endTemplate outer) s = (.ok ⟨⟩, s')) :
    Places selectors front s'.unit own (nss ++ ns :: nss') := by
  obtain ⟨⟨ss, hcreation, hss⟩, hunits⟩ := hs.function [] s.scopes s.unit.scope
  have hns : ProjectsInto selectors ns
      (s.unit.function (Query.temporaries []) (s.scopes.declarations s.unit.scope)) := by
    rw [ProjectsInto, hcreation]
    exact hss
  cases h
  exact ⟨houter.creation, houter.nests.containing hns hunits⟩

mutual

theorem compileNode_places : ∀ (n : Node) {s s' : Assembly} {front : List Stmt} {own : List Text}
    {nss : List (List Node)},
    (∀ t ∈ n.places, isDefaultContent t = false → t ∈ cx.selectors) →
    Places cx.selectors front s.unit own nss → outcome (compileNode cx n) s = (.ok ⟨⟩, s') →
    Places cx.selectors front s'.unit (own ++ n.ownPlaces) (nss ++ n.inner)
  | .text span value, s, s', front, own, nss, _, hs, h => by
    rw [compileNode] at h
    obtain ⟨slot, s₁, hslot, h⟩ := outcome_bind_ok.mp h
    rw [Node.ownPlaces, Node.inner, List.append_nil, List.append_nil]
    exact create_places (hs.after idles_allocateSlot hslot) (by decide) h
  | .boundText span e, s, s', front, own, nss, _, hs, h => by
    rw [compileNode] at h
    rw [Node.ownPlaces, Node.inner, List.append_nil, List.append_nil]
    exact compileBoundText_places hs h
  | .content span selector attrs, s, s', front, own, nss, hknown, hs, h => by
    rw [compileNode] at h
    rw [Node.ownPlaces, Node.inner, List.append_nil]
    exact compileContent_places (hknown selector (List.mem_singleton_self _)) hs h
  | .misplaced part, s, s', front, own, nss, _, hs, h => by
    cases h
  | .element span name parts children, s, s', front, own, nss, hknown, hs, h => by
    rw [compileNode] at h
    obtain ⟨form, s₁, hstart, h⟩ := outcome_bind_ok.mp h
    obtain ⟨_, s₂, hchildren, h⟩ := outcome_bind_ok.mp h
    rw [Node.ownPlaces, Node.inner]
    exact endElement_places (compileNodes_places children hknown (startElement_places hs hstart) hchildren) h
  | .template span tag parts vars children, s, s', front, own, nss, hknown, hs, h => by
    rw [compileNode] at h
    obtain ⟨outer, s₁, hstart, h⟩ := outcome_bind_ok.mp h
    obtain ⟨_, s₂, hvars, h⟩ := outcome_bind_ok.mp h
    obtain ⟨_, s₃, hchildren, h⟩ := outcome_bind_ok.mp h
    obtain ⟨houter, hs₁⟩ := startTemplate_places hs hstart
    have hs₃ := compileNodes_places children hknown (hs₁.after (idles_bindVariables vars) hvars) hchildren
    rw [Node.ownPlaces, Node.inner, List.append_nil]
    exact endTemplate_places houter hs₃ h

theorem compileNodes_places : ∀ (ns : List Node) {s s' : Assembly} {front : List Stmt} {own : List Text}
    {nss : List (List Node)},
    (∀ t ∈ Node.placesAll ns, isDefaultContent t = false → t ∈ cx.selectors) →
    Places cx.selectors front s.unit own nss → outcome (compileNodes cx ns) s = (.ok ⟨⟩, s') →
    Places cx.selectors front s'.unit (own ++ Node.ownPlacesAll ns) (nss ++ Node.innerAll ns)
  | [], s, s', front, own, nss, _, hs, h => by
    cases h
    rw [Node.ownPlacesAll, Node.innerAll, List.append_nil, List.append_nil]
    exact hs
  | n :: ns, s, s', front, own, nss, hknown, hs, h => by
    rw [compileNodes] at h
    obtain ⟨_, s₁, hn, hns⟩ := outcome_bind_ok.mp h
    obtain ⟨hn', hns'⟩ := List.forall_mem_append.mp hknown
    have hs₂ := compileNodes_places ns hns' (compileNode_places n hn' hs hn) hns
    rwa [List.append_assoc, List.append_assoc] at hs₂

end

end Compile

end TemplateCompiler
