import TemplateCompiler.Proofs.Code.Unhandled
import TemplateCompiler.Proofs.Template.WellScoped

/-!
# Who reads the event

All scopes of a template are inside the one that binds the event, so every binding finds it. Only in the
functions of listeners it is a parameter. A bound text or an input that asks for the event reads a variable
that is bound nowhere.

* `Node.asked` : the names that bound texts and inputs ask for;
* `Lexicon.EventFree` : no name but that of the event stands for it, and no variable has a value that reads
  it;
* `ValueCode.eventFree` : so a binding that does not ask for the event does not read it;
* `Stage.EventFree` : a unit so far reads the event in listeners only. Items keep it (`Steps.eventFree`);
* `event_handled` : then this holds of all that is declared for a template.
-/

namespace TemplateCompiler

open TemporaryStack (nameOf)

/-! ### What a template asks for -/

def Visit.value? : Visit → Option Expr
  | .node (.boundText _ e) => some e
  | .part (.input i) => some i.value
  | _ => none

/-- The name that a node asks for: a member of the context or a function. -/
def Expr.asked? (e : Expr) : Option Text := e.member?.or e.function?

def Expr.EventFree (e : Expr) : Prop := e.Every fun x => x.asked? ≠ some eventName

/-- The types of queries do not read the event. -/
def TemplateSettings.EventFree (names : Names) (settings : TemplateSettings) : Prop :=
  ∀ g t, settings.Given g t → eventName ∉ t.unhandled names

namespace Node

def values (nodes : List Node) : List Expr := (visitsAll nodes).filterMap Visit.value?

/-- The names that the values in a forest ask for. -/
def asked (nodes : List Node) : List Text := (Expr.nodesAll (values nodes)).filterMap Expr.asked?

end Node

/-! ### Values and queries of items -/

namespace Item

variable (Q : Expr → Prop) (R : Query → Prop)

mutual

/-- The values in an item have the property `Q`, and its queries the property `R`. -/
def Binds : Item → Prop
  | .boundText e => Q e
  | .input i => Q i.value
  | .query q => R q
  | .nested _ _ items => BindsAll items
  | _ => True

/-- The same for items one after the other. -/
def BindsAll : List Item → Prop
  | [] => True
  | i :: is => i.Binds ∧ BindsAll is

end

variable {Q R}

theorem bindsAll_iff {is : List Item} : BindsAll Q R is ↔ ∀ i ∈ is, i.Binds Q R := by
  induction is with
  | nil => simp [BindsAll]
  | cons i is ih => simp [BindsAll, ih]

theorem bindsAll_append {is js : List Item} :
    BindsAll Q R (is ++ js) ↔ BindsAll Q R is ∧ BindsAll Q R js := by
  simp only [bindsAll_iff, List.forall_mem_append]

end Item

section Binds

variable {Q : Expr → Prop} {R : Query → Prop}

theorem Parts.bindsAll_items {parts : Parts} (h : ∀ v ∈ parts.visits, ∀ e, v.value? = some e → Q e) :
    Item.BindsAll Q R parts.items := by
  refine Item.bindsAll_append.mpr ⟨Item.bindsAll_iff.mpr fun i hi => ?_, Item.bindsAll_iff.mpr fun i hi => ?_⟩
  · obtain ⟨o, -, rfl⟩ := List.mem_map.mp hi
    trivial
  · obtain ⟨input, hinput, rfl⟩ := List.mem_map.mp hi
    refine h (.part (.input input)) ?_ _ rfl
    exact List.mem_append_left _ (List.mem_append_right _ (List.mem_map_of_mem hinput))

namespace Node

mutual

theorem bindsAll_items : ∀ n : Node, (∀ v ∈ n.visits, ∀ e, v.value? = some e → Q e) →
    Item.BindsAll Q R n.items
  | .text .., _ | .content .., _ => by
    rw [items]
    exact ⟨trivial, trivial⟩
  | .boundText _ e, h => by
    rw [items]
    exact ⟨h _ List.mem_cons_self e rfl, trivial⟩
  | .misplaced _, _ => by
    rw [items]
    trivial
  | .element _ _ parts children, h => by
    rw [visits] at h
    simp only [List.cons_append, List.forall_mem_cons, List.forall_mem_append] at h
    obtain ⟨-, ⟨hparts, hchildren⟩, -⟩ := h
    rw [items, List.cons_append]
    refine ⟨trivial, Item.bindsAll_append.mpr ⟨parts.bindsAll_items hparts, Item.bindsAll_append.mpr ?_⟩⟩
    exact ⟨bindsAll_itemsAll children hchildren, trivial, trivial⟩
  | .template _ _ parts vars children, h => by
    rw [visits] at h
    simp only [List.cons_append, List.forall_mem_cons, List.forall_mem_append] at h
    obtain ⟨-, ⟨⟨hparts, hchildren⟩, -⟩, -⟩ := h
    rw [items, List.cons_append]
    refine ⟨trivial, Item.bindsAll_append.mpr ⟨parts.bindsAll_items hparts, ?_, trivial⟩⟩
    exact bindsAll_itemsAll children hchildren

/-- The items of nodes have the values of the nodes. -/
theorem bindsAll_itemsAll : ∀ ns : List Node, (∀ v ∈ visitsAll ns, ∀ e, v.value? = some e → Q e) →
    Item.BindsAll Q R (itemsAll ns)
  | [], _ => by
    rw [itemsAll]
    trivial
  | n :: ns, h => by
    rw [visitsAll, List.forall_mem_append] at h
    rw [itemsAll]
    exact Item.bindsAll_append.mpr ⟨bindsAll_items n h.1, bindsAll_itemsAll ns h.2⟩

end

end Node

/-- The items of a whole template have the values of the template and its queries. -/
theorem TemplateSettings.bindsAll_items {settings : TemplateSettings} {nodes : List Node}
    (hQ : ∀ e ∈ Node.values nodes, Q e) (hR : ∀ q ∈ settings.queries, R q) :
    Item.BindsAll Q R (settings.items nodes) := by
  have hnodes : Item.BindsAll Q R (Node.itemsAll nodes) :=
    Node.bindsAll_itemsAll nodes fun v hv e he => hQ e (List.mem_filterMap.mpr ⟨v, hv, he⟩)
  refine ⟨trivial, Item.bindsAll_append.mpr ⟨Item.bindsAll_iff.mpr fun i hi => ?_, hnodes⟩⟩
  obtain ⟨q, hq, rfl⟩ := List.mem_map.mp hi
  exact hR q (settings.ownQueries_subset hq)

end Binds

/-! ### Other names -/

namespace Names

variable {x : Text} {k : Nat}

theorem ne_eventName_of_ending {y : Text} (h : x.ending = y) (hy : y ≠ "nt") : x ≠ eventName := by
  rintro rfl
  exact hy (h.symm.trans (by decide))

theorem Local.ne_eventName (h : Local x) : x ≠ eventName := ne_eventName_of_ending h.ending (by decide)

theorem Context.ne_eventName (h : Context x) : x ≠ eventName := ne_eventName_of_ending h.ending (by decide)

theorem OfTemplate.ne_eventName (h : OfTemplate k x) : x ≠ eventName :=
  ne_eventName_of_ending h.ending (by decide)

theorem OfBinding.ne_eventName (h : OfBinding k x) : x ≠ eventName := by
  rcases h.ending with hx | ⟨c, -, hx⟩
  · exact ne_eventName_of_ending hx (by decide)
  · refine ne_eventName_of_ending hx fun heq => ?_
    injection heq with _ htail
    injection htail with hb
    exact absurd hb (by decide)

end Names

theorem IsConstantName.ne_eventName {x : Text} (h : IsConstantName x) : x ≠ eventName := by
  obtain ⟨n, rfl⟩ := h
  exact Names.ne_eventName_of_ending (Text.ending_append_ofNat [] (by decide) n) (by decide)

theorem Pool.parameter_ne_eventName (n : Nat) : parameter n ≠ eventName := nofun

/-! ### Names in force -/

/-- A variable that is not the event, unless its name is, with a value that does not read the event. -/
structure ScopeEntry.EventFree (names : Names) (name : Text) (e : ScopeEntry) : Prop where
  var : name ≠ eventName → e.var ≠ eventName
  value : ∀ t, e.value = some t → eventName ∉ t.unhandled names

/-- No name in force but that of the event stands for it, and no variable has a value that reads it. -/
def Lexicon.EventFree (names : Names) (L : Lexicon) : Prop :=
  ∀ p ∈ L.env.flatten, p.2.EventFree names p.1

namespace Lexicon.EventFree

variable {names : Names} {L : Lexicon}

theorem addReferences (refs : List Named) : ∀ {slot : Nat} {L : Lexicon}, L.EventFree names →
    (L.addReferences slot refs).EventFree names := by
  induction refs with
  | nil => exact fun h => h
  | cons r rs ih =>
      intro slot L h
      have hlocal : Names.Local L.nextVar := ⟨[], L.fresh, rfl⟩
      refine ih (forall_bind h ⟨fun _ => hlocal.ne_eventName, fun t ht => ?_⟩)
      cases ht
      exact Instruction.notMem_unhandled_call (List.forall_mem_singleton.mpr (Term.notMem_unhandled_ofValue _))

theorem addVariables {parameter : Text} (hparameter : parameter ≠ eventName) (vars : List Named) :
    ∀ {L : Lexicon}, L.EventFree names → (L.addVariables parameter vars).EventFree names := by
  induction vars with
  | nil => exact fun h => h
  | cons v vs ih =>
      intro L h
      have hlocal : Names.Local (v.name ++ L.nextVar) :=
        ⟨v.name, L.fresh, by rw [nextVar, List.append_assoc]⟩
      refine ih (forall_bind h ⟨fun _ => hlocal.ne_eventName, fun t ht => ?_⟩)
      cases ht
      change eventName ∉ (Term.ofVar parameter).unhandled names
      exact Term.notMem_unhandled_ofVar hparameter

theorem root : Lexicon.root.EventFree names := by
  intro p hp
  rw [List.mem_singleton.mp hp]
  exact ⟨fun hne => absurd rfl hne, fun _ h => nomatch h⟩

end Lexicon.EventFree

/-! ### Bindings -/

section Codes

variable {settings : TemplateSettings} {f : Assembly} {L : Lexicon}

/-- A name other than the event's stands for another variable. -/
theorem Lexicon.Finds.eventFree {name : Text} {t : Term} (h : L.Finds f.scopes name (some (.term t)))
    (hL : L.EventFree f.pool.names) (hname : name ≠ eventName) : eventName ∉ t.unhandled f.pool.names := by
  obtain ⟨b, hb, heq⟩ := Option.map_eq_some_iff.mp h.1.symm
  rw [← Found.term.inj heq]
  exact Term.notMem_unhandled_ofVar ((hL (name, b) (Env.mem_flatten_of_find? hb)).var hname)

theorem Pool.Constant.eventFree {t : Term} (h : f.pool.Constant t) (hpool : f.pool.Sound) :
    eventName ∉ t.unhandled f.pool.names := fun hx => (hpool.of_mem_unhandled h hx).ne_eventName rfl

/-- Interpolations read what their arguments read. -/
theorem eventFree_interpolation {names : Names} {e : Expr} {args : List Term} {t : Term}
    (hargs : ∀ u ∈ args, eventName ∉ u.unhandled names) (h : settings.interpolation e args = .ok t) :
    eventName ∉ t.unhandled names := by
  have hdrop : ∀ u ∈ args.drop 1, eventName ∉ u.unhandled names := fun u hu =>
    hargs u (List.drop_subset 1 args hu)
  obtain ⟨n, vs, rfl, rfl | rfl⟩ := passesOn_interpolation settings e args t h
  · exact Instruction.notMem_unhandled_call hdrop
  · exact Instruction.notMem_unhandled_call
      (List.forall_mem_singleton.mpr (Term.notMem_unhandled_ofList hdrop))

/-- Builtins read what their arguments read, and constants. -/
theorem BuiltinCode.eventFree {kind : Builtin} {ts : List Term} {t : Term}
    (h : BuiltinCode f.pool kind ts t) (hpool : f.pool.Sound) (hcalls : ∀ g, kind = .call g → g ≠ eventName)
    (hts : ∀ u ∈ ts, eventName ∉ u.unhandled f.pool.names) : eventName ∉ t.unhandled f.pool.names := by
  have hnat : ∀ n, eventName ∉ (Term.ofNat n).unhandled f.pool.names := fun _ =>
    Term.notMem_unhandled_ofValue _
  cases h with
  | constant _ _ ht => exact ht.eventFree hpool
  | @pure _ _ slot factory _ hfactory =>
      have hname : eventName ∉ (Term.ofVar factory).unhandled f.pool.names :=
        Term.notMem_unhandled_ofVar (hpool.isConstantName hfactory).ne_eventName
      refine Instruction.notMem_unhandled_call (List.forall_mem_cons.mpr ⟨hnat slot,
        List.forall_mem_cons.mpr ⟨hname, Instruction.notMem_unhandled_spread fun u hu => ?_⟩⟩)
      exact hts u (Builtin.used_subset kind ts (List.mem_of_mem_filter hu))
  | pipe =>
      exact Instruction.notMem_unhandled_call (List.forall_mem_cons.mpr ⟨hnat _,
        List.forall_mem_cons.mpr ⟨hnat _, Instruction.notMem_unhandled_spread hts⟩⟩)
  | call => exact Term.notMem_unhandled_apply (Term.notMem_unhandled_ofVar (hcalls _ rfl)) hts

/-- What is put together without asking for the event does not read it. -/
theorem closed_eventFree (hpool : f.pool.Sound) (hL : L.EventFree f.pool.names) (e : Expr) (k N : Nat) :
    (valueAnswers L (settings.interpolation e) f).Closed (.ofNat k) N
      (fun x => x.asked? ≠ some eventName) fun t => eventName ∉ t.unhandled f.pool.names where
  context := Term.notMem_unhandled_ofVar (Names.Context.ne_eventName (.inl rfl))
  found {e name t} he hmember hfound := by
    refine Lexicon.Finds.eventFree hfound hL fun heq => he ?_
    rw [Expr.asked?, hmember.resolve_left valueAnswers_not_aliased, heq]
    rfl
  temporary {d} _ := Term.notMem_unhandled_ofVar (Names.OfBinding.ne_eventName (k := k) (.inr ⟨d, rfl⟩))
  value v := Term.notMem_unhandled_ofValue v
  prop _ h := h
  key h h' := List.not_mem_append h h'
  operation _ _ h h' := List.not_mem_append h h'
  choose h h' h'' := List.not_mem_append h (List.not_mem_append h' h'')
  negate h := h
  assertPresent h := h
  erased h := h
  apply h hts := Term.notMem_unhandled_apply h hts
  applyMethod _ h hts := List.not_mem_append h (Term.notMem_unhandledAll hts)
  interpolate h ht := eventFree_interpolation h ht
  builtin he _ hts ht := ht.eventFree hpool (fun g hg heq => he (by rw [hg, heq]; rfl)) hts

theorem ValueCode.eventFree_code {u : TemplateUnit} {e : Expr} {v : LoweredValue}
    (h : ValueCode settings f L u e v) (hpool : f.pool.Sound) (hL : L.EventFree f.pool.names)
    (he : e.EventFree) : eventName ∉ v.made.code.unhandled f.pool.names := by
  refine (closed_eventFree hpool hL v.expr u.bindings v.count).code h.code (Nat.le_refl _)
    (h.converted.kept _ (fun _ _ hx hy => ?_) ⟨he, trivial⟩).1
  rwa [Expr.asked?, hy.member, hy.function]

/-- The statements of a value and its use read what its code reads. -/
theorem LoweredValue.eventFree {names : Names} {v : LoweredValue} (h : eventName ∉ v.made.code.unhandled names)
    (b : Nat) : eventName ∉ Stmt.unhandledAll names (v.statements b) ∧
      eventName ∉ (v.passed b).unhandled names := by
  have hstatements : eventName ∉ Stmt.unhandledAll names (v.statements b) := by
    unfold LoweredValue.statements
    split
    · exact List.not_mem_nil
    · refine Stmt.notMem_unhandledAll_append.mpr ⟨Stmt.notMem_unhandledAll.mpr fun s hs => ?_,
        Stmt.notMem_unhandledAll_singleton h⟩
      obtain ⟨k, -, rfl⟩ := List.mem_map.mp hs
      exact List.not_mem_nil
  have hvalue : eventName ∉ (v.value b).unhandled names := by
    unfold LoweredValue.value
    split
    · exact h
    · exact Term.notMem_unhandled_ofVar (Names.OfBinding.ne_eventName (k := b) (.inl rfl))
  refine ⟨hstatements, ?_⟩
  unfold LoweredValue.passed
  split
  · exact hvalue
  · exact Instruction.notMem_unhandled_call (List.forall_mem_singleton.mpr hvalue)

theorem ValueCode.eventFree {u : TemplateUnit} {e : Expr} {v : LoweredValue}
    (h : ValueCode settings f L u e v) (hpool : f.pool.Sound) (hL : L.EventFree f.pool.names)
    (he : e.EventFree) {i : Instruction} {args rest : List Term}
    {span : Option SourceSpan} (hargs : ∀ t ∈ args ++ rest, ∃ value, t = .ofValue value) :
    eventName ∉ Stmt.unhandledAll f.pool.names
      (v.statements u.bindings ++ [i.stmt (args ++ v.passed u.bindings :: rest) span]) := by
  obtain ⟨hstatements, hpassed⟩ := LoweredValue.eventFree (h.eventFree_code hpool hL he) u.bindings
  have hvalues : ∀ t ∈ args ++ rest, eventName ∉ t.unhandled f.pool.names := by
    intro t ht
    obtain ⟨value, rfl⟩ := hargs t ht
    exact Term.notMem_unhandled_ofValue value
  obtain ⟨hargs, hrest⟩ := List.forall_mem_append.mp hvalues
  exact Stmt.notMem_unhandledAll_append.mpr ⟨hstatements, Instruction.notMem_unhandledAll_stmt
    (List.forall_mem_append.mpr ⟨hargs, List.forall_mem_cons.mpr ⟨hpassed, hrest⟩⟩)⟩

/-! ### Queries -/

/-- The creation of a query reads the types that it was given, and constants. -/
theorem Query.eventFree_created (hpool : f.pool.Sound)
    (hgiven : settings.EventFree f.pool.names) {q : Query}
    (hq : q ∈ settings.queries) {predicate : Term} (h : PredicateCode f.pool q predicate) (slot : Nat) :
    eventName ∉ Stmt.unhandledAll f.pool.names [q.created slot predicate] := by
  have hpredicate : eventName ∉ predicate.unhandled f.pool.names := by
    cases h with
    | constant ht => exact ht.eventFree hpool
    | type ht => exact hgiven _ _ (.type hq ht)
    | deferred ht =>
        exact Instruction.notMem_unhandled_call (List.forall_mem_singleton.mpr (hgiven _ _ (.deferred hq ht)))
  have hread : ∀ t ∈ q.read.toList, eventName ∉ t.unhandled f.pool.names := fun t ht =>
    hgiven _ t (.read hq (Option.mem_toList.mp ht))
  refine Instruction.notMem_unhandledAll_stmt (List.forall_mem_append.mpr ⟨?_, hread⟩)
  exact List.forall_mem_cons.mpr ⟨Term.notMem_unhandled_ofValue _, List.forall_mem_cons.mpr
    ⟨hpredicate, List.forall_mem_singleton.mpr (Term.notMem_unhandled_ofValue _)⟩⟩

/-- The refreshment of a query reads the variable for results and the context. -/
theorem Query.eventFree_refresh {names : Names} (q : Query) (slot : Nat) :
    eventName ∉ (q.refresh slot).unhandled names := by
  have hcontext : eventName ∉ (Term.ofVar contextName).unhandled names :=
    Term.notMem_unhandled_ofVar (by decide)
  have hresults : eventName ∉ (Term.ofVar queryTemporary).unhandled names :=
    Term.notMem_unhandled_ofVar (by decide)
  have hload : eventName ∉ (Instruction.load.call [.ofNat slot]).unhandled names :=
    Instruction.notMem_unhandled_call (List.forall_mem_singleton.mpr (Term.notMem_unhandled_ofValue _))
  have hset : eventName ∉
      (Term.set (.ofVar queryTemporary) (Instruction.load.call [.ofNat slot])).unhandled names :=
    List.not_mem_append hresults hload
  refine List.not_mem_append (Instruction.notMem_unhandled_call (List.forall_mem_singleton.mpr hset))
    (List.not_mem_append hcontext ?_)
  split
  · exact hresults
  · exact hresults

theorem Query.eventFree_refreshes {names : Names} : ∀ (qs : List Query) (slot : Nat),
    eventName ∉ Stmt.unhandledAll names (refreshes slot qs)
  | [], _ => List.not_mem_nil
  | q :: qs, slot => List.not_mem_append (q.eventFree_refresh slot) (eventFree_refreshes qs (slot + 1))

theorem CreationsCode.eventFree (hpool : f.pool.Sound)
    (hgiven : settings.EventFree f.pool.names) {slot : Nat}
    {qs : List Query} {ss : List Stmt} (h : CreationsCode f.pool slot qs ss)
    (hqs : ∀ q ∈ qs, q ∈ settings.queries) : eventName ∉ Stmt.unhandledAll f.pool.names ss := by
  induction h with
  | nil => exact List.not_mem_nil
  | @cons slot q qs t ss ht _ ih =>
      obtain ⟨hq, hqs⟩ := List.forall_mem_cons.mp hqs
      change eventName ∉ Stmt.unhandledAll f.pool.names ([q.created slot t] ++ ss)
      exact Stmt.notMem_unhandledAll_append.mpr ⟨Query.eventFree_created hpool hgiven hq ht slot, ih hqs⟩

theorem Query.eventFree_temporaries {names : Names} (qs : List Query) :
    eventName ∉ Stmt.unhandledAll names (temporaries qs) := by
  unfold temporaries
  split
  · exact List.not_mem_nil
  · exact List.not_mem_nil

end Codes

/-! ### Units so far -/

/-- A unit so far reads the event in listeners only. -/
structure Stage.EventFree (names : Names) (g : Stage) : Prop where
  inForce : g.names.EventFree names
  creation : eventName ∉ Stmt.unhandledAll names g.unit.creation
  update : eventName ∉ Stmt.unhandledAll names g.unit.update
  nested : eventName ∉ Stmt.unhandledAll names g.unit.nested

theorem Stage.EventFree.grow {names : Names} {g g' : Stage} (h : g.EventFree names) {cs us : List Stmt}
    (hnames : g'.names.EventFree names) (hcreation : g'.unit.creation = g.unit.creation ++ cs)
    (hcs : eventName ∉ Stmt.unhandledAll names cs) (hupdate : g'.unit.update = g.unit.update ++ us)
    (hus : eventName ∉ Stmt.unhandledAll names us) (hnested : g'.unit.nested = g.unit.nested) :
    g'.EventFree names := by
  refine ⟨hnames, ?_, ?_, ?_⟩
  · rw [hcreation]
    exact Stmt.notMem_unhandledAll_append.mpr ⟨h.creation, hcs⟩
  · rw [hupdate]
    exact Stmt.notMem_unhandledAll_append.mpr ⟨h.update, hus⟩
  · rw [hnested]
    exact h.nested

section Units

variable {settings : TemplateSettings} {f : Assembly}

/-- The places of pipes read nothing. -/
theorem Pipe.eventFree {names : Names} (ps : List Pipe) :
    eventName ∉ Stmt.unhandledAll names (ps.map Pipe.stmt) := by
  refine Stmt.notMem_unhandledAll.mpr fun s hs => ?_
  obtain ⟨p, -, rfl⟩ := List.mem_map.mp hs
  exact Instruction.notMem_unhandled_stmt (List.forall_mem_cons.mpr ⟨Term.notMem_unhandled_ofValue _,
    List.forall_mem_singleton.mpr (Term.notMem_unhandled_ofValue _)⟩)

theorem ItemCode.eventFree (hpool : f.pool.Sound)
    (hgiven : settings.EventFree f.pool.names) {i : Item} {g g' : Stage}
    (h : ItemCode settings f i g g')
    (hi : i.Binds Expr.EventFree (· ∈ settings.queries))
    (hg : g.EventFree f.pool.names) : g'.EventFree f.pool.names := by
  have hnone : eventName ∉ Stmt.unhandledAll f.pool.names [] := List.not_mem_nil
  have hconstants : ∀ {i : Instruction} {args : List Term} {span : Option SourceSpan},
      (∀ t ∈ args, f.pool.Constant t) → eventName ∉ Stmt.unhandledAll f.pool.names [i.stmt args span] :=
    fun h => Instruction.notMem_unhandledAll_stmt fun t ht => (h t ht).eventFree hpool
  cases h with
  | none => exact hg
  | mark _ hargs =>
      exact hg.grow hg.inForce rfl (hconstants hargs) (List.append_nil _).symm hnone rfl
  | leaf _ hargs =>
      exact hg.grow hg.inForce rfl (hconstants (Pool.constant_ofNat_cons hargs)) (List.append_nil _).symm
        hnone rfl
  | @query L u a q predicate ht =>
      exact hg.grow hg.inForce rfl (Query.eventFree_created hpool hgiven hi ht u.slots) rfl
        (Stmt.notMem_unhandledAll_singleton (q.eventFree_refresh u.slots)) rfl
  | @boundText L u u₁ a e v span span' hu hv =>
      have hslot : ∀ t ∈ [Term.ofNat u.slots] ++ [], ∃ value, t = .ofValue value :=
        List.forall_mem_singleton.mpr ⟨_, rfl⟩
      have htext : eventName ∉ Stmt.unhandledAll f.pool.names [Instruction.text.stmt [.ofNat u.slots] span] :=
        hconstants (Pool.constant_ofNat_cons (List.forall_mem_nil _))
      rw [hu] at hv ⊢
      exact hg.grow hg.inForce (List.append_assoc ..)
        (Stmt.notMem_unhandledAll_append.mpr ⟨htext, Pipe.eventFree v.pipes⟩) (List.append_assoc ..)
        (hv.eventFree hpool hg.inForce hi hslot) rfl
  | @element L u a refs space i switch args span _ hswitch hargs =>
      have hspace : eventName ∉ Stmt.unhandledAll f.pool.names switch := by
        rcases hswitch with rfl | ⟨-, rfl⟩
        · exact hnone
        · exact hconstants (List.forall_mem_nil _)
      exact hg.grow (hg.inForce.addReferences refs) rfl (Stmt.notMem_unhandledAll_append.mpr
        ⟨hspace, hconstants (Pool.constant_ofNat_cons hargs)⟩) (List.append_nil _).symm hnone rfl
  | @container L u a refs only args span hargs =>
      have hinner : u.innerName only u.slots ≠ eventName :=
        Names.OfTemplate.ne_eventName (k := u.slots) ⟨u.innerFront only, rfl⟩
      refine hg.grow (hg.inForce.addReferences refs) rfl (Instruction.notMem_unhandledAll_stmt ?_)
        (List.append_nil _).symm hnone rfl
      refine List.forall_mem_cons.mpr ⟨Term.notMem_unhandled_ofValue _, List.forall_mem_cons.mpr
        ⟨Term.notMem_unhandled_ofVar hinner, fun t ht => (hargs t ht).eventFree hpool⟩⟩
  | @output L u a o fn id count ts event span hhandler =>
      have htakes : eventName ∈ fn.params := hhandler.params ▸ List.mem_cons_self
      exact hg.grow hg.inForce rfl (Instruction.notMem_unhandledAll_listener htakes event span)
        (List.append_nil _).symm hnone rfl
  | @input L u a i instruction v unit span _ hv hunit =>
      exact hg.grow hg.inForce rfl (Pipe.eventFree v.pipes) (List.append_assoc ..)
        (hv.eventFree hpool hg.inForce hi (inputArguments_values a i.name hunit)) rfl

/-! ### Whole units -/

theorem Stage.EventFree.start {names : Names} {L : Lexicon} (hL : L.EventFree names) (u : TemplateUnit)
    (a : Nat) : Stage.EventFree names ⟨L, u.blank, a⟩ :=
  ⟨hL, List.not_mem_nil, List.not_mem_nil, List.not_mem_nil⟩

/-- Statements under a flag, if there are any. -/
theorem TemplateUnit.eventFree_phase {names : Names} {ss : List Stmt}
    (h : eventName ∉ Stmt.unhandledAll names ss) (flag : Nat) :
    eventName ∉ Stmt.unhandledAll names (phase flag ss) := by
  unfold phase
  split
  · exact List.not_mem_nil
  · exact Stmt.notMem_unhandledAll_singleton (notMem_unhandled_onFlag (by decide) h)

/-- What a scope declares does not read the event. -/
theorem Lexicon.Settled.eventFree {L : Lexicon} (h : L.Settled f) (hL : L.EventFree f.pool.names) :
    eventName ∉ Stmt.unhandledAll f.pool.names (f.scopes.declarations L.id) := by
  rw [ScopeTree.declarations_eq_map]
  refine Stmt.notMem_unhandledAll.mpr fun s hs => ?_
  obtain ⟨d, hd, rfl⟩ := List.mem_map.mp hs
  obtain ⟨p, hp, -, ht⟩ := h.exists_binding hd
  exact (hL p hp).value d.2 ht

/-- The function of a unit keeps the event to listeners. -/
theorem Stage.EventFree.function {g : Stage} (hg : g.EventFree f.pool.names) (hsettled : g.names.Settled f)
    (qs : List Query) : eventName ∉ Stmt.unhandledAll f.pool.names
      (g.unit.function (Query.temporaries qs) (f.scopes.declarations g.names.id)).body := by
  have hreservation : eventName ∉ Stmt.unhandledAll f.pool.names g.unit.reservation := by
    unfold TemplateUnit.reservation
    split
    · exact List.not_mem_nil
    · exact Instruction.notMem_unhandledAll_stmt
        (List.forall_mem_singleton.mpr (Term.notMem_unhandled_ofValue _))
  have hcreation := Stmt.notMem_unhandledAll_append.mpr ⟨hg.creation, hreservation⟩
  simp only [TemplateUnit.function, Stmt.notMem_unhandledAll_append]
  exact ⟨⟨⟨⟨Query.eventFree_temporaries qs, TemplateUnit.eventFree_phase hcreation _⟩,
    hsettled.eventFree hg.inForce⟩, TemplateUnit.eventFree_phase hg.update _⟩, hg.nested⟩

mutual

/-- An item, or a template with all that is in it, keeps the event to listeners. -/
theorem Step.eventFree (hpool : f.pool.Sound)
    (hgiven : settings.EventFree f.pool.names) :
    ∀ {i : Item} {g g' : Stage}, Step settings f i g g' →
    i.Binds Expr.EventFree (· ∈ settings.queries) →
    g.EventFree f.pool.names → g'.EventFree f.pool.names
  | _, _, _, .item h, hi, hg => h.eventFree hpool hgiven hi hg
  | _, _, _, @Step.nested _ _ L u a id only vars items g h hsettled, hi, hg => by
    have hparameter : u.innerParameter ≠ eventName := Names.Context.ne_eventName (.inr ⟨u.level, rfl⟩)
    have hL : (L.enter id).EventFree f.pool.names := hg.inForce
    have hstart : Stage.EventFree f.pool.names ⟨(L.enter id).addVariables u.innerParameter vars, _, 0⟩ :=
      .start (hL.addVariables hparameter vars) (u.inner only a id) 0
    have hend := Steps.eventFree hpool hgiven h hi hstart
    have hid : g.names.id = id := h.id_eq.trans (Lexicon.id_addVariables ..)
    have hfunction := hend.function hsettled []
    rw [hid] at hfunction
    refine ⟨hg.inForce, hg.creation, hg.update, ?_⟩
    exact Stmt.notMem_unhandledAll_append.mpr
      ⟨hg.nested, Stmt.notMem_unhandledAll_singleton hfunction⟩

/-- Items keep the event to listeners. -/
theorem Steps.eventFree (hpool : f.pool.Sound)
    (hgiven : settings.EventFree f.pool.names) :
    ∀ {is : List Item} {g g' : Stage}, Steps settings f is g g' →
    Item.BindsAll Expr.EventFree (· ∈ settings.queries) is →
    g.EventFree f.pool.names → g'.EventFree f.pool.names
  | _, _, _, .nil, _, hg => hg
  | _, _, _, .cons h hs, his, hg =>
    Steps.eventFree hpool hgiven hs his.2 (Step.eventFree hpool hgiven h his.1 hg)

end

variable {nodes : List Node} {c : CompiledTemplate} {g : Stage}

/-- The function of a template reads the event in listeners only. -/
theorem Compiled.eventFree_template (h : Compiled settings nodes c f g)
    (hgiven : settings.EventFree f.pool.names) (hasked : eventName ∉ Node.asked nodes) :
    eventName ∉ Stmt.unhandledAll f.pool.names c.template.body := by
  have hcontext : contextName ≠ eventName := Names.Context.ne_eventName (.inl rfl)
  have hitems : Item.BindsAll Expr.EventFree (· ∈ settings.queries) (settings.items nodes) := by
    refine settings.bindsAll_items (fun e he => (Expr.every_iff_nodes e).mpr fun x hx hevent => ?_) fun _ => id
    exact hasked (List.mem_filterMap.mpr ⟨x, Expr.mem_nodesAll.mpr ⟨e, he, hx⟩, hevent⟩)
  have hstart : settings.start.EventFree f.pool.names :=
    .start (Lexicon.EventFree.root.addVariables hcontext settings.vars) settings.rootUnit 0
  have hend := Steps.eventFree h.sound hgiven h.steps hitems hstart
  have hid : g.names.id = settings.rootUnit.scope := h.steps.id_eq.trans (Lexicon.id_addVariables ..)
  rw [h.template, ← hid]
  exact hend.function h.settled settings.ownQueries

/-- A function for the queries of a component does not read the event. -/
theorem Compiled.eventFree_viewQuery (h : Compiled settings nodes c f g)
    (hgiven : settings.EventFree f.pool.names) {fn : FunctionCode} (hfn : c.viewQuery = some fn) :
    eventName ∉ Stmt.unhandledAll f.pool.names fn.body := by
  have hflags : eventName ≠ renderFlags := by decide
  obtain ⟨ss, hcreations, -, hbody⟩ := h.viewQuery fn hfn
  have hcreated := hcreations.eventFree h.sound hgiven fun _ => id
  have hrefreshed : eventName ∉ Stmt.unhandledAll f.pool.names (Query.refreshes 0 settings.queries) :=
    Query.eventFree_refreshes settings.queries 0
  rw [hbody]
  refine Stmt.notMem_unhandledAll_append.mpr ⟨Query.eventFree_temporaries _, Stmt.notMem_unhandledAll.mpr ?_⟩
  exact List.forall_mem_cons.mpr ⟨notMem_unhandled_onFlag hflags hcreated,
    List.forall_mem_singleton.mpr (notMem_unhandled_onFlag hflags hrefreshed)⟩

end Units

/-- If no bound text and no input asks for the event, and the types of queries do not read it, then a
compiled template reads it in listeners only, which have it as their parameter. The pool may have been used
before. -/
theorem event_handled {settings : TemplateSettings} {nodes : List Node} {c : CompiledTemplate}
    {pool pool' : Pool} (hpool : pool.Sound) (hgrown : Pool.le {} pool)
    (h : compileTemplate settings nodes pool = (.ok c, pool')) (hasked : eventName ∉ Node.asked nodes)
    (hgiven : ∀ g t, settings.Given g t → eventName ∉ t.variables) :
    eventName ∉ Stmt.unhandledAll pool'.names c.declarations := by
  obtain ⟨f, g, rfl, hcompiled, hle⟩ := compiled_and_le_of_compileTemplate hpool h
  have hnames : ∀ key, f.pool.names key ≠ some eventName := fun key hkey =>
    (hcompiled.sound.isConstantName (hcompiled.sound.names key _ hkey)).ne_eventName rfl
  have hgiven : settings.EventFree f.pool.names := fun g t ht =>
    Term.notMem_unhandled hnames t fun u hu hvar =>
      hgiven g t ht (List.mem_filterMap.mpr ⟨u, hu, hvar⟩)
  have hstatements : eventName ∉ Stmt.unhandledAll f.pool.names f.pool.statements := by
    intro hx
    rcases hcompiled.sound.of_mem_unhandledAll (hgrown.trans hle) hx with hconstant | ⟨n, hparameter⟩
    · exact hconstant.ne_eventName rfl
    · exact Pool.parameter_ne_eventName n hparameter.symm
  have hquery : eventName ∉
      Stmt.unhandledAll f.pool.names (c.viewQuery.map FunctionCode.declaration).toList := by
    cases hfn : c.viewQuery with
    | none => exact List.not_mem_nil
    | some fn =>
        exact Stmt.notMem_unhandledAll_singleton (hcompiled.eventFree_viewQuery hgiven hfn)
  have htemplate : eventName ∉ Stmt.unhandledAll f.pool.names [c.template.declaration] :=
    Stmt.notMem_unhandledAll_singleton (hcompiled.eventFree_template hgiven hasked)
  rw [CompiledTemplate.declarations, hcompiled.statements]
  exact Stmt.notMem_unhandledAll_append.mpr
    ⟨Stmt.notMem_unhandledAll_append.mpr ⟨hstatements, hquery⟩, htemplate⟩

namespace Sample

theorem event_handled_reading : ∃ c pool, compileTemplate ownFunction reading {} = (.ok c, pool) ∧
    eventName ∈ Stmt.variablesAll c.declarations ∧
      eventName ∉ Stmt.unhandledAll pool.names c.declarations := by
  obtain ⟨c, pool, h⟩ := exists_compiled_of_isOk
    (by decide +kernel : (compileTemplate ownFunction reading {}).1.isOk = true)
  have hread : (compileTemplate ownFunction reading {}).1.map
      (fun c => (Stmt.variablesAll c.declarations).contains eventName) = .ok true := by decide +kernel
  rw [h] at hread
  have hgiven : ∀ g t, ownFunction.Given g t → eventName ∉ t.variables := by
    rintro g t (⟨hq, ht⟩ | ⟨hq, ht⟩ | ⟨hq, ht⟩) <;>
      simp only [ownFunction, List.mem_cons, List.not_mem_nil, or_false] at hq <;>
      rcases hq with rfl | rfl <;> cases ht <;> decide
  exact ⟨c, pool, h, List.contains_iff_mem.mp (Except.ok.inj hread),
    event_handled .empty (.refl _) h (by decide +kernel) hgiven⟩

def showing : List Node :=
  let p : Place := ⟨none, none⟩
  [.boundText none (.interpolation p ["", ""] [.read p (.context p) "$event"])]

def showingCode : List Stmt :=
  [.function none {} "Template" [renderFlags, contextName]
    [onFlag createFlag [Instruction.text.stmt [.ofNat 0]],
      onFlag updateFlag [Instruction.textBinding.stmt
        [.ofNat 0, (Instruction.interpolation 1).call [.ofText "", .ofVar eventName, .ofText ""]]]]]

theorem event_unhandled_showing : ∃ c pool, compileTemplate {} showing {} = (.ok c, pool) ∧
    (∀ g t, ¬TemplateSettings.Given {} g t) ∧ eventName ∈ Stmt.unhandledAll pool.names c.declarations := by
  obtain ⟨c, pool, h⟩ := exists_compiled_of_isOk
    (by decide +kernel : (compileTemplate {} showing {}).1.isOk = true)
  have hcode : (compileTemplate {} showing {}).1.map CompiledTemplate.declarations = .ok showingCode := rfl
  rw [h] at hcode
  have hreads : Stmt.unhandledAll pool.names showingCode = [renderFlags, renderFlags, eventName] := rfl
  refine ⟨c, pool, h, ?_, ?_⟩
  · rintro g t (⟨hq, -⟩ | ⟨hq, -⟩ | ⟨hq, -⟩) <;> cases hq
  · rw [Except.ok.inj hcode, hreads]
    decide

end Sample

end TemplateCompiler
