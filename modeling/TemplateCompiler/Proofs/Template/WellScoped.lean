import TemplateCompiler.Proofs.Template.Units
import TemplateCompiler.Proofs.Template.Visible

/-!
# Compiled templates are well scoped

Every variable that compiled code reads is bound, and no function declares a name twice.

* `Item.Planned` : items as they come from nodes, where a template follows its place;
* `Creating`, `Updating`, `Nesting` : what the three parts of a unit may read and declare. Parts of the
  same kind can stand one after the other;
* `Stage.Scoped` : all this holds of a unit so far. Each item keeps it (`Step.scoped`), so a whole unit
  has it (`Steps.scoped`), and then the function of the unit is scoped (`Stage.Scoped.scoped_function`)
  and declares no name twice (`Stage.Scoped.nodup_function`);
* `declarations_wellScoped` : the declarations of a compiled template.
-/

namespace TemplateCompiler

/-! ### What code reads on behalf of others -/

/-- The expression of something met in a tree. -/
def Visit.expression? : Visit → Option Expr
  | .node (.boundText _ e) => some e
  | .part (.input i) => some i.value
  | .part (.output o) => some o.handler
  | _ => none

namespace Node

def expressions (nodes : List Node) : List Expr := (visitsAll nodes).filterMap Visit.expression?

/-- The functions that builtins in a forest call. -/
def called (nodes : List Node) : List Text := (Expr.nodesAll (expressions nodes)).filterMap Expr.function?

end Node

/-- The types that queries look for and read are written into their instructions as they are. -/
inductive TemplateSettings.Given (settings : TemplateSettings) : Term → Term → Prop
  | type {q : Query} {t : Term} : q ∈ settings.queries → q.predicate = .type t false →
      Given settings (.imported coreModule Instruction.query.name) t
  | deferred {q : Query} {t : Term} : q ∈ settings.queries → q.predicate = .type t true →
      Given settings (.imported coreModule Instruction.resolveForwardRef.name) t
  | read {q : Query} {t : Term} : q ∈ settings.queries → q.read = some t →
      Given settings (.imported coreModule Instruction.query.name) t

/-! ### Items in order -/

namespace Item

variable (settings : TemplateSettings) (Q : Expr → Prop)

mutual

/-- An item that may stand where the place of a template may be pending, and what is pending after it.
All expressions have the property `Q`. -/
inductive Next : (queried : Bool) → Option Text → Item → Option Text → Prop
  | mark {queried : Bool} : Next queried none .mark none
  | leaf {queried : Bool} : Next queried none .leaf none
  | query {q : Query} : q ∈ settings.queries → Next true none (.query q) none
  | boundText {queried : Bool} {e : Expr} : Q e → Next queried none (.boundText e) none
  | element {queried : Bool} {refs : List Named} : Next queried none (.element refs) none
  | container {queried : Bool} {refs : List Named} {only : Text} :
      Next queried none (.container refs only) (some only)
  | output {queried : Bool} {pending : Option Text} {o : Output} : Q o.handler →
      Next queried pending (.output o) pending
  | input {queried : Bool} {pending : Option Text} {i : Input} : Q i.value →
      Next queried pending (.input i) pending
  | nested {queried : Bool} {only : Text} {vars : List Named} {items : List Item} :
      Planned false none items → Next queried (some only) (.nested only vars items) none

/-- Items one after the other, at the end of which nothing is pending. -/
inductive Planned : (queried : Bool) → Option Text → List Item → Prop
  | nil {queried : Bool} : Planned queried none []
  | cons {queried : Bool} {p p' : Option Text} {i : Item} {is : List Item} :
      Next queried p i p' → Planned queried p' is → Planned queried p (i :: is)

end

end Item

section Planned

variable {settings : TemplateSettings} {Q : Expr → Prop} {queried : Bool}

theorem Parts.planned_items {parts : Parts} {p : Option Text} {is : List Item}
    (hinputs : ∀ i ∈ parts.inputs, Q i.value) (houtputs : ∀ o ∈ parts.outputs, Q o.handler)
    (h : Item.Planned settings Q queried p is) : Item.Planned settings Q queried p (parts.items ++ is) := by
  have hinner : Item.Planned settings Q queried p (parts.inputs.map .input ++ is) := by
    generalize parts.inputs = inputs at hinputs
    induction inputs with
    | nil => exact h
    | cons i rest ih =>
        obtain ⟨hi, hrest⟩ := List.forall_mem_cons.mp hinputs
        exact .cons (.input hi) (ih hrest)
  rw [Parts.items, List.append_assoc]
  generalize parts.outputs = outputs at houtputs
  induction outputs with
  | nil => exact hinner
  | cons o rest ih =>
      obtain ⟨ho, hrest⟩ := List.forall_mem_cons.mp houtputs
      exact .cons (.output ho) (ih hrest)

theorem Parts.forall_expressions {parts : Parts}
    (h : ∀ v ∈ parts.visits, ∀ e, v.expression? = some e → Q e) :
    (∀ i ∈ parts.inputs, Q i.value) ∧ ∀ o ∈ parts.outputs, Q o.handler := by
  refine ⟨fun i hi => h (.part (.input i)) ?_ _ rfl, fun o ho => h (.part (.output o)) ?_ _ rfl⟩
  · exact List.mem_append_left _ (List.mem_append_right _ (List.mem_map_of_mem hi))
  · exact List.mem_append_right _ (List.mem_map_of_mem ho)

namespace Node

mutual

theorem planned_items : ∀ (n : Node) {is : List Item} {queried : Bool},
    (∀ v ∈ n.visits, ∀ e, v.expression? = some e → Q e) → Item.Planned settings Q queried none is →
    Item.Planned settings Q queried none (n.items ++ is)
  | .text .., _, _, _, h => by
    rw [items]
    exact .cons .leaf h
  | .content .., _, _, _, h => by
    rw [items]
    exact .cons .leaf h
  | .boundText _ e, _, _, hQ, h => by
    rw [items]
    exact .cons (.boundText (hQ _ List.mem_cons_self e rfl)) h
  | .misplaced _, _, _, _, h => by
    rw [items]
    exact h
  | .element _ _ parts children, is, queried, hQ, h => by
    rw [visits] at hQ
    simp only [List.cons_append, List.forall_mem_cons, List.forall_mem_append] at hQ
    obtain ⟨-, ⟨hparts, hchildren⟩, -⟩ := hQ
    obtain ⟨hinputs, houtputs⟩ := parts.forall_expressions hparts
    rw [items, List.cons_append, List.cons_append, List.append_assoc, List.append_assoc]
    exact .cons .element (Parts.planned_items hinputs houtputs
      (planned_itemsAll children hchildren (.cons .mark h)))
  | .template _ _ parts vars children, is, queried, hQ, h => by
    rw [visits] at hQ
    simp only [List.cons_append, List.forall_mem_cons, List.forall_mem_append] at hQ
    obtain ⟨-, ⟨⟨hparts, hchildren⟩, -⟩, -⟩ := hQ
    obtain ⟨hinputs, houtputs⟩ := parts.forall_expressions hparts
    have hinner : Item.Planned settings Q false none (itemsAll children ++ []) :=
      planned_itemsAll children hchildren .nil
    rw [List.append_nil] at hinner
    rw [items, List.cons_append, List.cons_append, List.append_assoc]
    exact .cons .container (Parts.planned_items hinputs houtputs (.cons (.nested hinner) h))

theorem planned_itemsAll : ∀ (ns : List Node) {is : List Item} {queried : Bool},
    (∀ v ∈ visitsAll ns, ∀ e, v.expression? = some e → Q e) → Item.Planned settings Q queried none is →
    Item.Planned settings Q queried none (itemsAll ns ++ is)
  | [], _, _, _, h => by
    rw [itemsAll]
    exact h
  | n :: ns, is, queried, hQ, h => by
    rw [visitsAll, List.forall_mem_append] at hQ
    rw [itemsAll, List.append_assoc]
    exact planned_items n hQ.1 (planned_itemsAll ns hQ.2 h)

end

end Node

theorem TemplateSettings.planned_items {nodes : List Node} (hQ : ∀ e ∈ Node.expressions nodes, Q e) :
    Item.Planned settings Q (!settings.ownQueries.isEmpty) none (settings.items nodes) := by
  have hnodes : ∀ queried, Item.Planned settings Q queried none (Node.itemsAll nodes) := by
    intro queried
    have h : Item.Planned settings Q queried none (Node.itemsAll nodes ++ []) :=
      Node.planned_itemsAll nodes (fun v hv e he => hQ e (List.mem_filterMap.mpr ⟨v, hv, he⟩)) .nil
    rwa [List.append_nil] at h
  have hqueries : ∀ qs : List Query, (∀ q ∈ qs, q ∈ settings.queries) →
      Item.Planned settings Q (!qs.isEmpty) none (qs.map .query ++ Node.itemsAll nodes) := by
    intro qs hqs
    cases hempty : qs.isEmpty with
    | true =>
        rw [List.isEmpty_iff.mp hempty]
        exact hnodes _
    | false =>
        clear hempty
        induction qs with
        | nil => exact hnodes _
        | cons q qs ih =>
            obtain ⟨hq, hqs⟩ := List.forall_mem_cons.mp hqs
            exact .cons (.query hq) (ih hqs)
  exact .cons .mark (hqueries _ settings.ownQueries_subset)

end Planned

/-! ### The parts of a unit -/

section Parts

variable (settings : TemplateSettings) (f : Assembly) (outermost heads : Text → Prop) (ids : List Nat)

/-- Statements of a first run. They declare nothing and read names of the module and the functions `fns`;
the event handlers in them read what will stand around them. -/
def Creating (fns : Text → Prop) (ss : List Stmt) : Prop :=
  ∀ s ∈ ss, (∃ span t, s = .expr span t) ∧ ∀ now later, (∀ x, outermost x → now x) →
    (∀ x, fns x → now x) → Surrounds f outermost heads ids later →
    s.Scoped f.pool.names settings.Given now later

/-- Statements of updates. They declare the variables of the bindings from `lo` up to `hi`. -/
structure Updating (queried : Bool) (lo hi : Nat) (ss : List Stmt) : Prop where
  reads : ∀ {now later : Text → Prop}, Surrounds f outermost heads ids now →
    Surrounds f outermost heads ids later → (queried = true → now queryTemporary) →
    Stmt.ScopedAll f.pool.names settings.Given now later ss
  names : Names.Fresh Names.OfBinding lo hi (Stmt.declaredAll ss)
  functions : Stmt.functionsIn ss = []

/-- The functions of templates in slots below `hi`. -/
structure Nesting (hi : Nat) (ss : List Stmt) : Prop where
  reads : ∀ {now later : Text → Prop}, Surrounds f outermost heads ids later →
    ∀ s ∈ ss, s.Scoped f.pool.names settings.Given now later
  functions : Stmt.declaredAll ss = Stmt.functionsIn ss
  names : Names.Fresh Names.OfTemplate 0 hi (Stmt.functionsIn ss)

end Parts

section

variable {settings : TemplateSettings} {f : Assembly} {outermost heads fns fns' : Text → Prop}
  {ids : List Nat} {queried : Bool} {lo mid hi : Nat} {ss ss' : List Stmt}

namespace Creating

theorem mono (h : Creating settings f outermost heads ids fns ss) (hfns : ∀ x, fns x → fns' x) :
    Creating settings f outermost heads ids fns' ss := fun s hs =>
  ⟨(h s hs).1, fun now later hnow hfns' hlater =>
    (h s hs).2 now later hnow (fun x hx => hfns' x (hfns x hx)) hlater⟩

theorem append (h : Creating settings f outermost heads ids fns ss)
    (h' : Creating settings f outermost heads ids fns ss') :
    Creating settings f outermost heads ids fns (ss ++ ss') := fun s hs =>
  (List.mem_append.mp hs).elim (h s) (h' s)

/-- An instruction whose arguments read what they may. -/
theorem stmt {i : Instruction} {args : List Term} {span : Option SourceSpan}
    (h : ∀ now later, (∀ x, outermost x → now x) → (∀ x, fns x → now x) →
      Surrounds f outermost heads ids later → ∀ t ∈ args, t.Scoped f.pool.names settings.Given now later) :
    Creating settings f outermost heads ids fns [i.stmt args span] := by
  intro s hs
  rw [List.mem_singleton.mp hs]
  exact ⟨⟨_, _, rfl⟩, fun now later hnow hfns hlater =>
    Instruction.scoped_stmt (h now later hnow hfns hlater)⟩

theorem constants (hf : f.Knows outermost heads) {i : Instruction} {args : List Term}
    {span : Option SourceSpan} (h : ∀ t ∈ args, f.pool.Constant t) :
    Creating settings f outermost heads ids fns [i.stmt args span] :=
  stmt fun _ _ hnow _ hlater t ht => (h t ht).scoped (fun x hx => hnow x (hf.constant x hx))
    fun x hx => hlater.outermost x (hf.constant x hx)

theorem pipes (ps : List Pipe) : Creating settings f outermost heads ids fns (ps.map Pipe.stmt) := by
  induction ps with
  | nil => exact List.forall_mem_nil _
  | cons p ps ih =>
      have hp : Creating settings f outermost heads ids fns [p.stmt] := by
        refine stmt fun now later _ _ _ => ?_
        simp only [List.forall_mem_cons]
        exact ⟨trivial, trivial, List.forall_mem_nil _⟩
      exact append hp ih

/-- A first run declares nothing. -/
theorem declared_eq_nil (h : Creating settings f outermost heads ids fns ss) :
    Stmt.declaredAll ss = [] ∧ Stmt.variablesIn ss = [] ∧ Stmt.functionsIn ss = [] := by
  induction ss with
  | nil => exact ⟨rfl, rfl, rfl⟩
  | cons s ss ih =>
      obtain ⟨span, t, rfl⟩ := (h s List.mem_cons_self).1
      exact ih fun s hs => h s (List.mem_cons_of_mem _ hs)

end Creating

namespace Updating

theorem nil (n : Nat) : Updating settings f outermost heads ids queried n n [] :=
  ⟨fun _ _ _ => trivial, .nil n n, rfl⟩

theorem append (h : Updating settings f outermost heads ids queried lo mid ss)
    (h' : Updating settings f outermost heads ids queried mid hi ss') (hlo : lo ≤ mid) (hhi : mid ≤ hi) :
    Updating settings f outermost heads ids queried lo hi (ss ++ ss') := by
  refine ⟨fun hnow hlater hqueried => Stmt.scopedAll_append.mpr ⟨h.reads hnow hlater hqueried, ?_⟩, ?_, ?_⟩
  · exact h'.reads (hnow.mono fun _ => .inr) hlater fun hq => .inr (hqueried hq)
  · rw [Stmt.declaredAll_append]
    exact h.names.append Names.OfBinding.inj h'.names hlo hhi
  · rw [Stmt.functionsIn, List.filterMap_append]
    exact List.append_eq_nil_iff.mpr ⟨h.functions, h'.functions⟩

theorem binding (hf : f.Knows outermost heads) {L : Lexicon} (hL : L.Grounded heads) {u : TemplateUnit}
    {e : Expr} {v : LoweredValue} (h : ValueCode settings f L u e v)
    (he : e.Every (Expr.CallsWithin outermost)) {i : Instruction} {args rest : List Term}
    {span : Option SourceSpan} (hargs : ∀ t ∈ args ++ rest, ∃ value, t = .ofValue value) :
    Updating settings f outermost heads L.ids queried u.bindings (u.bindings + 1)
      (v.statements u.bindings ++ [i.stmt (args ++ v.passed u.bindings :: rest) span]) := by
  have hnames := v.fresh_statements u.bindings
  refine ⟨fun hnow hlater _ => Stmt.scopedAll_append.mpr ?_, ?_, ?_⟩
  · obtain ⟨hstatements, hpassed⟩ := h.scoped_statements he hf hL hnow hlater
    obtain ⟨hargs, hrest⟩ := List.forall_mem_append.mp hargs
    refine ⟨hstatements, Instruction.scoped_stmt ?_, trivial⟩
    refine List.forall_mem_append.mpr ⟨fun t ht => ?_, List.forall_mem_cons.mpr ⟨hpassed, fun t ht => ?_⟩⟩
    · obtain ⟨value, rfl⟩ := hargs t ht
      trivial
    · obtain ⟨value, rfl⟩ := hrest t ht
      trivial
  · rw [Stmt.declaredAll_append]
    exact (List.append_nil (Stmt.declaredAll (v.statements u.bindings))).symm ▸ hnames
  · unfold LoweredValue.statements
    split
    · rfl
    · rw [Stmt.functionsIn, List.filterMap_append, List.filterMap_append]
      exact List.append_eq_nil_iff.mpr ⟨List.append_eq_nil_iff.mpr
        ⟨(Stmt.declaredAll_of_isSome (isSome_temporaries _ _)).2, rfl⟩, rfl⟩

/-- The refreshment of a query reads the variable for results. -/
theorem refresh (hf : f.Knows outermost heads) (q : Query) (slot n : Nat) :
    Updating settings f outermost heads ids true n n [q.refresh slot] := by
  refine ⟨fun {now later} hnow _ hqueried => ⟨⟨?_, ?_⟩, trivial⟩, .nil n n, rfl⟩
  · refine Instruction.scoped_call (List.forall_mem_singleton.mpr ⟨hqueried rfl, ?_⟩)
    exact Instruction.scoped_call (List.forall_mem_singleton.mpr trivial)
  · refine ⟨hnow.head _ hf.context, ?_⟩
    split
    · exact hqueried rfl
    · exact hqueried rfl

end Updating

/-- The creation of a query reads constants, but for the types in it. -/
theorem Creating.query (hf : f.Knows outermost heads) {q : Query} (hq : q ∈ settings.queries)
    {predicate : Term} (h : PredicateCode f.pool q predicate) (slot : Nat) :
    Creating settings f outermost heads ids fns [q.created slot predicate] := by
  intro s hs
  rw [List.mem_singleton.mp hs]
  refine ⟨⟨_, _, rfl⟩, fun now later hnow _ hlater => ⟨trivial, .inr trivial, ?_, .inr trivial, ?_⟩⟩
  · cases h with
    | constant ht =>
        exact .inr (ht.scoped (fun x hx => hnow x (hf.constant x hx))
          fun x hx => hlater.outermost x (hf.constant x hx))
    | type ht => exact .inl (.type hq ht)
    | deferred ht => exact .inr ⟨trivial, .inl (.deferred hq ht), trivial⟩
  · cases hread : q.read with
    | none => trivial
    | some t => exact ⟨.inl (.read hq hread), trivial⟩

/-! ### Units so far -/

/-- The functions that a unit may refer to: those of its templates, also of one whose place alone was
met. -/
def Stage.Refers (pending : Option Text) (g : Stage) (x : Text) : Prop :=
  x ∈ Stmt.functionsIn g.unit.nested ∨ ∃ only, pending = some only ∧ x = g.unit.innerName only g.anchor

def Stage.bound (pending : Option Text) (g : Stage) : Nat :=
  if pending.isSome then g.anchor else g.unit.slots

variable (settings f outermost heads queried) in
/-- What a unit so far reads is bound where it will stand. -/
structure Stage.Scoped (pending : Option Text) (g : Stage) : Prop where
  grounded : g.names.Grounded heads
  creation : Creating settings f outermost heads g.names.ids (g.Refers pending) g.unit.creation
  update : Updating settings f outermost heads g.names.ids queried 0 g.unit.bindings g.unit.update
  nested : Nesting settings f outermost heads g.names.ids (g.bound pending) g.unit.nested
  anchored : pending.isSome = true → g.anchor < g.unit.slots

namespace Stage.Scoped

variable {pending pending' : Option Text} {g g' : Stage}

/-- A unit that does more, with the same templates inside it. -/
theorem grow (h : g.Scoped settings f outermost heads queried pending) {cs us : List Stmt}
    (hids : g'.names.ids = g.names.ids) (hgrounded : g'.names.Grounded heads)
    (hnested : g'.unit.nested = g.unit.nested) (hrefers : ∀ x, g.Refers pending x → g'.Refers pending' x)
    (hbound : g.bound pending ≤ g'.bound pending')
    (hanchored : pending'.isSome = true → g'.anchor < g'.unit.slots)
    (hcreation : g'.unit.creation = g.unit.creation ++ cs)
    (hcs : Creating settings f outermost heads g.names.ids (g'.Refers pending') cs)
    (hupdate : g'.unit.update = g.unit.update ++ us) (hbindings : g.unit.bindings ≤ g'.unit.bindings)
    (hus : Updating settings f outermost heads g.names.ids queried g.unit.bindings g'.unit.bindings us) :
    g'.Scoped settings f outermost heads queried pending' := by
  refine ⟨hgrounded, ?_, ?_, ?_, hanchored⟩
  · rw [hids, hcreation]
    exact (h.creation.mono hrefers).append hcs
  · rw [hids, hupdate]
    exact h.update.append hus (Nat.zero_le _) hbindings
  · rw [hids, hnested]
    refine ⟨h.nested.reads, h.nested.functions, h.nested.names.nodup, fun x hx => ?_⟩
    obtain ⟨k, hlo, hhi, hof⟩ := h.nested.names.made x hx
    exact ⟨k, hlo, Nat.lt_of_lt_of_le hhi hbound, hof⟩

/-- A unit that does more, with data slots at most taken. -/
theorem settle (h : g.Scoped settings f outermost heads queried pending) {cs us : List Stmt}
    (hsame : pending = none ∨ g'.anchor = g.anchor ∧ g'.unit.path = g.unit.path)
    (hids : g'.names.ids = g.names.ids) (hgrounded : g'.names.Grounded heads)
    (hnested : g'.unit.nested = g.unit.nested) (hslots : g.unit.slots ≤ g'.unit.slots)
    (hcreation : g'.unit.creation = g.unit.creation ++ cs)
    (hcs : Creating settings f outermost heads g.names.ids (g'.Refers pending) cs)
    (hupdate : g'.unit.update = g.unit.update ++ us) (hbindings : g.unit.bindings ≤ g'.unit.bindings)
    (hus : Updating settings f outermost heads g.names.ids queried g.unit.bindings g'.unit.bindings us) :
    g'.Scoped settings f outermost heads queried pending := by
  refine h.grow hids hgrounded hnested (fun x hx => ?_) ?_ ?_ hcreation hcs hupdate hbindings hus
  · rcases hx with hx | ⟨only, honly, rfl⟩
    · exact .inl (hnested ▸ hx)
    · obtain hnone | ⟨hanchor, hpath⟩ := hsame
      · cases honly.symm.trans hnone
      · refine .inr ⟨only, honly, ?_⟩
        unfold TemplateUnit.innerName TemplateUnit.innerFront TemplateUnit.innerPath
        rw [hanchor, hpath]
  · obtain rfl | ⟨hanchor, -⟩ := hsame
    · exact hslots
    · unfold bound
      split
      · exact Nat.le_of_eq hanchor.symm
      · exact hslots
  · intro hsome
    obtain rfl | ⟨hanchor, -⟩ := hsame
    · cases hsome
    · exact hanchor ▸ Nat.lt_of_lt_of_le (h.anchored hsome) hslots

end Stage.Scoped

/-- The scopes around a unit stay the same. -/
theorem Lexicon.ids_addReferences (refs : List Named) : ∀ (slot : Nat) (L : Lexicon),
    (L.addReferences slot refs).ids = L.ids := by
  induction refs with
  | nil => exact fun _ _ => rfl
  | cons r rs ih => exact fun slot L => ih (slot + 1) _

theorem Lexicon.ids_addVariables (parameter : Text) (vars : List Named) : ∀ L : Lexicon,
    (L.addVariables parameter vars).ids = L.ids := by
  induction vars with
  | nil => exact fun _ => rfl
  | cons v vs ih => exact fun L => ih _

theorem Pool.constant_ofNat_cons {pool : Pool} {n : Nat} {args : List Term}
    (h : ∀ t ∈ args, pool.Constant t) : ∀ t ∈ .ofNat n :: args, pool.Constant t :=
  List.forall_mem_cons.mpr ⟨⟨rfl, trivial⟩, h⟩

theorem ItemCode.scoped {i : Item} {g g' : Stage} {pending pending' : Option Text}
    (hf : f.Knows outermost heads) (h : ItemCode settings f i g g')
    (hi : Item.Next settings (fun e => e.Every (Expr.CallsWithin outermost)) queried pending i pending')
    (hg : g.Scoped settings f outermost heads queried pending) :
    g'.Scoped settings f outermost heads queried pending' ∧ g'.names.ids = g.names.ids := by
  cases h with
  | none =>
      cases hi
      exact ⟨hg, rfl⟩
  | mark _ hargs =>
      cases hi
      exact ⟨hg.settle (.inl rfl) rfl hg.grounded rfl (Nat.le_refl _) rfl (.constants hf hargs)
        (List.append_nil _).symm (Nat.le_refl _) (.nil _), rfl⟩
  | leaf _ hargs =>
      cases hi
      exact ⟨hg.settle (.inl rfl) rfl hg.grounded rfl (Nat.le_succ _) rfl
        (.constants hf (Pool.constant_ofNat_cons hargs)) (List.append_nil _).symm (Nat.le_refl _) (.nil _),
        rfl⟩
  | query ht =>
      cases hi with
      | query hq =>
          exact ⟨hg.settle (.inl rfl) rfl hg.grounded rfl (Nat.le_succ _) rfl (.query hf hq ht _) rfl
            (Nat.le_refl _) (.refresh hf _ _ _), rfl⟩
  | @boundText L u u₁ a e v span span' hu hv =>
      cases hi with
      | boundText he =>
          have hslot : ∀ t ∈ [Term.ofNat u.slots] ++ [], ∃ value, t = .ofValue value :=
            List.forall_mem_singleton.mpr ⟨_, rfl⟩
          have htext : ∀ fns, Creating settings f outermost heads L.ids fns
              [Instruction.text.stmt [.ofNat u.slots] span] := fun _ =>
            .constants hf (Pool.constant_ofNat_cons (List.forall_mem_nil _))
          rw [hu] at hv ⊢
          exact ⟨hg.settle (.inl rfl) rfl hg.grounded rfl
            (Nat.le_trans (Nat.le_succ _) (Nat.le_add_right _ _)) (List.append_assoc ..)
            ((htext _).append (.pipes v.pipes)) (List.append_assoc ..) (Nat.le_succ _)
            (.binding hf hg.grounded hv he hslot), rfl⟩
  | @element L u a refs space i switch args span _ hswitch hargs =>
      cases hi
      have hids := Lexicon.ids_addReferences refs (u.slots + 1) L
      have hstart : ∀ fns, Creating settings f outermost heads L.ids fns
          (switch ++ [i.stmt (.ofNat u.slots :: args) span]) := by
        refine fun fns => .append ?_ (.constants hf (Pool.constant_ofNat_cons hargs))
        rcases hswitch with rfl | ⟨-, rfl⟩
        · exact List.forall_mem_nil _
        · exact .constants hf (List.forall_mem_nil _)
      exact ⟨hg.settle (.inl rfl) hids (hg.grounded.addReferences refs) rfl (Nat.le_add_right _ _) rfl
        (hstart _) (List.append_nil _).symm (Nat.le_refl _) (.nil _), hids⟩
  | @container L u a refs only args span hargs =>
      cases hi
      have hids := Lexicon.ids_addReferences refs (u.slots + 1) L
      have hslots : u.slots < u.slots + (1 + refs.length) := by omega
      refine ⟨hg.grow hids (hg.grounded.addReferences refs) rfl (fun x hx => ?_) (Nat.le_refl _)
        (fun _ => hslots) rfl (.stmt fun now later hnow hfns hlater => ?_) (List.append_nil _).symm
        (Nat.le_refl _) (.nil _), hids⟩
      · rcases hx with hx | ⟨_, hnone, -⟩
        · exact .inl hx
        · cases hnone
      · refine List.forall_mem_cons.mpr ⟨trivial, List.forall_mem_cons.mpr ⟨?_, fun t ht => ?_⟩⟩
        · exact hfns _ (.inr ⟨only, rfl, rfl⟩)
        · exact (hargs t ht).scoped (fun x hx => hnow x (hf.constant x hx))
            fun x hx => hlater.outermost x (hf.constant x hx)
  | output hhandler =>
      cases hi with
      | output he =>
          refine ⟨hg.settle (.inr ⟨rfl, rfl⟩) rfl hg.grounded rfl (Nat.le_refl _) rfl
            (.stmt fun now later _ _ hlater => ?_) (List.append_nil _).symm (Nat.le_refl _) (.nil _), rfl⟩
          simp only [List.forall_mem_cons]
          exact ⟨trivial, hhandler.scoped_function he hf hg.grounded hlater, List.forall_mem_nil _⟩
  | @input L u a i instruction v unit span _ hv hunit =>
      cases hi with
      | input he =>
          exact ⟨hg.settle (.inr ⟨rfl, rfl⟩) rfl hg.grounded rfl (Nat.le_add_right _ _) rfl
            (.pipes v.pipes) (List.append_assoc ..) (Nat.le_succ _)
            (.binding hf hg.grounded hv he (inputArguments_values a i.name hunit)), rfl⟩

/-! ### The function of a unit -/

/-- Statements under a flag declare what they declare without it, but in a block of their own. -/
theorem declared_phase (flag : Nat) (ss : List Stmt) :
    Stmt.declaredAll (TemplateUnit.phase flag ss) = Stmt.declaredAll ss ∧
      Stmt.functionsIn (TemplateUnit.phase flag ss) = [] := by
  unfold TemplateUnit.phase
  split
  · next hempty =>
      rw [List.isEmpty_iff.mp hempty]
      exact ⟨rfl, rfl⟩
  · refine ⟨?_, rfl⟩
    change (Stmt.declaredAll ss ++ []) ++ [] = _
    rw [List.append_nil, List.append_nil]

/-- Statements under a flag are scoped if they are as a block, where the flag can be read. -/
theorem scoped_onFlag {flag : Nat} {now later : Text → Prop} (hflag : now renderFlags)
    (h : Stmt.ScopedBlock f.pool.names settings.Given now later ss) :
    (onFlag flag ss).Scoped f.pool.names settings.Given now later :=
  ⟨⟨hflag, trivial⟩, h, trivial⟩

theorem scopedAll_phase {flag : Nat} {now later : Text → Prop} (hflag : now renderFlags)
    (h : Stmt.ScopedBlock f.pool.names settings.Given now later ss) :
    Stmt.ScopedAll f.pool.names settings.Given now later (TemplateUnit.phase flag ss) := by
  unfold TemplateUnit.phase
  split
  · trivial
  · exact ⟨scoped_onFlag hflag h, trivial⟩

/-- The variable for results is declared if there are queries. -/
theorem declared_temporaries (qs : List Query) :
    Stmt.declaredAll (Query.temporaries qs) = Stmt.variablesIn (Query.temporaries qs) ∧
      Stmt.functionsIn (Query.temporaries qs) = [] ∧
      (∀ x ∈ Stmt.variablesIn (Query.temporaries qs), x = queryTemporary) ∧
      (Stmt.variablesIn (Query.temporaries qs)).Nodup ∧
      (qs ≠ [] → queryTemporary ∈ Stmt.variablesIn (Query.temporaries qs)) := by
  unfold Query.temporaries
  cases qs with
  | nil => exact ⟨rfl, rfl, List.forall_mem_nil _, List.nodup_nil, fun hne => absurd rfl hne⟩
  | cons q qs =>
      exact ⟨rfl, rfl, fun x hx => List.mem_singleton.mp hx, List.nodup_singleton _,
        fun _ => List.mem_singleton_self _⟩

theorem scopedAll_temporaries (qs : List Query) {now later : Text → Prop} :
    Stmt.ScopedAll f.pool.names settings.Given now later (Query.temporaries qs) := by
  unfold Query.temporaries
  split
  · trivial
  · exact ⟨trivial, trivial⟩

theorem functionsIn_function (u : TemplateUnit) (qs : List Query) (f : Assembly) (id : Nat) :
    Stmt.functionsIn (u.function (Query.temporaries qs) (f.scopes.declarations id)).body =
      Stmt.functionsIn u.nested := by
  simp only [TemplateUnit.function, Stmt.functionsIn, List.filterMap_append]
  change ((Stmt.functionsIn _ ++ Stmt.functionsIn _) ++ Stmt.functionsIn _ ++ Stmt.functionsIn _) ++
    Stmt.functionsIn _ = _
  rw [(declared_temporaries qs).2.1, (declared_phase _ _).2, (declared_phase _ _).2,
    (Stmt.declaredAll_of_isSome (isSome_declarations f id)).2]
  rfl

/-- In a function code may read what is known around it, its parameters and the variables of the scopes. -/
theorem Surrounds.inside {params : List Text} {around now : Text → Prop}
    (houtermost : ∀ x, outermost x → around x) (hheads : ∀ x, heads x → x ∈ params ∨ around x)
    (hknown : ∀ x, x ∈ params ∨ around x → now x) (hids : ∀ i ∈ ids, ∀ d ∈ f.scopes.declared i, now d.1) :
    Surrounds f outermost heads ids now :=
  ⟨fun x hx => hknown x (.inr (houtermost x hx)), fun x hx => hknown x (hheads x hx), hids⟩

namespace Stage.Scoped

variable {g : Stage} (hg : g.Scoped settings f outermost heads queried none)
  (hf : f.Knows outermost heads) (hsettled : g.names.Settled f) (qs : List Query)

include hg hf

/-- The first run of a unit with its last instruction. -/
theorem creating : Creating settings f outermost heads g.names.ids (g.Refers none)
    (g.unit.creation ++ g.unit.reservation) := by
  refine hg.creation.append ?_
  unfold TemplateUnit.reservation
  split
  · exact List.forall_mem_nil _
  · exact .constants hf (Pool.constant_ofNat_cons (List.forall_mem_nil _))

include hsettled

/-- The function of a unit declares no name twice: its parameters, the variable for results, those of its
names and bindings, and the functions of its templates have names of different kinds. -/
theorem nodup_function (hparameter : Names.Context g.unit.parameter) :
    ([renderFlags, g.unit.parameter] ++ Stmt.declaredAll
      (g.unit.function (Query.temporaries qs) (f.scopes.declarations g.names.id)).body).Nodup := by
  obtain ⟨hnodup, hdeclared⟩ := hsettled.declared hg.grounded
  obtain ⟨htemporaries, -, htemporary, htemporariesNodup, -⟩ := declared_temporaries qs
  have hbody : Stmt.declaredAll
      (g.unit.function (Query.temporaries qs) (f.scopes.declarations g.names.id)).body =
        Stmt.variablesIn (Query.temporaries qs) ++ ((f.scopes.declared g.names.id).map (·.1) ++
          (Stmt.declaredAll g.unit.update ++ Stmt.functionsIn g.unit.nested)) := by
    simp only [TemplateUnit.function, Stmt.declaredAll_append]
    rw [htemporaries, (declared_phase _ _).1, (hg.creating hf).declared_eq_nil.1, (declared_phase _ _).1,
      (Stmt.declaredAll_of_isSome (isSome_declarations f g.names.id)).1, variablesIn_declarations,
      hg.nested.functions, List.append_nil, List.append_assoc, List.append_assoc]
  have hparams : ∀ x ∈ [renderFlags, g.unit.parameter], Names.kind x = 0 :=
    List.forall_mem_cons.mpr ⟨by decide, List.forall_mem_singleton.mpr hparameter.kind⟩
  have hresults : ∀ x ∈ Stmt.variablesIn (Query.temporaries qs), Names.kind x = 1 := fun x hx => by
    rw [htemporary x hx]
    decide
  have hlocals : ∀ x ∈ (f.scopes.declared g.names.id).map (·.1), Names.kind x = 2 := fun x hx => by
    obtain ⟨d, hd, rfl⟩ := List.mem_map.mp hx
    exact (hdeclared d hd).1.kind
  have hbindings : ∀ x ∈ Stmt.declaredAll g.unit.update, Names.kind x = 3 := fun x hx => by
    obtain ⟨k, -, -, hof⟩ := hg.update.names.made x hx
    exact hof.kind
  have htemplates : ∀ x ∈ Stmt.functionsIn g.unit.nested, Names.kind x = 4 := fun x hx => by
    obtain ⟨k, -, -, hof⟩ := hg.nested.names.made x hx
    exact hof.kind
  have hne : renderFlags ≠ g.unit.parameter := fun heq => by
    have := heq ▸ hparameter.ending
    revert this
    decide
  have hfirst : [renderFlags, g.unit.parameter].Nodup :=
    List.nodup_cons.mpr ⟨fun hmem => hne (List.mem_singleton.mp hmem), List.nodup_singleton _⟩
  rw [hbody]
  refine Names.nodup_append 0 hfirst (Names.nodup_append 1 htemporariesNodup (Names.nodup_append 2 hnodup
    (Names.nodup_append 3 hg.update.names.nodup hg.nested.names.nodup ?_ ?_) ?_ ?_) ?_ ?_) ?_ ?_ <;> grind

/-- What a unit reads is bound in its function. -/
theorem scoped_function {around : Text → Prop} (hqs : queried = true → qs ≠ [])
    (houtermost : ∀ x, outermost x → around x)
    (hheads : ∀ x, heads x → x ∈ [renderFlags, g.unit.parameter] ∨ around x)
    (houter : ∀ i ∈ g.names.outerIds, ∀ d ∈ f.scopes.declared i, around d.1) :
    Stmt.ScopedBlock f.pool.names settings.Given
      (fun x => x ∈ [renderFlags, g.unit.parameter] ∨ around x)
      (fun x => x ∈ [renderFlags, g.unit.parameter] ∨ around x)
      (g.unit.function (Query.temporaries qs) (f.scopes.declarations g.names.id)).body := by
  obtain ⟨-, hdeclared⟩ := hsettled.declared hg.grounded
  obtain ⟨-, -, -, -, hresults⟩ := declared_temporaries qs
  have hdeclarations : ∀ d ∈ f.scopes.declared g.names.id,
      d.1 ∈ Stmt.variablesIn (f.scopes.declarations g.names.id) := fun d hd => by
    rw [variablesIn_declarations]
    exact List.mem_map_of_mem hd
  let body := (g.unit.function (Query.temporaries qs) (f.scopes.declarations g.names.id)).body
  let known : Text → Prop := fun x => x ∈ [renderFlags, g.unit.parameter] ∨ around x
  -- Whatever sees the parameters and the variables of the unit sees all that its code may read.
  have hsurrounds : ∀ {now : Text → Prop}, (∀ x, known x → now x) →
      (∀ x ∈ Stmt.variablesIn (f.scopes.declarations g.names.id), now x) →
      Surrounds f outermost heads g.names.ids now := by
    intro now hknown hown
    refine .inside houtermost hheads hknown fun i hi d hd => ?_
    rcases List.mem_cons.mp hi with rfl | hi
    · exact hown _ (hdeclarations d hd)
    · exact hknown _ (.inr (houter i hi d hd))
  have hmem : ∀ x ∈ Stmt.variablesIn (f.scopes.declarations g.names.id), x ∈ Stmt.variablesIn body := by
    intro x hx
    simp only [body, TemplateUnit.function, Stmt.mem_variablesIn_append]
    exact .inl (.inl (.inr hx))
  have hlater : ∀ {later : Text → Prop}, (∀ x, x ∈ Stmt.variablesIn body ∨ known x → later x) →
      Surrounds f outermost heads g.names.ids later := fun h =>
    hsurrounds (fun x hx => h x (.inr hx)) fun x hx => h x (.inl (hmem x hx))
  have hflag : known renderFlags := .inl List.mem_cons_self
  change Stmt.ScopedAll _ _ (fun x => x ∈ Stmt.functionsIn body ∨ known x)
    (fun x => x ∈ Stmt.functionsIn body ∨ x ∈ Stmt.variablesIn body ∨ known x) (_ ++ _ ++ _ ++ _ ++ _)
  rw [Stmt.scopedAll_append, Stmt.scopedAll_append, Stmt.scopedAll_append, Stmt.scopedAll_append]
  refine ⟨⟨⟨⟨scopedAll_temporaries qs, scopedAll_phase (.inr (.inr hflag)) ?_⟩,
    Stmt.scopedAll_of_forall fun s hs => ?_⟩, scopedAll_phase (.inr (.inr hflag)) ?_⟩,
    Stmt.scopedAll_of_forall fun s hs => ?_⟩
  · refine Stmt.scopedAll_of_forall fun s hs => (hg.creating hf s hs).2 _ _ (fun x hx => ?_)
      (fun x hx => ?_) (hlater fun x hx => .inr (.inr (.inr hx)))
    · exact .inr (.inr (.inr (.inr (houtermost x hx))))
    · rcases hx with hx | ⟨_, hnone, -⟩
      · exact .inr (.inr (.inl ((functionsIn_function ..).symm ▸ hx)))
      · cases hnone
  · rw [ScopeTree.declarations_eq_map] at hs
    obtain ⟨d, hd, rfl⟩ := List.mem_map.mp hs
    exact (hdeclared d hd).2 _ _ _ _ fun x hx => .inr (.inr (hheads x hx))
  · refine hg.update.reads (hsurrounds (fun x hx => .inr (.inr (.inr hx))) fun x hx => ?_)
      (hlater fun x hx => .inr (.inr (.inr hx))) fun hq => ?_
    · exact .inr (.inl (Stmt.mem_variablesIn_append.mpr (.inr hx)))
    · exact .inr (.inl (Stmt.mem_variablesIn_append.mpr (.inl (Stmt.mem_variablesIn_append.mpr
        (.inl (hresults (hqs hq)))))))
  · exact hg.nested.reads (hlater fun x hx => .inr hx) s hs

end Stage.Scoped

/-! ### Whole units -/

theorem Stage.Scoped.start {L : Lexicon} (hL : L.Grounded heads) (u : TemplateUnit) (a : Nat) :
    Stage.Scoped settings f outermost heads queried none ⟨L, u.blank, a⟩ :=
  ⟨hL, List.forall_mem_nil _, .nil 0, ⟨fun _ => List.forall_mem_nil _, rfl, .nil 0 0⟩,
    fun h => absurd h Bool.false_ne_true⟩

/-- One more template, whose place was met before. -/
theorem Stage.Scoped.nest {L : Lexicon} {u : TemplateUnit} {a fresh : Nat} {only : Text} {fn : FunctionCode}
    (hg : Stage.Scoped settings f outermost heads queried (some only) ⟨L, u, a⟩)
    (hname : fn.name = u.innerName only a)
    (hfn : ∀ {around : Text → Prop}, Surrounds f outermost heads L.ids around →
      Stmt.ScopedFunction f.pool.names settings.Given around fn.params fn.body) :
    Stage.Scoped settings f outermost heads queried none
      ⟨{ L with fresh }, u.containing fn.declaration, a⟩ := by
  have hfunctions : Stmt.functionsIn (u.nested ++ [fn.declaration]) =
      Stmt.functionsIn u.nested ++ [u.innerName only a] := by
    rw [Stmt.functionsIn, List.filterMap_append, ← hname]
    rfl
  have hnew : Names.Fresh Names.OfTemplate a (a + 1) [u.innerName only a] :=
    ⟨List.nodup_singleton _, List.forall_mem_singleton.mpr
      ⟨a, Nat.le_refl a, Nat.lt_succ_self a, _, rfl⟩⟩
  have hall : Names.Fresh Names.OfTemplate 0 (a + 1) (Stmt.functionsIn u.nested ++ [u.innerName only a]) :=
    Names.Fresh.append (fun h h' => Names.OfTemplate.inj h h') hg.nested.names hnew (Nat.zero_le _)
      (Nat.le_succ _)
  refine ⟨hg.grounded, hg.creation.mono fun x hx => .inl ?_, hg.update, ⟨fun hlater s hs => ?_, ?_, ?_⟩,
    fun h => absurd h Bool.false_ne_true⟩
  · change x ∈ Stmt.functionsIn (u.nested ++ [fn.declaration])
    rw [hfunctions]
    rcases hx with hx | ⟨_, honly, rfl⟩
    · exact List.mem_append_left _ hx
    · cases honly
      exact List.mem_append_right _ (List.mem_singleton_self _)
  · rcases List.mem_append.mp hs with hs | hs
    · exact hg.nested.reads hlater s hs
    · rw [List.mem_singleton.mp hs]
      exact hfn hlater
  · change Stmt.declaredAll (u.nested ++ [fn.declaration]) = Stmt.functionsIn (u.nested ++ [fn.declaration])
    rw [Stmt.declaredAll_append, hg.nested.functions, hfunctions, ← hname]
    rfl
  · change Names.Fresh _ _ _ (Stmt.functionsIn (u.nested ++ [fn.declaration]))
    rw [hfunctions]
    refine ⟨hall.nodup, fun x hx => ?_⟩
    obtain ⟨k, hlo, hhi, hof⟩ := hall.made x hx
    exact ⟨k, hlo, Nat.lt_of_lt_of_le hhi (hg.anchored rfl), hof⟩

mutual

/-- An item, or a template with all that is in it, keeps a unit scoped. -/
theorem Step.scoped : ∀ {i : Item} {g g' : Stage} {heads : Text → Prop} {queried : Bool}
    {pending pending' : Option Text}, f.Knows outermost heads → Step settings f i g g' →
    Item.Next settings (fun e => e.Every (Expr.CallsWithin outermost)) queried pending i pending' →
    g.Scoped settings f outermost heads queried pending →
    g'.Scoped settings f outermost heads queried pending' ∧ g'.names.ids = g.names.ids
  | _, _, _, _, _, _, _, hf, .item h, hi, hg => h.scoped hf hi hg
  | _, _, _, heads, queried, _, _, hf, @Step.nested _ _ L u a id only vars items g h hsettled, hi, hg => by
    cases hi with
    | nested hitems =>
        -- The variables of the template are properties of its parameter, which is one more head.
        let heads' : Text → Prop := fun x => x = u.innerParameter ∨ heads x
        have hf' : f.Knows outermost heads' := ⟨hf.constant, hf.event, .inr hf.context⟩
        have hgrounded : L.Grounded heads' := hg.grounded.mono fun _ => .inr
        have hstart : ((L.enter id).addVariables u.innerParameter vars).Grounded heads' :=
          (hgrounded.enter id).addVariables (.inl rfl) vars
        obtain ⟨hend, hids⟩ := Steps.scoped hf' h hitems (.start hstart (u.inner only a id) 0)
        have hids : g.names.id :: g.names.outerIds = id :: L.ids := hids.trans (Lexicon.ids_addVariables ..)
        obtain ⟨hid, houter⟩ := List.cons.inj hids
        have hblank : g.unit.blank = u.inner only a id := h.blank_eq
        have hname := congrArg TemplateUnit.functionName hblank
        have hparameter : g.unit.parameter = u.innerParameter := congrArg TemplateUnit.parameter hblank
        have hcontext : Names.Context g.unit.parameter := .inr ⟨u.level, hparameter⟩
        refine ⟨hg.nest hname fun {around} haround => ?_, rfl⟩
        rw [← hid]
        refine ⟨hend.nodup_function hf' hsettled [] hcontext, ?_⟩
        refine hend.scoped_function hf' hsettled [] (fun hq => absurd hq Bool.false_ne_true) haround.outermost
          (fun x hx => ?_) fun i hi d hd => haround.declared i (houter ▸ hi) d hd
        rcases hx with rfl | hx
        · exact .inl (hparameter ▸ List.mem_cons_of_mem _ List.mem_cons_self)
        · exact .inr (haround.head x hx)

/-- Items in order keep a unit scoped. -/
theorem Steps.scoped : ∀ {is : List Item} {g g' : Stage} {heads : Text → Prop} {queried : Bool}
    {pending : Option Text}, f.Knows outermost heads → Steps settings f is g g' →
    Item.Planned settings (fun e => e.Every (Expr.CallsWithin outermost)) queried pending is →
    g.Scoped settings f outermost heads queried pending →
    g'.Scoped settings f outermost heads queried none ∧ g'.names.ids = g.names.ids
  | _, _, _, _, _, _, _, .nil, his, hg => by
    cases his
    exact ⟨hg, rfl⟩
  | _, _, _, _, _, _, hf, .cons h hs, his, hg => by
    cases his with
    | cons hi his =>
        obtain ⟨hg₁, hids₁⟩ := Step.scoped hf h hi hg
        obtain ⟨hg₂, hids₂⟩ := Steps.scoped hf hs his hg₁
        exact ⟨hg₂, hids₂.trans hids₁⟩

end

/-! ### The function of the queries -/

/-- The creations of queries, one after the other. -/
theorem CreationsCode.creating (hf : f.Knows outermost heads) {slot : Nat} {qs : List Query}
    (h : CreationsCode f.pool slot qs ss) (hqs : ∀ q ∈ qs, q ∈ settings.queries) :
    Creating settings f outermost heads ids fns ss := by
  induction h with
  | nil => exact List.forall_mem_nil _
  | cons ht _ ih =>
      obtain ⟨hq, hqs⟩ := List.forall_mem_cons.mp hqs
      exact (Creating.query hf hq ht _).append (ih hqs)

/-- The refreshments of queries, one after the other. -/
theorem Updating.refreshes (hf : f.Knows outermost heads) (n : Nat) : ∀ (qs : List Query) (slot : Nat),
    Updating settings f outermost heads ids true n n (Query.refreshes slot qs)
  | [], _ => .nil n
  | q :: qs, slot =>
    (Updating.refresh hf q slot n).append (refreshes hf n qs (slot + 1)) (Nat.le_refl n) (Nat.le_refl n)

/-- Statements that declare nothing between two numbers that are the same. -/
theorem Updating.declared_eq_nil {n : Nat} (h : Updating settings f outermost heads ids queried n n ss) :
    Stmt.declaredAll ss = [] := by
  refine List.eq_nil_iff_forall_not_mem.mpr fun x hx => ?_
  obtain ⟨k, hlo, hhi, -⟩ := h.names.made x hx
  exact absurd hhi (Nat.not_lt.mpr hlo)

section Compiled

variable {nodes : List Node} {c : CompiledTemplate} {g : Stage} {around : Text → Prop}

/-- A function for the queries of a component is scoped. -/
theorem Compiled.scoped_viewQuery (h : Compiled settings nodes c f g) {fn : FunctionCode}
    (hfn : c.viewQuery = some fn) (hf : f.Knows outermost (fun x => x = contextName))
    (houtermost : ∀ x, outermost x → around x) :
    Stmt.ScopedFunction f.pool.names settings.Given around fn.params fn.body := by
  obtain ⟨ss, hcreations, hparams, hbody⟩ := h.viewQuery fn hfn
  have hcreating : Creating settings f outermost (fun x => x = contextName) [] (fun _ => False) ss :=
    hcreations.creating hf fun _ => id
  have hupdating : Updating settings f outermost (fun x => x = contextName) [] true 0 0
      (Query.refreshes 0 settings.queries) := .refreshes hf 0 settings.queries 0
  obtain ⟨htemporaries, -, htemporary, htemporariesNodup, hresults⟩ := declared_temporaries settings.queries
  have hdeclared : Stmt.declaredAll (Query.temporaries settings.queries ++
      [onFlag createFlag ss, onFlag updateFlag (Query.refreshes 0 settings.queries)]) =
        Stmt.variablesIn (Query.temporaries settings.queries) := by
    rw [Stmt.declaredAll_append, htemporaries]
    change _ ++ ((Stmt.declaredAll ss ++ []) ++ ((Stmt.declaredAll (Query.refreshes ..) ++ []) ++ [])) = _
    rw [hcreating.declared_eq_nil.1, hupdating.declared_eq_nil]
    exact List.append_nil _
  rw [hparams, hbody]
  refine ⟨hdeclared ▸ Names.nodup_append 0 (by decide) htemporariesNodup ?_ ?_, ?_⟩
  · exact List.forall_mem_cons.mpr ⟨by decide, List.forall_mem_singleton.mpr (by decide)⟩
  · intro x hx
    rw [htemporary x hx]
    decide
  let known : Text → Prop := fun x => x ∈ [renderFlags, contextName] ∨ around x
  have hsurrounds : ∀ {now : Text → Prop}, (∀ x, known x → now x) →
      Surrounds f outermost (fun x => x = contextName) [] now := fun hknown =>
    .inside houtermost (fun x hx => .inl (hx ▸ List.mem_cons_of_mem _ List.mem_cons_self)) hknown
      (List.forall_mem_nil _)
  have hflag : known renderFlags := .inl List.mem_cons_self
  refine Stmt.scopedAll_append.mpr ⟨scopedAll_temporaries _, scoped_onFlag (.inr (.inr hflag)) ?_,
    scoped_onFlag (.inr (.inr (.inr hflag))) ?_, trivial⟩
  · exact Stmt.scopedAll_of_forall fun s hs => (hcreating s hs).2 _ _
      (fun x hx => .inr (.inr (.inr (.inr (houtermost x hx))))) (fun x hx => hx.elim)
      (hsurrounds fun x hx => .inr (.inr (.inr (.inr hx))))
  · cases hqueries : settings.queries with
    | nil => trivial
    | cons q qs =>
        rw [← hqueries]
        refine hupdating.reads (hsurrounds fun x hx => ?_) (hsurrounds fun x hx => ?_) fun _ => ?_
        · exact .inr (.inr (.inr (.inr hx)))
        · exact .inr (.inr (.inr (.inr hx)))
        · exact .inr (.inr (.inl (hresults (hqueries ▸ List.cons_ne_nil q qs))))

theorem Compiled.scoped_template (h : Compiled settings nodes c f g)
    (hf : f.Knows outermost (fun x => x = contextName)) (houtermost : ∀ x, outermost x → around x)
    (hcalled : ∀ x ∈ Node.called nodes, outermost x) :
    Stmt.ScopedFunction f.pool.names settings.Given around c.template.params c.template.body := by
  have hitems : Item.Planned settings (fun e => e.Every (Expr.CallsWithin outermost))
      (!settings.ownQueries.isEmpty) none (settings.items nodes) := by
    refine settings.planned_items fun e he => (Expr.every_iff_nodes e).mpr fun x hx name hname => ?_
    exact hcalled name (List.mem_filterMap.mpr ⟨x, Expr.mem_nodesAll.mpr ⟨e, he, hx⟩, hname⟩)
  have hroot : settings.start.names.Grounded fun x => x = contextName :=
    @Lexicon.Grounded.addVariables (fun x => x = contextName) contextName rfl settings.vars _ .root
  have hstart : settings.start.Scoped settings f outermost (fun x => x = contextName)
      (!settings.ownQueries.isEmpty) none := .start hroot settings.rootUnit 0
  obtain ⟨hend, hids⟩ := Steps.scoped hf h.steps hitems hstart
  have hids : g.names.ids = [1, 0] := hids.trans (Lexicon.ids_addVariables ..)
  obtain ⟨hid, houter⟩ := List.cons.inj hids
  have hblank : g.unit.blank = settings.rootUnit := h.steps.blank_eq
  have hparameter : g.unit.parameter = contextName := congrArg TemplateUnit.parameter hblank
  rw [h.template]
  change Stmt.ScopedFunction _ _ _ _ (g.unit.function _ (f.scopes.declarations 1)).body
  rw [← hid]
  refine ⟨hend.nodup_function hf h.settled _ (.inl hparameter), ?_⟩
  refine hend.scoped_function hf h.settled _ (fun hqs hnil => ?_) houtermost
    (fun x hx => .inl (hparameter ▸ hx ▸ List.mem_cons_of_mem _ List.mem_cons_self)) fun i hi d hd => ?_
  · rw [hnil] at hqs
    cases hqs
  · rw [houter, List.mem_singleton] at hi
    rw [hi, h.outermost] at hd
    cases hd

end Compiled

end

/-- What compiled code reads is bound, and no function declares a name twice. The event, the types of
queries and the functions that builtins call come from elsewhere. -/
theorem declarations_wellScoped {settings : TemplateSettings} {nodes : List Node} {c : CompiledTemplate}
    {pool : Pool} (h : compileTemplate settings nodes {} = (.ok c, pool)) :
    Stmt.WellScoped pool.names settings.Given (fun x => x = eventName ∨ x ∈ Node.called nodes)
      c.declarations := by
  obtain ⟨f, g, rfl, hcompiled⟩ := compiled_of_compileTemplate .empty h
  let outermost : Text → Prop := fun x => f.pool.Declares x ∨ x = eventName ∨ x ∈ Node.called nodes
  have hf : f.Knows outermost (fun x => x = contextName) := ⟨fun _ => .inl, .inr (.inl rfl), rfl⟩
  have hconstants : Stmt.WellScoped f.pool.names settings.Given
      (fun x => x = eventName ∨ x ∈ Node.called nodes) f.pool.statements :=
    hcompiled.sound.statements.mono (Names.le_refl _) (fun _ _ hnone => hnone.elim) fun _ hnone => hnone.elim
  rw [CompiledTemplate.declarations, hcompiled.statements, Stmt.wellScoped_append, Stmt.wellScoped_append]
  refine ⟨⟨hconstants, ?_⟩, (by rintro _ ⟨⟩), ?_, trivial⟩
  · cases hquery : c.viewQuery with
    | none => trivial
    | some fn =>
        exact ⟨(by rintro _ ⟨⟩), hcompiled.scoped_viewQuery hquery hf fun _ => id, trivial⟩
  · refine hcompiled.scoped_template hf (fun x hx => ?_) fun x hx => .inr (.inr hx)
    exact hx.imp_left fun hx => Stmt.mem_variablesIn_append.mpr (.inl hx)

namespace Sample

/-- A template in which a function is called that is declared nowhere. -/
def calling : List Node :=
  [.boundText none (.builtin ⟨none, none⟩ (.call "builtin") [])]

def callingCode : List Stmt :=
  [.function none {} "Template" [renderFlags, contextName]
    [onFlag createFlag [Instruction.text.stmt [.ofNat 0]],
      onFlag updateFlag [Instruction.textBinding.stmt
        [.ofNat 0, Instruction.bind.call [.apply (.ofVar "builtin") []]]]]]

theorem calling_not_wellScoped : ∃ c pool, compileTemplate {} calling {} = (.ok c, pool) ∧
    ¬Stmt.WellScoped pool.names (TemplateSettings.Given {}) (fun x => x = eventName) c.declarations := by
  obtain ⟨c, pool, h⟩ := exists_compiled_of_isOk
    (by decide +kernel : (compileTemplate {} calling {}).1.isOk = true)
  have hcode : (compileTemplate {} calling {}).1.map CompiledTemplate.declarations = .ok callingCode := rfl
  rw [h] at hcode
  refine ⟨c, pool, h, fun hscoped => ?_⟩
  rw [Except.ok.inj hcode] at hscoped
  have hnone : ∀ f t, ¬TemplateSettings.Given {} f t := by
    rintro f t (⟨hq, -⟩ | ⟨hq, -⟩ | ⟨hq, -⟩) <;> cases hq
  obtain ⟨-, ⟨-, -, ⟨-, ⟨hupdate, -⟩, -⟩, -⟩, -⟩ := hscoped
  obtain ⟨-, -, hbind, -⟩ := hupdate
  obtain ⟨-, hcall, -⟩ := hbind.resolve_left (hnone _ _)
  obtain ⟨hread, -⟩ := hcall.resolve_left (hnone _ _)
  rcases hread with hread | hread | hread | hread | hread <;> revert hread <;> decide

/-- An element whose listener reads its reference, around a template with a variable that reads the
reference through a pipe and calls a function. -/
def reading : List Node :=
  let p : Place := ⟨none, none⟩
  let read (name : Text) : Expr := .read p (.context p) name
  [.element none "a"
    { refs := [⟨"r", [], none⟩]
      outputs := [⟨"click", .method p (.context p) "f" [read "r", read "$event"], [], [], none⟩] }
    [.template none [] {} [⟨"v", [], none⟩]
      [.boundText none (.pipe p (read "r") "low" [.array p [read "v"]]),
        .boundText none (.builtin p (.call "g") [.safeRead p (.method p (.context p) "h" []) "z"])]]]

def ownFunction : TemplateSettings :=
  { name := "Reader", queryFunction := true
    queries := [⟨"found", true, true, .type (.ofVar "Found") false, some (.ofVar "Ref")⟩,
      ⟨"named", false, true, .references ["r"], none⟩] }

theorem declarations_wellScoped_reading : ∃ c pool,
    compileTemplate ownFunction reading {} = (.ok c, pool) ∧
      Stmt.WellScoped pool.names ownFunction.Given (fun x => x = eventName ∨ x ∈ [("g" : Text)])
        c.declarations := by
  obtain ⟨c, pool, h⟩ := exists_compiled_of_isOk
    (by decide +kernel : (compileTemplate ownFunction reading {}).1.isOk = true)
  have hcalled : Node.called reading = [("g" : Text)] := by decide +kernel
  exact ⟨c, pool, h, hcalled ▸ declarations_wellScoped h⟩

end Sample

end TemplateCompiler
