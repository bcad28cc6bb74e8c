import TemplateCompiler.Proofs.Template.Compilation

/-!
# The units of a template and of its code

A template and its code consist of *units*: the root and the nested templates, each before those inside
it. On the one side `TemplateSettings.plan` lists the units of a template, with the names that are in force
in each; on the other `Stmt.units` lists the functions of the code. `Compiled.units` says that they
correspond.

* `Naming` : the names in force at a place of a template, with their variables. It is found by walking
  over the template alone;
* `Item.located` : the items of a unit with the names in force there;
* `FunctionCode.creation`, `FunctionCode.update`, `FunctionCode.constants` : the parts of a function.
-/

namespace TemplateCompiler

/-! ### Names by place -/

/-- The names in force at a place of a template, each with its variable. -/
structure Naming where
  /-- Those of the unit. -/
  own : List (Text × Text) := []
  /-- Those of the units around it and of the root, the nearest first. -/
  outer : List (List (Text × Text))
  /-- How many names were bound before. -/
  fresh : Nat

namespace Naming

/-- The names at the start of a template: the event. -/
def root : Naming where
  outer := [[(eventName, eventName)]]
  fresh := 0

/-- The variable of the nearest unit that binds a name. -/
def find? (name : Text) (N : Naming) : Option Text :=
  (N.own :: N.outer).findSome? (List.lookup name)

/-- One more name of the unit. The variable is a number after a stem. -/
def add (name stem : Text) (N : Naming) : Naming :=
  { N with own := N.own ++ [(name, stem ++ ("_r" ++ Text.ofNat N.fresh))], fresh := N.fresh + 1 }

/-- The names after an element or container with references. -/
def addReferences (refs : List Named) (N : Naming) : Naming := refs.foldl (fun N r => N.add r.name []) N

def addVariables (vars : List Named) (N : Naming) : Naming :=
  vars.foldl (fun N v => N.add v.name v.name) N

/-- The names at the start of a nested template. -/
def enter (N : Naming) : Naming where
  outer := N.own :: N.outer
  fresh := N.fresh

end Naming

namespace Item

mutual

def after (N : Naming) : Item → Naming
  | .element refs | .container refs _ => N.addReferences refs
  | .nested _ vars items => { N with fresh := (afterAll (N.enter.addVariables vars) items).fresh }
  | .mark | .leaf | .query _ | .boundText _ | .output _ | .input _ => N

def afterAll (N : Naming) : List Item → Naming
  | [] => N
  | i :: is => afterAll (i.after N) is

end

/-- The items of a unit, each with the names in force before it. -/
def located (N : Naming) : List Item → List (Naming × Item)
  | [] => []
  | i :: is => (N, i) :: located (i.after N) is

end Item

/-- A unit of a template: the names at its start, and its items. -/
structure UnitPlan where
  names : Naming
  items : List Item

namespace Item

mutual

/-- The units inside an item, each before those inside it. -/
def units (N : Naming) : Item → List UnitPlan
  | .nested _ vars items => ⟨N.enter.addVariables vars, items⟩ :: unitsAll (N.enter.addVariables vars) items
  | _ => []

def unitsAll (N : Naming) : List Item → List UnitPlan
  | [] => []
  | i :: is => i.units N ++ unitsAll (i.after N) is

end

end Item

namespace Item

def isNested : Item → Bool
  | .nested .. => true
  | _ => false

theorem units_eq_nil {i : Item} (h : i.isNested = false) (N : Naming) : i.units N = [] := by
  cases i with
  | nested => cases h
  | _ => rw [units]; simp

theorem unitsAll_eq_nil {is : List Item} (h : ∀ i ∈ is, i.isNested = false) (N : Naming) :
    unitsAll N is = [] := by
  induction is generalizing N with
  | nil => rw [unitsAll]
  | cons i is ih =>
      obtain ⟨hi, his⟩ := List.forall_mem_cons.mp h
      rw [unitsAll, units_eq_nil hi, ih his]
      rfl

theorem unitsAll_append (is js : List Item) (N : Naming) :
    unitsAll N (is ++ js) = unitsAll N is ++ unitsAll (afterAll N is) js := by
  induction is generalizing N with
  | nil => rw [unitsAll, afterAll]; rfl
  | cons i is ih => rw [List.cons_append, unitsAll, unitsAll, afterAll, ih, List.append_assoc]

end Item

def TemplateSettings.rootPlan (settings : TemplateSettings) (nodes : List Node) : UnitPlan :=
  ⟨Naming.root.addVariables settings.vars, settings.items nodes⟩

/-- The units of a template, the root first. -/
def TemplateSettings.plan (settings : TemplateSettings) (nodes : List Node) : List UnitPlan :=
  settings.rootPlan nodes :: Item.unitsAll (settings.rootPlan nodes).names (settings.rootPlan nodes).items

/-! ### The parts of a function -/

def Stmt.underFlag (flag : Nat) : Stmt → List Stmt
  | .branch _ (.binary _ .bitAnd (.var _ x) (.lit _ (.int n))) yes _ =>
    if x = renderFlags ∧ n = flag then yes else []
  | _ => []

def Stmt.constant? : Stmt → Option (Text × Term)
  | .declare _ _ x (some t) => some (x, t)
  | _ => none

namespace FunctionCode

def creation (fn : FunctionCode) : List Stmt := fn.body.flatMap (Stmt.underFlag createFlag)

def update (fn : FunctionCode) : List Stmt := fn.body.flatMap (Stmt.underFlag updateFlag)

/-- The constants of a function, with their values. -/
def constants (fn : FunctionCode) : List (Text × Term) := fn.body.filterMap Stmt.constant?

end FunctionCode

mutual

/-- The functions that a statement declares, each before those inside it. -/
def Stmt.units : Stmt → List FunctionCode
  | .function _ _ name params body => ⟨name, params, body⟩ :: Stmt.unitsAll body
  | .declare .. | .expr .. | .ret .. | .branch .. => []

def Stmt.unitsAll : List Stmt → List FunctionCode
  | [] => []
  | s :: ss => s.units ++ Stmt.unitsAll ss

end

/-- The functions of a compiled template, the root first. -/
def CompiledTemplate.units (c : CompiledTemplate) : List FunctionCode := c.template.declaration.units

theorem Stmt.unitsAll_append (ss ss' : List Stmt) :
    Stmt.unitsAll (ss ++ ss') = Stmt.unitsAll ss ++ Stmt.unitsAll ss' := by
  induction ss with
  | nil => rfl
  | cons s ss ih => rw [List.cons_append, Stmt.unitsAll, Stmt.unitsAll, ih, List.append_assoc]

/-! ### The function of a unit -/

section Parts

variable {ss : List Stmt} {flag flag' : Nat}

theorem flatMap_underFlag_phase : (TemplateUnit.phase flag ss).flatMap (Stmt.underFlag flag) = ss := by
  unfold TemplateUnit.phase
  cases ss with
  | nil => rfl
  | cons s ss =>
      rw [List.isEmpty_cons, if_neg Bool.false_ne_true, List.flatMap_singleton]
      exact if_pos ⟨rfl, rfl⟩

theorem flatMap_underFlag_phase_of_ne (h : flag' ≠ flag) :
    (TemplateUnit.phase flag' ss).flatMap (Stmt.underFlag flag) = [] := by
  unfold TemplateUnit.phase
  split
  · rfl
  · rw [List.flatMap_singleton]
    exact if_neg fun heq => h (by exact_mod_cast heq.2)

theorem filterMap_constant?_phase : (TemplateUnit.phase flag ss).filterMap Stmt.constant? = [] := by
  unfold TemplateUnit.phase
  split <;> rfl

theorem unitsAll_phase : Stmt.unitsAll (TemplateUnit.phase flag ss) = [] := by
  unfold TemplateUnit.phase
  split <;> rfl

/-- Statements that declare functions or variables without values. -/
def Stmt.isQuiet : Stmt → Bool
  | .function .. | .declare _ _ _ none => true
  | _ => false

theorem flatMap_underFlag_of_isQuiet (h : ∀ s ∈ ss, s.isQuiet = true) :
    ss.flatMap (Stmt.underFlag flag) = [] := by
  refine List.flatMap_eq_nil_iff.mpr fun s hs => ?_
  have := h s hs
  cases s with
  | branch => cases this
  | _ => rfl

theorem filterMap_constant?_of_isQuiet (h : ∀ s ∈ ss, s.isQuiet = true) :
    ss.filterMap Stmt.constant? = [] := by
  refine List.filterMap_eq_nil_iff.mpr fun s hs => ?_
  have := h s hs
  cases s with
  | declare span mods x t =>
      cases t with
      | none => rfl
      | some t => cases this
  | _ => rfl

theorem isQuiet_temporaries (qs : List Query) : ∀ s ∈ Query.temporaries qs, s.isQuiet = true := by
  unfold Query.temporaries
  split
  · exact fun s hs => nomatch hs
  · exact List.forall_mem_singleton.mpr rfl

theorem unitsAll_temporaries (qs : List Query) : Stmt.unitsAll (Query.temporaries qs) = [] := by
  unfold Query.temporaries
  split <;> rfl

variable (u : TemplateUnit) (qs : List Query) (tree : ScopeTree) (id : Nat)

theorem TemplateUnit.function_parts (h : ∀ s ∈ u.nested, s.isQuiet = true) :
    (u.function (Query.temporaries qs) (tree.declarations id)).creation = u.creation ++ u.reservation ∧
    (u.function (Query.temporaries qs) (tree.declarations id)).update = u.update ∧
    (u.function (Query.temporaries qs) (tree.declarations id)).constants = tree.declared id := by
  have hconstants : ∀ flag, (tree.declarations id).flatMap (Stmt.underFlag flag) = [] := by
    intro flag
    rw [ScopeTree.declarations_eq_map]
    refine List.flatMap_eq_nil_iff.mpr fun s hs => ?_
    obtain ⟨d, -, rfl⟩ := List.mem_map.mp hs
    rfl
  refine ⟨?_, ?_, ?_⟩
  · simp only [FunctionCode.creation, TemplateUnit.function, List.flatMap_append]
    rw [flatMap_underFlag_of_isQuiet (isQuiet_temporaries qs), flatMap_underFlag_phase, hconstants,
      flatMap_underFlag_phase_of_ne (by decide), flatMap_underFlag_of_isQuiet h]
    simp
  · simp only [FunctionCode.update, TemplateUnit.function, List.flatMap_append]
    rw [flatMap_underFlag_of_isQuiet (isQuiet_temporaries qs), flatMap_underFlag_phase, hconstants,
      flatMap_underFlag_phase_of_ne (by decide), flatMap_underFlag_of_isQuiet h]
    simp
  · have hdeclared : (tree.declarations id).filterMap Stmt.constant? = tree.declared id := by
      rw [ScopeTree.declarations_eq_map, List.filterMap_map]
      exact List.filterMap_some
    simp only [FunctionCode.constants, TemplateUnit.function, List.filterMap_append]
    rw [filterMap_constant?_of_isQuiet (isQuiet_temporaries qs), filterMap_constant?_phase,
      filterMap_constant?_phase, hdeclared, filterMap_constant?_of_isQuiet h]
    simp

/-- The functions inside that of a unit are those of its nested templates. -/
theorem TemplateUnit.unitsAll_function :
    Stmt.unitsAll (u.function (Query.temporaries qs) (tree.declarations id)).body =
      Stmt.unitsAll u.nested := by
  have hconstants : Stmt.unitsAll (tree.declarations id) = [] := by
    rw [ScopeTree.declarations_eq_map]
    induction tree.declared id with
    | nil => rfl
    | cons d ds ih =>
        rw [List.map_cons, Stmt.unitsAll, ih]
        rfl
  simp only [TemplateUnit.function, Stmt.unitsAll_append]
  rw [unitsAll_temporaries, unitsAll_phase, unitsAll_phase, hconstants]
  rfl

end Parts

/-! ### The functions inside a unit -/

/-- The functions inside a unit have a property, one for each entry of a list. -/
structure Nests {α : Type} (P : α → FunctionCode → Prop) (xs : List α) (u : TemplateUnit) : Prop where
  quiet : ∀ s ∈ u.nested, s.isQuiet = true
  units : List.Forall₂ P xs (Stmt.unitsAll u.nested)

namespace Nests

variable {α : Type} {P : α → FunctionCode → Prop} {x : α} {xs ys : List α} {u u' : TemplateUnit}

theorem nil (h : u.nested = []) : Nests P [] u := by
  refine ⟨?_, ?_⟩ <;> rw [h]
  · exact List.forall_mem_nil _
  · exact .nil

theorem congr (h : Nests P xs u) (hu : u'.nested = u.nested) : Nests P xs u' := by
  refine ⟨?_, ?_⟩ <;> rw [hu]
  · exact h.quiet
  · exact h.units

theorem containing (h : Nests P xs u) {fn : FunctionCode} (hfn : P x fn)
    (hunits : List.Forall₂ P ys (Stmt.unitsAll fn.body)) :
    Nests P (xs ++ x :: ys) (u.containing fn.declaration) := by
  refine ⟨List.forall_mem_append.mpr ⟨h.quiet, List.forall_mem_singleton.mpr rfl⟩, ?_⟩
  rw [TemplateUnit.containing, Stmt.unitsAll_append]
  refine List.rel_append h.units ?_
  rw [Stmt.unitsAll, Stmt.unitsAll, List.append_nil]
  exact .cons hfn hunits

/-- The first run of the function of a unit, and the functions inside it. -/
theorem function (h : Nests P xs u) (qs : List Query) (tree : ScopeTree) (id : Nat) :
    (u.function (Query.temporaries qs) (tree.declarations id)).creation = u.creation ++ u.reservation ∧
      List.Forall₂ P xs (Stmt.unitsAll (u.function (Query.temporaries qs) (tree.declarations id)).body) := by
  refine ⟨(u.function_parts qs tree id h.quiet).1, ?_⟩
  rw [TemplateUnit.unitsAll_function]
  exact h.units

end Nests

/-! ### The names of a lexicon -/

def Bindings.variables (own : Bindings) : List (Text × Text) := own.map fun b => (b.1, b.2.var)

def Lexicon.naming (L : Lexicon) : Naming where
  own := Bindings.variables L.own
  outer := L.outer.map Bindings.variables
  fresh := L.fresh

namespace Lexicon

variable (L : Lexicon)

theorem naming_bind (name stem : Text) {e : ScopeEntry} (h : e.var = stem ++ L.nextVar) :
    (L.bind name e).naming = L.naming.add name stem := by
  simp only [naming, bind, Naming.add, Bindings.variables, List.map_append, List.map_cons, List.map_nil, h]
  rfl

theorem naming_addReferences (refs : List Named) : ∀ (slot : Nat) (L : Lexicon),
    (L.addReferences slot refs).naming = L.naming.addReferences refs := by
  induction refs with
  | nil => exact fun _ _ => rfl
  | cons r rs ih =>
      intro slot L
      rw [addReferences, ih, naming_bind L r.name [] rfl]
      rfl

theorem naming_addVariables (parameter : Text) (vars : List Named) : ∀ L : Lexicon,
    (L.addVariables parameter vars).naming = L.naming.addVariables vars := by
  induction vars with
  | nil => exact fun _ => rfl
  | cons v vs ih =>
      intro L
      rw [addVariables, ih, naming_bind L v.name v.name rfl]
      rfl

theorem find?_naming (name : Text) :
    L.naming.find? name = (L.env.find? name).map (·.var) := by
  have hown : ∀ own : Bindings, (Bindings.variables own).lookup name = (own.lookup name).map (·.var) := by
    intro own
    induction own with
    | nil => rfl
    | cons b own ih =>
        rw [Bindings.variables, List.map_cons, List.lookup_cons, List.lookup_cons]
        split
        · rfl
        · exact ih
  have henv : ∀ env : Env, (env.map Bindings.variables).findSome? (List.lookup name) =
      (env.find? name).map (·.var) := by
    intro env
    induction env with
    | nil => rfl
    | cons own env ih =>
        rw [List.map_cons, List.findSome?_cons, hown, Env.find?, ih]
        cases own.lookup name <;> rfl
  exact henv L.env

end Lexicon

/-! ### The variables of a lexicon -/

/-- What variables hold: references are loaded from their slots, and the variables of templates are
properties of a parameter. The event has no value. -/
inductive ScopeEntry.Local : ScopeEntry → Prop
  | event {var : Text} {declared : Bool} : Local ⟨var, none, declared, false⟩
  | reference {var : Text} {slot : Nat} {declared : Bool} :
      Local ⟨var, some (Instruction.load.call [.ofNat slot]), declared, true⟩
  | property {var parameter : Text} {v : Named} {declared : Bool} :
      Local ⟨var, some (Lexicon.variableValue parameter v), declared, false⟩

/-- All variables in force are of these kinds. -/
def Lexicon.Local (L : Lexicon) : Prop := ∀ p ∈ L.env.flatten, p.2.Local

namespace Lexicon.Local

variable {L L' : Lexicon}

theorem bind (h : L.Local) {name : Text} {e : ScopeEntry} (he : e.Local) : (L.bind name e).Local :=
  forall_bind h he

theorem addReferences (refs : List Named) : ∀ {slot : Nat} {L : Lexicon}, L.Local →
    (L.addReferences slot refs).Local := by
  induction refs with
  | nil => exact fun h => h
  | cons r rs ih => exact fun h => ih (h.bind .reference)

theorem addVariables (parameter : Text) (vars : List Named) : ∀ {L : Lexicon}, L.Local →
    (L.addVariables parameter vars).Local := by
  induction vars with
  | nil => exact fun h => h
  | cons v vs ih => exact fun h => ih (h.bind .property)

theorem enter (h : L.Local) (id : Nat) : (L.enter id).Local := h

theorem root : Lexicon.root.Local := by
  intro p hp
  rw [List.mem_singleton.mp hp]
  exact .event

end Lexicon.Local

theorem Lexicon.owned_addVariables (parameter : Text) (vars : List Named) : ∀ {L : Lexicon},
    (∀ b ∈ L.own, b.2.owned = false) → ∀ b ∈ (L.addVariables parameter vars).own, b.2.owned = false := by
  induction vars with
  | nil => exact fun h => h
  | cons v vs ih =>
      refine fun h => ih fun b hb => ?_
      rcases List.mem_append.mp hb with hb | hb
      · exact h b hb
      · rw [List.mem_singleton.mp hb]

section Units

variable {settings : TemplateSettings} {f : Assembly}

theorem Step.local {i : Item} {g g' : Stage} (h : Step settings f i g g') (hg : g.names.Local) :
    g'.names.Local := by
  cases h with
  | nested => exact hg
  | item h =>
      cases h with
      | element => exact hg.addReferences _
      | container => exact hg.addReferences _
      | _ => exact hg

theorem Steps.local {is : List Item} {g g' : Stage} (h : Steps settings f is g g')
    (hg : g.names.Local) : g'.names.Local := by
  induction is generalizing g with
  | nil =>
      cases h
      exact hg
  | cons i is ih =>
      cases h with
      | cons hi his => exact ih his (hi.local hg)

theorem ItemCode.naming_eq {i : Item} {g g' : Stage} (h : ItemCode settings f i g g') :
    g'.names.naming = i.after g.names.naming := by
  cases h with
  | element => rw [Item.after, Lexicon.naming_addReferences]
  | container => rw [Item.after, Lexicon.naming_addReferences]
  | _ => rw [Item.after]

mutual

theorem Step.naming_eq : ∀ {i : Item} {g g' : Stage}, Step settings f i g g' →
    g'.names.naming = i.after g.names.naming
  | _, _, _, .item h => h.naming_eq
  | _, ⟨L, u, a⟩, _, .nested h _ => by
    have hinner := Steps.naming_eq h
    rw [Item.after]
    rw [Lexicon.naming_addVariables] at hinner
    exact congrArg (fun N : Naming => { L.naming with fresh := N.fresh }) hinner

theorem Steps.naming_eq : ∀ {is : List Item} {g g' : Stage}, Steps settings f is g g' →
    g'.names.naming = Item.afterAll g.names.naming is
  | _, _, _, .nil => by rw [Item.afterAll]
  | _, _, _, .cons h hs => by rw [Item.afterAll, Steps.naming_eq hs, Step.naming_eq h]

end

/-- A function is the code of a unit, from one stage to another. -/
structure UnitCode (settings : TemplateSettings) (f : Assembly) (p : UnitPlan) (fn : FunctionCode)
    (start g : Stage) : Prop where
  names : start.names.naming = p.names
  entries : start.names.Local
  owned : ∀ b ∈ start.names.own, b.2.owned = false
  blank : start.unit = start.unit.blank
  steps : Steps settings f p.items start g
  settled : g.names.Settled f
  creation : fn.creation = g.unit.creation ++ g.unit.reservation
  update : fn.update = g.unit.update
  constants : fn.constants = f.scopes.declared g.names.id
  function : ∃ qs, fn = g.unit.function (Query.temporaries qs) (f.scopes.declarations g.names.id)
  nested : ∀ s ∈ g.unit.nested, s.isQuiet = true

def UnitPlan.Code (settings : TemplateSettings) (f : Assembly) (p : UnitPlan) (fn : FunctionCode) : Prop :=
  ∃ start g, UnitCode settings f p fn start g

theorem ItemCode.nested_eq {i : Item} {g g' : Stage} (h : ItemCode settings f i g g') :
    g'.unit.nested = g.unit.nested := by
  cases h with
  | boundText hu => rw [hu]; rfl
  | _ => rfl

/-- The names in force do not change which scope a unit has. -/
theorem Lexicon.id_addReferences (refs : List Named) : ∀ (slot : Nat) (L : Lexicon),
    (L.addReferences slot refs).id = L.id := by
  induction refs with
  | nil => exact fun _ _ => rfl
  | cons r rs ih => exact fun slot L => ih (slot + 1) _

theorem Lexicon.id_addVariables (parameter : Text) (vars : List Named) : ∀ L : Lexicon,
    (L.addVariables parameter vars).id = L.id := by
  induction vars with
  | nil => exact fun _ => rfl
  | cons v vs ih => exact fun L => ih _

theorem Step.id_eq {i : Item} {g g' : Stage} (h : Step settings f i g g') : g'.names.id = g.names.id := by
  cases h with
  | nested => rfl
  | item h =>
      cases h with
      | element => exact Lexicon.id_addReferences ..
      | container => exact Lexicon.id_addReferences ..
      | _ => rfl

theorem Steps.id_eq {is : List Item} {g g' : Stage} (h : Steps settings f is g g') :
    g'.names.id = g.names.id := by
  induction is generalizing g with
  | nil =>
      cases h
      rfl
  | cons i is ih =>
      cases h with
      | cons hi his => exact (ih his).trans hi.id_eq

/-- What nested templates add to a unit: functions, which are the code of the units inside. -/
def NestedCode (settings : TemplateSettings) (f : Assembly) (plans : List UnitPlan) (g g' : Stage) : Prop :=
  ∃ ss, g'.unit.nested = g.unit.nested ++ ss ∧ (∀ s ∈ ss, s.isQuiet = true) ∧
    List.Forall₂ (UnitPlan.Code settings f) plans (Stmt.unitsAll ss)

/-- A run of items that starts with a new unit makes its function and those inside. -/
theorem NestedCode.unit {p : UnitPlan} {start g : Stage} (qs : List Query)
    (hnames : start.names.naming = p.names) (hlocal : start.names.Local)
    (howned : ∀ b ∈ start.names.own, b.2.owned = false) (hblank : start.unit = start.unit.blank)
    (h : Steps settings f p.items start g) (hsettled : g.names.Settled f)
    (hnested : NestedCode settings f (Item.unitsAll p.names p.items) start g) :
    List.Forall₂ (UnitPlan.Code settings f) (p :: Item.unitsAll p.names p.items)
      (g.unit.function (Query.temporaries qs) (f.scopes.declarations g.names.id)).declaration.units := by
  obtain ⟨ss, hss, hquiet, hunits⟩ := hnested
  have hempty : start.unit.nested = [] := by rw [hblank]; rfl
  rw [hempty, List.nil_append] at hss
  rw [← hss] at hquiet
  obtain ⟨hcreation, hupdate, hconstants⟩ := g.unit.function_parts qs f.scopes g.names.id hquiet
  refine .cons ⟨start, g, hnames, hlocal, howned, hblank, h, hsettled, hcreation, hupdate, hconstants,
    ⟨qs, rfl⟩, hquiet⟩ ?_
  rw [TemplateUnit.unitsAll_function, hss]
  exact hunits

mutual

theorem Step.nestedCode : ∀ {i : Item} {g g' : Stage}, Step settings f i g g' → g.names.Local →
    NestedCode settings f (i.units g.names.naming) g g'
  | i, g, g', .item h, _ => by
    refine ⟨[], ?_, fun s hs => (nomatch hs), ?_⟩
    · rw [h.nested_eq, List.append_nil]
    · rw [Item.units_eq_nil (by cases h <;> rfl)]
      exact .nil
  | _, _, _, @Step.nested _ _ L u _ id _ vars items g h hsettled, hL => by
    have hlocal := (hL.enter id).addVariables u.innerParameter vars
    have hnames := Lexicon.naming_addVariables u.innerParameter vars (L.enter id)
    have hinner := Steps.nestedCode h hlocal
    have hid : g.names.id = id := h.id_eq.trans (Lexicon.id_addVariables ..)
    refine ⟨[_], rfl, List.forall_mem_singleton.mpr rfl, ?_⟩
    rw [Stmt.unitsAll, Stmt.unitsAll, List.append_nil, Item.units]
    rw [hnames] at hinner
    have hunit := NestedCode.unit (p := ⟨(L.enter id).naming.addVariables vars, items⟩) [] hnames
      hlocal (Lexicon.owned_addVariables _ vars fun _ hb => absurd hb List.not_mem_nil) rfl h hsettled hinner
    rw [hid] at hunit
    exact hunit

/-- The functions inside that of a unit are the code of the units inside the unit. -/
theorem Steps.nestedCode : ∀ {is : List Item} {g g' : Stage}, Steps settings f is g g' →
    g.names.Local → NestedCode settings f (Item.unitsAll g.names.naming is) g g'
  | _, _, _, .nil, _ => by
    refine ⟨[], (List.append_nil _).symm, fun s hs => (nomatch hs), ?_⟩
    rw [Item.unitsAll]
    exact .nil
  | _, _, _, .cons h hs, hg => by
    obtain ⟨ss, hss, hquiet, hunits⟩ := Step.nestedCode h hg
    obtain ⟨ss', hss', hquiet', hunits'⟩ := Steps.nestedCode hs (h.local hg)
    refine ⟨ss ++ ss', ?_, fun s hmem => (List.mem_append.mp hmem).elim (hquiet s) (hquiet' s), ?_⟩
    · rw [hss', hss, List.append_assoc]
    · rw [Item.unitsAll, Stmt.unitsAll_append]
      rw [h.naming_eq] at hunits'
      exact List.rel_append hunits hunits'

end

theorem Compiled.units {nodes : List Node} {c : CompiledTemplate} {g : Stage}
    (h : Compiled settings nodes c f g) :
    List.Forall₂ (UnitPlan.Code settings f) (settings.plan nodes) c.units := by
  have hnames : settings.start.names.naming = (settings.rootPlan nodes).names :=
    Lexicon.naming_addVariables ..
  have hid : g.names.id = settings.rootUnit.scope := h.steps.id_eq.trans (Lexicon.id_addVariables ..)
  have hlocal : settings.start.names.Local := Lexicon.Local.root.addVariables contextName settings.vars
  have hnested := h.steps.nestedCode hlocal
  rw [hnames] at hnested
  rw [CompiledTemplate.units, h.template, ← hid]
  exact NestedCode.unit (p := settings.rootPlan nodes) _ hnames hlocal
    (Lexicon.owned_addVariables _ settings.vars fun _ hb => absurd hb List.not_mem_nil) rfl h.steps h.settled hnested

end Units

/-- What is computed of the only function of a template holds of the function that it compiles to. -/
theorem exists_unit_of_map {α : Type} {settings : TemplateSettings} {nodes : List Node} {pool : Pool}
    {g : FunctionCode → α} {a : α}
    (h : (compileTemplate settings nodes pool).1.toOption.map (fun c => c.units.map g) = some [a]) :
    ∃ c pool' fn, compileTemplate settings nodes pool = (.ok c, pool') ∧ c.units = [fn] ∧ g fn = a := by
  rcases hresult : compileTemplate settings nodes pool with ⟨_ | c, pool'⟩
  · rw [hresult] at h
    cases h
  · rw [hresult] at h
    obtain ⟨fn, hfn, heq⟩ := List.map_eq_singleton_iff.mp (Option.some_inj.mp h)
    exact ⟨c, pool', fn, rfl, hfn, heq⟩

end TemplateCompiler
