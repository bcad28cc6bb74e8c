import TemplateCompiler.Proofs.Template.Conversion
import TemplateCompiler.Proofs.Template.Ledger

/-!
# The items of a template

A unit is compiled item by item: `Node.items` lists them in order, those of an element before and after
those of its children, and those of a nested template as one item of the unit around it. What an item does
to a unit can be told apart from how the compilation gets there:

* `Stage` : the names in force, the unit so far, and the element that bindings belong to;
* `ItemCode settings f` : what an item adds to a stage, as it is known in the state `f` at the end;
* `Steps settings f` : the same for items one after the other, with nested templates.
-/

namespace TemplateCompiler

/-! ### Items -/

/-- A part of a unit that is compiled in one step. -/
inductive Item where
  /-- An instruction without a slot, or none. -/
  | mark
  /-- A text or a place for content. -/
  | leaf
  | query (q : Query)
  | boundText (value : Expr)
  | element (refs : List Named)
  /-- The place of a nested template; `only` is the element that the template consists of, if any. -/
  | container (refs : List Named) (only : Text)
  | output (o : Output)
  /-- A binding of the element or container before it. -/
  | input (i : Input)
  | nested (only : Text) (vars : List Named) (items : List Item)

/-- The listeners and bindings of an element or container. -/
def Parts.items (parts : Parts) : List Item := parts.outputs.map .output ++ parts.inputs.map .input

/-- The name of the element that a template consists of, or nothing. -/
def Node.only (nodes : List Node) : Text := ((Compile.onlyElement nodes).toOption).getD []

namespace Node

mutual

def items : Node → List Item
  | text .. | content .. => [.leaf]
  | boundText _ e => [.boundText e]
  | misplaced _ => []
  | element _ _ parts children =>
    .element parts.refs :: parts.items ++ (itemsAll children ++ [.mark])
  | template _ _ parts vars children =>
    .container parts.refs (only children) :: parts.items ++
      [.nested (only children) vars (itemsAll children)]

/-- The items of nodes one after the other. -/
def itemsAll : List Node → List Item
  | [] => []
  | n :: ns => n.items ++ itemsAll ns

end

end Node

def TemplateSettings.ownQueries (settings : TemplateSettings) : List Query :=
  if settings.queryFunction then [] else settings.queries

theorem TemplateSettings.ownQueries_subset (settings : TemplateSettings) :
    settings.ownQueries ⊆ settings.queries := by
  unfold ownQueries
  split
  · exact List.nil_subset _
  · exact List.Subset.refl _

def TemplateSettings.items (settings : TemplateSettings) (nodes : List Node) : List Item :=
  .mark :: settings.ownQueries.map .query ++ Node.itemsAll nodes

/-! ### Units -/

namespace TemplateUnit

variable (u : TemplateUnit)

def take (n : Nat) : TemplateUnit := { u with slots := u.slots + n }

def created (ss : List Stmt) : TemplateUnit := { u with creation := u.creation ++ ss }

def updated (ss : List Stmt) : TemplateUnit := { u with update := u.update ++ ss }

def containing (s : Stmt) : TemplateUnit := { u with nested := u.nested ++ [s] }

def blank : TemplateUnit where
  level := u.level
  parameter := u.parameter
  path := u.path
  functionName := u.functionName
  scope := u.scope

/-- What the names of functions inside a nested template start with. -/
def innerPath (only : Text) : Text :=
  if only.isEmpty || u.path.isEmpty then only else u.path ++ "_" ++ only

/-- What the name of the function of a nested template starts with. -/
def innerFront (only : Text) : Text :=
  if (u.innerPath only).isEmpty then [] else u.innerPath only ++ "_"

def innerName (only : Text) (slot : Nat) : Text := u.innerFront only ++ "Template_" ++ Text.ofNat slot

def innerParameter : Text := contextName ++ Text.ofNat u.level

/-- The unit of the template in a slot, at its start. -/
def inner (only : Text) (slot scope : Nat) : TemplateUnit where
  level := u.level + 1
  parameter := u.innerParameter
  path := u.innerPath only
  functionName := u.innerName only slot
  scope := scope

/-- The statement that reserves the pure slots of a unit. -/
def reservation : List Stmt :=
  if u.pureSlots = 0 then [] else [Instruction.reserveSlots.stmt [.ofNat u.pureSlots]]

/-- Statements under a flag, if there are any. -/
def phase (flag : Nat) (ss : List Stmt) : List Stmt := if ss.isEmpty then [] else [onFlag flag ss]

/-- The function of a unit that starts with `front` and declares variables. -/
def function (front declarations : List Stmt) : FunctionCode where
  name := u.functionName
  params := [renderFlags, u.parameter]
  body := front ++ phase createFlag (u.creation ++ u.reservation) ++ declarations
    ++ phase updateFlag u.update ++ u.nested

end TemplateUnit

/-! ### Names -/

namespace Lexicon

/-- More names for the references of an element, which are in slots from `slot` on. -/
def addReferences : (slot : Nat) → List Named → Lexicon → Lexicon
  | _, [], L => L
  | slot, r :: rs, L =>
    addReferences (slot + 1) rs
      (L.bind r.name { var := L.nextVar, value := some (Instruction.load.call [.ofNat slot]), owned := true })

def variableValue (parameter : Text) (v : Named) : Term :=
  .prop {} (.ofVar parameter) (if v.value.isEmpty then Compile.implicitValue else v.value)

def addVariables (parameter : Text) : List Named → Lexicon → Lexicon
  | [], L => L
  | v :: vs, L =>
    addVariables parameter vs
      (L.bind v.name { var := v.name ++ L.nextVar, value := some (variableValue parameter v) })

/-- A scope that has taken all its declarations. -/
structure Settled (L : Lexicon) (f : Assembly) : Prop where
  shows : ∃ s, f.scopes.scopes[L.id]? = some s ∧ s.Shows L.own L.outer (f.scopes.DeclaredIn L.outerIds)
  numbered : ∀ p ∈ L.env.flatten, p.2.var = eventName ∨ Numbered L.fresh p.2.var

/-- What a scope declares is bound to a name in force. -/
theorem Settled.exists_binding {L : Lexicon} {f : Assembly} (h : L.Settled f) {x : Text} {t : Term}
    (hmem : (x, t) ∈ f.scopes.declared L.id) :
    ∃ p ∈ L.env.flatten, p.2.var = x ∧ p.2.value = some t := by
  obtain ⟨s, hs, hshows⟩ := h.shows
  rw [ScopeTree.declared, hs] at hmem
  obtain ⟨name, e, he, hvar, hvalue, -⟩ := hshows.declarations x t hmem
  obtain ⟨b, hb, hbvar, hbvalue⟩ := hshows.binding he
  exact ⟨(name, b), Env.mem_flatten_of_find? hb, hbvar.symm.trans hvar, hbvalue t hvalue⟩

end Lexicon

/-- Where the compilation of a unit stands. -/
structure Stage where
  names : Lexicon
  unit : TemplateUnit
  /-- The slot of the last element or container. -/
  anchor : Nat

/-! ### Bindings -/

def TemplateSettings.interpolation (settings : TemplateSettings) (e : Expr) :
    List Term → Except Failure Term :=
  if e.isInterpolation then settings.interpolate else Compile.noInterpolation

theorem passesOn_interpolation (settings : TemplateSettings) (e : Expr) :
    PassesOn (settings.interpolation e) := by
  unfold TemplateSettings.interpolation
  split
  · exact passesOn_interpolate settings
  · exact passesOn_noInterpolation

/-- What is made of a binding. -/
structure LoweredValue where
  pipes : List Pipe
  /-- The binding with its builtins replaced. -/
  expr : Expr
  /-- How many temporaries it needs. -/
  count : Nat
  made : Lowered
  /-- The pure slots of its pure functions, and the first one after them. -/
  blocks : List Block
  stop : Nat

def temporaries (b : Text) (count : Nat) : List Stmt :=
  TemporaryStack.declarations { binding := b, count }

/-- The variable that holds the value of a binding. -/
def valueName (b : Nat) : Text := "currVal_" ++ Text.ofNat b

namespace LoweredValue

variable (v : LoweredValue) (b : Nat)

def statements : List Stmt :=
  if v.count = 0 then [] else temporaries (.ofNat b) v.count ++ [.const (valueName b) v.made.code]

def value : Term := if v.count = 0 then v.made.code else .ofVar (valueName b)

def passed : Term :=
  if v.expr.isInterpolation then v.value b else Instruction.bind.call [v.value b]

end LoweredValue

def TemplateUnit.evaluated (v : LoweredValue) (u : TemplateUnit) : TemplateUnit :=
  { u.addPipes v.pipes with
    bindings := u.bindings + 1
    pureSlots := v.stop
    update := u.update ++ v.statements u.bindings }

/-- The code of a binding in a unit. -/
structure ValueCode (settings : TemplateSettings) (f : Assembly) (L : Lexicon) (u : TemplateUnit)
    (e : Expr) (v : LoweredValue) : Prop where
  converted : Expr.Converted v.pipes [e] [v.expr]
  placed : Pipe.Placed u.slots u.pureSlots v.pipes
  code : (valueAnswers L (settings.interpolation v.expr) f).Code (.ofNat u.bindings) 0 v.count v.expr v.made
  tiles : Tiles (u.pureSlots + Pipe.size v.pipes) v.blocks v.stop
  accounts : Accounts (v.expr.Every fun x => x.isPaired = true) (pureBlocks v.made.code.calls) v.blocks

/-- The instruction for an input is given values besides that of the binding. -/
theorem inputArguments_values (slot : Nat) (name : Text) {unit : List Term}
    (h : ∀ t ∈ unit, ∃ text, t = .ofText text) :
    ∀ t ∈ [.ofNat slot, .ofText name] ++ unit, ∃ value, t = Term.ofValue value := by
  refine List.forall_mem_cons.mpr ⟨⟨_, rfl⟩, List.forall_mem_cons.mpr ⟨⟨_, rfl⟩, fun t ht => ?_⟩⟩
  obtain ⟨text, rfl⟩ := h t ht
  exact ⟨_, rfl⟩

/-! ### Event handlers -/

/-- The statements of a handler: it returns whether its last value is not false. -/
def handlerBody (count : Nat) (ts : List Term) : List Stmt :=
  temporaries Compile.handlerBinding count ++ (ts.dropLast.map Stmt.ofTerm ++
    (ts.getLast?.map fun t => .ret none (.operation .notIdentical (.erased t) (.ofValue (.bool false))
      { type := some .bool })).toList)

/-- The code of an event handler. -/
structure HandlerCode (f : Assembly) (L : Lexicon) (e : Expr) (fn : FunctionCode) (id count : Nat)
    (ts : List Term) : Prop where
  settled : (L.enter id).Settled f
  codes : (handlerAnswers (L.enter id) f).Codes Compile.handlerBinding 0 count e.written.items ts
  params : fn.params = [eventName]
  body : fn.body = f.scopes.declarations id ++ handlerBody count ts

/-! ### The code of items -/

/-- The code of what a query looks for. -/
inductive PredicateCode (pool : Pool) (q : Query) : Term → Prop
  | constant {t : Term} : pool.Constant t → PredicateCode pool q t
  | type {t : Term} : q.predicate = .type t false → PredicateCode pool q t
  | deferred {t : Term} : q.predicate = .type t true →
      PredicateCode pool q (Instruction.resolveForwardRef.call [t])

theorem PredicateCode.mono {pool pool' : Pool} (h : pool.le pool') {q : Query} {t : Term}
    (ht : PredicateCode pool q t) : PredicateCode pool' q t := by
  cases ht with
  | constant ht => exact .constant (ht.mono h)
  | type hq => exact .type hq
  | deferred hq => exact .deferred hq

def Query.created (q : Query) (slot : Nat) (predicate : Term) : Stmt :=
  Instruction.query.stmt ([.ofNat slot, predicate, .ofValue (.bool q.descendants)] ++ q.read.toList)

section

variable (settings : TemplateSettings) (f : Assembly)

/-- What an item adds to a stage. -/
inductive ItemCode : Item → Stage → Stage → Prop
  | none {g : Stage} : ItemCode .mark g g
  | mark {L : Lexicon} {u : TemplateUnit} {a : Nat} {i : Instruction} {args : List Term}
      {span : Option SourceSpan} :
      i ∈ [.projectionDef, .elementEnd, .containerEnd] → (∀ t ∈ args, f.pool.Constant t) →
      ItemCode .mark ⟨L, u, a⟩ ⟨L, u.created [i.stmt args span], a⟩
  | leaf {L : Lexicon} {u : TemplateUnit} {a : Nat} {i : Instruction} {args : List Term}
      {span : Option SourceSpan} :
      (i = .text ∧ args ≠ [] ∨ i = .projection) → (∀ t ∈ args, f.pool.Constant t) →
      ItemCode .leaf ⟨L, u, a⟩ ⟨L, (u.take 1).created [i.stmt (.ofNat u.slots :: args) span], a⟩
  | query {L : Lexicon} {u : TemplateUnit} {a : Nat} {q : Query} {predicate : Term} :
      PredicateCode f.pool q predicate →
      ItemCode (.query q) ⟨L, u, a⟩
        ⟨L, ((u.take 1).created [q.created u.slots predicate]).updated [q.refresh u.slots], a⟩
  | boundText {L : Lexicon} {u u₁ : TemplateUnit} {a : Nat} {e : Expr} {v : LoweredValue}
      {span span' : Option SourceSpan} :
      u₁ = (u.take 1).created [Instruction.text.stmt [.ofNat u.slots] span] →
      ValueCode settings f L u₁ e v →
      ItemCode (.boundText e) ⟨L, u, a⟩
        ⟨L, (u₁.evaluated v).updated
          [Instruction.textBinding.stmt [.ofNat u.slots, v.passed u.bindings] span'], a⟩
  | element {L : Lexicon} {u : TemplateUnit} {a : Nat} {refs : List Named} {space i : Instruction}
      {switch : List Stmt} {args : List Term} {span : Option SourceSpan} :
      i ∈ [.element, .elementStart, .containerStart] →
      (switch = [] ∨ space ∈ [.namespaceHtml, .namespaceMath, .namespaceSvg] ∧
        switch = [space.stmt [] span]) →
      (∀ t ∈ args, f.pool.Constant t) →
      ItemCode (.element refs) ⟨L, u, a⟩
        ⟨L.addReferences (u.slots + 1) refs,
          ({ u with space }.take (1 + refs.length)).created
            (switch ++ [i.stmt (.ofNat u.slots :: args) span]), u.slots⟩
  | container {L : Lexicon} {u : TemplateUnit} {a : Nat} {refs : List Named} {only : Text}
      {args : List Term} {span : Option SourceSpan} :
      (∀ t ∈ args, f.pool.Constant t) →
      ItemCode (.container refs only) ⟨L, u, a⟩
        ⟨L.addReferences (u.slots + 1) refs,
          (u.take (1 + refs.length)).created [Instruction.container.stmt
            (.ofNat u.slots :: .ofVar (u.innerName only u.slots) :: args) span], u.slots⟩
  | output {L : Lexicon} {u : TemplateUnit} {a : Nat} {o : Output} {fn : FunctionCode}
      {id count : Nat} {ts : List Term} {event : Text} {span : Option SourceSpan} :
      HandlerCode f L o.handler fn id count ts →
      ItemCode (.output o) ⟨L, u, a⟩
        ⟨L, u.created [Instruction.listener.stmt [.ofText event, fn.term] span], a⟩
  | input {L : Lexicon} {u : TemplateUnit} {a : Nat} {i : Input} {instruction : Instruction}
      {v : LoweredValue} {unit : List Term} {span : Option SourceSpan} :
      instruction ∈ [.elementProperty, .elementAttr, .elementClass, .elementStyle] →
      ValueCode settings f L u i.value v → (∀ t ∈ unit, ∃ text, t = .ofText text) →
      ItemCode (.input i) ⟨L, u, a⟩
        ⟨L, (u.evaluated v).updated
          [instruction.stmt ([.ofNat a, .ofText i.name, v.passed u.bindings] ++ unit) span], a⟩

mutual

/-- What an item adds to a stage, if it may be a nested template. -/
inductive Step : Item → Stage → Stage → Prop
  | item {i : Item} {g g' : Stage} : ItemCode settings f i g g' → Step i g g'
  | nested {L : Lexicon} {u : TemplateUnit} {a id : Nat} {only : Text} {vars : List Named}
      {items : List Item} {g : Stage} :
      Steps items ⟨(L.enter id).addVariables u.innerParameter vars, u.inner only a id, 0⟩ g →
      g.names.Settled f →
      Step (.nested only vars items) ⟨L, u, a⟩
        ⟨g.names.leave L,
          u.containing (g.unit.function [] (f.scopes.declarations id)).declaration, a⟩

/-- What items add to a stage one after the other. -/
inductive Steps : List Item → Stage → Stage → Prop
  | nil {g : Stage} : Steps [] g g
  | cons {i : Item} {is : List Item} {g g' g'' : Stage} :
      Step i g g' → Steps is g' g'' → Steps (i :: is) g g''

end

end

namespace Steps

variable {settings : TemplateSettings} {f : Assembly}

theorem append {is js : List Item} {g g' g'' : Stage} (h : Steps settings f is g g')
    (h' : Steps settings f js g' g'') : Steps settings f (is ++ js) g g'' := by
  induction is generalizing g with
  | nil =>
      cases h
      exact h'
  | cons i is ih =>
      cases h with
      | cons hi his => exact .cons hi (ih his)

theorem one {i : Item} {g g' : Stage} (h : ItemCode settings f i g g') : Steps settings f [i] g g' :=
  .cons (.item h) .nil

end Steps

section Head

variable {settings : TemplateSettings} {f : Assembly}

theorem ItemCode.blank_eq {i : Item} {g g' : Stage} (h : ItemCode settings f i g g') :
    g'.unit.blank = g.unit.blank := by
  cases h with
  | boundText hu => rw [hu]; rfl
  | _ => rfl

theorem Step.blank_eq {i : Item} {g g' : Stage} (h : Step settings f i g g') :
    g'.unit.blank = g.unit.blank := by
  cases h with
  | item h => exact h.blank_eq
  | nested => rfl

/-- Items do not change what a unit was at its start. -/
theorem Steps.blank_eq {is : List Item} {g g' : Stage} (h : Steps settings f is g g') :
    g'.unit.blank = g.unit.blank := by
  induction is generalizing g with
  | nil =>
      cases h
      rfl
  | cons i is ih =>
      cases h with
      | cons hi his => exact (ih his).trans hi.blank_eq

end Head

end TemplateCompiler
