import TemplateCompiler.Proofs.Template.Slots

/-!
# Names in templates are resolved lexically

The compilation resolves names through scopes that change with every name it looks up. What comes of it
can be told from the template alone: a name in a binding stands for the variable of the nearest unit
that has bound it, and for a property of the component otherwise.

* `Naming.answers` : what a name stands for, read off the names at a place. `code_read_context` and
  `code_method_context` say what this means for reads and calls;
* `Item.Resolved` : the code of an item whose names are resolved so;
* `names_resolve_lexically` : the functions of a template consist of the code of its items.
-/

namespace TemplateCompiler

/-! ### Answers by place -/

namespace Naming

/-- The answers to a binding where `N` are the names in force. -/
def answers (N : Naming) (builtin : Builtin → List Term → Term → Prop)
    (interpolate : List Term → Except Failure Term) : Answers where
  context := .ofVar contextName
  lookup name found := found = (N.find? name).map fun x => .term (.ofVar x)
  builtin
  interpolate args t := interpolate args = .ok t

variable {N : Naming} {builtin : Builtin → List Term → Term → Prop}
  {interpolate : List Term → Except Failure Term} {b name : Text} {d n : Nat} {p q : Place} {m : Lowered}

/-- A name that is read is a variable of the template, or else a property of the component. -/
theorem code_read_context (h : (N.answers builtin interpolate).Code b d n (.read p (.context q) name) m) :
    m.code = ((N.find? name).map .ofVar).getD (.prop {} (.ofVar contextName) name) := by
  cases h with
  | spine h =>
    cases h with
    | plain h =>
      cases h with
      | read hc hfound =>
        cases hc
        obtain rfl : _ = (N.find? name).map fun x => Found.term (.ofVar x) := hfound
        cases N.find? name <;> rfl

/-- A name that is called is a variable of the template, or else a method of the component. -/
theorem code_method_context {args : List Expr} (hname : name ≠ "$any")
    (h : (N.answers builtin interpolate).Code b d n (.method p (.context q) name args) m) :
    ∃ k ts, (N.answers builtin interpolate).Codes b d k args ts ∧
      m.code = ((N.find? name).map fun x => .apply (.ofVar x) ts).getD
        (.applyMethod (.ofVar contextName) name ts) := by
  cases h with
  | spine h =>
    cases h with
    | plain h =>
      cases h with
      | erased herased => exact absurd (eq_of_beq herased) hname
      | method _ hargs hc hfound =>
        cases hc
        obtain rfl : _ = (N.find? name).map fun x => Found.term (.ofVar x) := hfound
        refine ⟨_, _, hargs, ?_⟩
        cases N.find? name <;> rfl

end Naming

/-! ### Items -/

/-- What the code of an item adds to a function. -/
structure ItemParts where
  creation : List Stmt := []
  update : List Stmt := []

/-- The code of a binding where `N` are the names in force. It is made from the binding with its
builtins replaced; `pipes` are the names of the pipes by slot. -/
structure Naming.Value (N : Naming) (settings : TemplateSettings) (pool : Pool) (pipes : Nat → Text)
    (e : Expr) (b : Nat) (v : LoweredValue) : Prop where
  restored : v.expr.restore pipes = e.restore pipes
  code : (N.answers (BuiltinCode pool) (settings.interpolation v.expr)).Code (.ofNat b) 0 v.count
    v.expr v.made

/-- The code of an event handler where `N` are the names in force. It declares constants first. -/
structure Naming.Handler (N : Naming) (e : Expr) (fn : FunctionCode) (count : Nat) (ts : List Term) :
    Prop where
  params : fn.params = [eventName]
  body : ∃ ds : List (Text × Term), fn.body = ds.map (fun d => .const d.1 d.2) ++ handlerBody count ts
  codes : (N.answers (fun kind args t => t = kind.written args) Compile.noInterpolation).Codes
    Compile.handlerBinding 0 count e.written.items ts

namespace Item

def isBinding : Item → Bool
  | .boundText _ | .output _ | .input _ => true
  | _ => false

/-- The code of an item where `N` are the names in force. Items without bindings have any code. -/
inductive Resolved (settings : TemplateSettings) (pool : Pool) (pipes : Nat → Text) (N : Naming) :
    Item → ItemParts → Prop
  | other {i : Item} {parts : ItemParts} :
      i.isBinding = false → Resolved settings pool pipes N i parts
  | boundText {e : Expr} {b slot : Nat} {v : LoweredValue} {span span' : Option SourceSpan} :
      N.Value settings pool pipes e b v →
      Resolved settings pool pipes N (.boundText e)
        { creation := Instruction.text.stmt [.ofNat slot] span :: v.pipes.map Pipe.stmt
          update := v.statements b ++
            [Instruction.textBinding.stmt [.ofNat slot, v.passed b] span'] }
  | input {i : Input} {instruction : Instruction} {b slot : Nat} {v : LoweredValue} {unit : List Term}
      {span : Option SourceSpan} :
      instruction ∈ [.elementProperty, .elementAttr, .elementClass, .elementStyle] →
      N.Value settings pool pipes i.value b v →
      Resolved settings pool pipes N (.input i)
        { creation := v.pipes.map Pipe.stmt
          update := v.statements b ++
            [instruction.stmt ([.ofNat slot, .ofText i.name, v.passed b] ++ unit) span] }
  | output {o : Output} {fn : FunctionCode} {count : Nat} {ts : List Term} {event : Text}
      {span : Option SourceSpan} :
      N.Handler o.handler fn count ts →
      Resolved settings pool pipes N (.output o)
        { creation := [Instruction.listener.stmt [.ofText event, fn.term] span] }

mutual

/-- An item without the bindings inside. -/
def bare : Item → Item
  | .nested only vars items => .nested only vars (bareAll items)
  | i => i

/-- Items without the bindings among and inside them. -/
def bareAll : List Item → List Item
  | [] => []
  | i :: is => if i.isBinding then bareAll is else i.bare :: bareAll is

end

theorem after_of_isBinding {N : Naming} {i : Item} (h : i.isBinding = true) : i.after N = N := by
  cases i with
  | boundText | output | input => rw [after]
  | _ => cases h

mutual

theorem after_bare : ∀ (i : Item) (N : Naming), i.bare.after N = i.after N
  | .nested only vars items, N => by rw [bare, after, after, afterAll_bareAll]
  | .mark, _ | .leaf, _ | .query _, _ | .boundText _, _ | .output _, _ | .input _, _
  | .element _, _ | .container .., _ => by rw [bare]; simp

/-- The names in force do not depend on the bindings before. -/
theorem afterAll_bareAll : ∀ (is : List Item) (N : Naming), afterAll N (bareAll is) = afterAll N is
  | [], _ => by rw [bareAll]
  | i :: is, N => by
    rw [bareAll, afterAll]
    split
    · next h => rw [after_of_isBinding h, afterAll_bareAll is]
    · rw [afterAll, after_bare i, afterAll_bareAll is]

end

end Item

/-- A function consists of the code of the items of a unit, with their names resolved; it may end its
first run with more. -/
def UnitPlan.Resolved (settings : TemplateSettings) (pool : Pool) (p : UnitPlan) (fn : FunctionCode) :
    Prop :=
  ∃ (parts : List ItemParts) (rest : List Stmt),
    List.Forall₂ (fun i ps => Item.Resolved settings pool fn.pipeName i.1 i.2 ps)
      (Item.located p.names p.items) parts ∧
    fn.creation = parts.flatMap ItemParts.creation ++ rest ∧
    fn.update = parts.flatMap ItemParts.update

/-! ### Compiled templates -/

section

variable {settings : TemplateSettings} {f : Assembly}

theorem valueAnswers_le_naming (L : Lexicon) (interpolate : List Term → Except Failure Term) :
    (valueAnswers L interpolate f).Le (L.naming.answers (BuiltinCode f.pool) interpolate) := by
  refine ⟨rfl, fun {name found} h => ?_, id, id⟩
  change found = (L.naming.find? name).map fun x => Found.term (.ofVar x)
  rw [h.1, Lexicon.find?_naming, Option.map_map]
  rfl

theorem ValueCode.resolved {L : Lexicon} {u : TemplateUnit} {e : Expr} {v : LoweredValue}
    (h : ValueCode settings f L u e v) {pipes : Nat → Text}
    (hpipes : ∀ p ∈ v.pipes, pipes p.slot = p.name) :
    L.naming.Value settings f.pool pipes e u.bindings v :=
  ⟨(List.cons.inj (h.converted.restored pipes hpipes)).1, h.code.mono (valueAnswers_le_naming L _)⟩

theorem HandlerCode.resolved {L : Lexicon} {e : Expr} {fn : FunctionCode} {id count : Nat}
    {ts : List Term} (h : HandlerCode f L e fn id count ts) : L.naming.Handler e fn count ts := by
  have hle : (handlerAnswers (L.enter id) f).Le
      (L.naming.answers (fun kind args t => t = kind.written args) Compile.noInterpolation) := by
    refine ⟨rfl, fun {name found} hf => ?_, fun ht => ht, fun ht => ht⟩
    -- A handler binds no names, so it has those of the unit.
    change found = ((L.enter id).naming.find? name).map fun x => Found.term (.ofVar x)
    rw [hf.1, Lexicon.find?_naming, Option.map_map]
    rfl
  refine ⟨h.params, ⟨f.scopes.declared id, ?_⟩, h.codes.mono hle⟩
  rw [h.body, ScopeTree.declarations_eq_map]

/-- What an item adds to the function of a unit. -/
theorem Step.resolved {i : Item} {g g' : Stage} (h : Step settings f i g g') {pipes : Nat → Text}
    (hpipes : ∀ p : Pipe, p.stmt ∈ g'.unit.creation → pipes p.slot = p.name) :
    ∃ parts : ItemParts, Item.Resolved settings f.pool pipes g.names.naming i parts ∧
      g'.unit.creation = g.unit.creation ++ parts.creation ∧
      g'.unit.update = g.unit.update ++ parts.update := by
  cases h with
  | nested => exact ⟨{}, .other rfl, (List.append_nil _).symm, (List.append_nil _).symm⟩
  | item h =>
      cases h with
      | none => exact ⟨{}, .other rfl, (List.append_nil _).symm, (List.append_nil _).symm⟩
      | mark | leaf | element | container =>
          exact ⟨{ creation := _ }, .other rfl, rfl, (List.append_nil _).symm⟩
      | query => exact ⟨⟨_, _⟩, .other rfl, rfl, rfl⟩
      | @boundText L u u₁ a e v span span' hu hv =>
          have hresolved := hv.resolved fun p hp =>
            hpipes p (List.mem_append_right _ (List.mem_map_of_mem hp))
          refine ⟨_, @Item.Resolved.boundText _ _ _ _ e _ u.slots v span span' hresolved, ?_, ?_⟩
          · rw [hu]
            exact List.append_assoc ..
          · rw [hu]
            exact List.append_assoc ..
      | output ho => exact ⟨_, .output ho.resolved, rfl, (List.append_nil _).symm⟩
      | input hi hv =>
          have hresolved := hv.resolved fun p hp =>
            hpipes p (List.mem_append_right _ (List.mem_map_of_mem hp))
          exact ⟨_, .input hi hresolved, rfl, List.append_assoc ..⟩

theorem Steps.resolved {is : List Item} {g g' : Stage} (h : Steps settings f is g g')
    {pipes : Nat → Text} (hpipes : ∀ p : Pipe, p.stmt ∈ g'.unit.creation → pipes p.slot = p.name) :
    ∃ parts : List ItemParts,
      List.Forall₂ (fun i ps => Item.Resolved settings f.pool pipes i.1 i.2 ps)
        (Item.located g.names.naming is) parts ∧
      g'.unit.creation = g.unit.creation ++ parts.flatMap ItemParts.creation ∧
      g'.unit.update = g.unit.update ++ parts.flatMap ItemParts.update := by
  induction is generalizing g with
  | nil =>
      cases h
      exact ⟨[], .nil, (List.append_nil _).symm, (List.append_nil _).symm⟩
  | cons i is ih =>
      cases h with
      | cons hi his =>
          obtain ⟨ss, hss, -⟩ := his.laid
          obtain ⟨ps, hps, hcreation, hupdate⟩ := hi.resolved fun p hp =>
            hpipes p (hss ▸ List.mem_append_left ss hp)
          obtain ⟨parts, hparts, hcreations, hupdates⟩ := ih his
          refine ⟨ps :: parts, ?_, ?_, ?_⟩
          · rw [hi.naming_eq] at hparts
            exact .cons hps hparts
          · rw [hcreations, hcreation, List.append_assoc, List.flatMap_cons]
          · rw [hupdates, hupdate, List.append_assoc, List.flatMap_cons]

theorem UnitPlan.Code.resolved {p : UnitPlan} {fn : FunctionCode} (h : p.Code settings f fn) :
    p.Resolved settings f.pool fn := by
  obtain ⟨start, g, h⟩ := h
  obtain ⟨parts, hparts, hcreation, hupdate⟩ := h.steps.resolved fun p hp =>
    h.laid.pipeNameIn_eq (h.creation ▸ List.mem_append_left _ hp)
  have hempty : start.unit.creation = [] ∧ start.unit.update = [] := by
    rw [h.blank]
    exact ⟨rfl, rfl⟩
  rw [h.names] at hparts
  refine ⟨parts, g.unit.reservation, hparts, ?_, ?_⟩
  · rw [h.creation, hcreation, hempty.1, List.nil_append]
  · rw [h.update, hupdate, hempty.2, List.nil_append]

end

/-- Names resolve lexically. Each function of a compiled template is the code of the items of one unit,
in which a name stands for the variable of the nearest unit that has bound it before; which one this is
does not depend on the bindings before. -/
theorem names_resolve_lexically {settings : TemplateSettings} {nodes : List Node} {c : CompiledTemplate}
    {pool pool' : Pool} (hpool : pool.Sound) (h : compileTemplate settings nodes pool = (.ok c, pool')) :
    List.Forall₂ (UnitPlan.Resolved settings pool') (settings.plan nodes) c.units ∧
      ∀ N is, Item.afterAll N (Item.bareAll is) = Item.afterAll N is := by
  obtain ⟨f, g, rfl, hcompiled⟩ := compiled_of_compileTemplate hpool h
  exact ⟨hcompiled.units.imp fun _ _ h => h.resolved, fun N is => Item.afterAll_bareAll is N⟩

namespace Sample

/-- An element with the reference `r` and a listener of it, around a template with the variable `r`, after
which `r` is read again. -/
def shadowing : List Node :=
  let p : Place := ⟨none, none⟩
  let r : Expr := .read p (.context p) "r"
  [.element none "a"
    { refs := [⟨"r", [], none⟩], outputs := [⟨"click", .method p (.context p) "f" [r], [], [], none⟩] }
    [.template none [] {} [⟨"r", [], none⟩] [.boundText none r], .boundText none r]]

theorem names_resolve_lexically_shadowing : Pool.Sound {} ∧ ∃ c pool,
    compileTemplate {} shadowing {} = (.ok c, pool) ∧
      List.Forall₂ (UnitPlan.Resolved {} pool) (({} : TemplateSettings).plan shadowing) c.units := by
  obtain ⟨c, pool, h⟩ := exists_compiled_of_isOk
    (by decide +kernel : (compileTemplate {} shadowing {}).1.isOk = true)
  exact ⟨.empty, c, pool, h, (names_resolve_lexically .empty h).1⟩

end Sample

end TemplateCompiler
