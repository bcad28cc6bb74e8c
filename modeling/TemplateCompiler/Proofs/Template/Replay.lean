import TemplateCompiler.Proofs.Template.Slots

/-!
# Replaying the first run

What a function of a template does on its first run builds a view. `replay` does so on a machine with a
stack of open elements and a current namespace.

* `ViewNode`, `Builder` : views, and the machine with the ways to use it;
* `Node.view`, `Node.units` : the view of a template and its units, from the nodes alone;
* `Compile.Idles` : steps of a compilation that create nothing the machine sees;
* `Tracks u b ns` : what a unit has created so far takes the machine to `b`. Each node adds its view
  (`compileNode_tracks`), by induction along the tree;
* `creation_rebuilds` : so the first run of each unit rebuilds the nodes of that unit.
-/

namespace TemplateCompiler

/-! ### Views -/

/-- The namespace of an element. -/
inductive Space where
  | html
  | svg
  | mathMl
  deriving DecidableEq, Repr

namespace Space

/-- The namespace that the front of a name asks for. -/
def ofKey (key : Text) : Space := if key == "svg" then .svg else if key == "math" then .mathMl else .html

def instruction : Space → Instruction
  | html => .namespaceHtml
  | svg => .namespaceSvg
  | mathMl => .namespaceMath

theorem instruction_inj {space space' : Space} (h : space.instruction = space'.instruction) :
    space = space' := by
  cases space <;> cases space' <;> first | rfl | cases h

end Space

/-- A node of a view. -/
inductive ViewNode where
  | element (space : Space) (name : Text) (children : List ViewNode)
  /-- What an `ng-container` leaves. -/
  | group (children : List ViewNode)
  | text (value : Text)
  /-- A text that updates fill in. -/
  | boundText
  | projection
  | template

/-- What a node with children is, without them. -/
inductive Opening where
  | element (space : Space) (name : Text)
  | group

namespace Opening

def close (children : List ViewNode) : Opening → ViewNode
  | .element space name => .element space name children
  | .group => .group children

/-- What an element of a template is in the view, if its name can be split. -/
def ofName? (name : Text) : Option Opening :=
  match splitName name with
  | .ok (key, tag) =>
    some (if key.isEmpty && tag == "ng-container" then .group else .element (.ofKey key) tag)
  | .error _ => none

end Opening

/-! ### The machine -/

/-- A machine that builds a view. -/
structure Builder where
  /-- The nodes so far of the innermost level. -/
  nodes : List ViewNode := []
  /-- The open elements, the innermost first, each with the nodes before it. -/
  opened : List (Opening × List ViewNode) := []
  space : Space := .html

/-- The instructions that may stand in the first run of a unit. -/
def Instruction.creators : List Instruction :=
  [.namespaceHtml, .namespaceSvg, .namespaceMath, .element, .elementStart, .elementEnd, .containerStart,
    .containerEnd, .container, .text, .projection, .query, .projectionDef, .pipe, .listener, .reserveSlots]

namespace Builder

/-- More nodes at the innermost level. -/
def add (vs : List ViewNode) (b : Builder) : Builder := { b with nodes := b.nodes ++ vs }

def enter (o : Opening) (b : Builder) : Builder :=
  { b with nodes := [], opened := (o, b.nodes) :: b.opened }

/-- Closes the innermost element, if it is an element proper. -/
def leaveElement (b : Builder) : Option Builder :=
  match b.opened with
  | (.element space name, before) :: opened =>
    some { b with nodes := before ++ [.element space name b.nodes], opened }
  | _ => none

/-- Closes the innermost element, if it is a group. -/
def leaveGroup (b : Builder) : Option Builder :=
  match b.opened with
  | (.group, before) :: opened => some { b with nodes := before ++ [.group b.nodes], opened }
  | _ => none

/-- Changes the namespace; it is an error to change it to itself. -/
def switch (space : Space) (b : Builder) : Option Builder :=
  if b.space = space then none else some { b with space }

def perform (b : Builder) : Instruction → List Term → Option Builder
  | .namespaceHtml, [] => b.switch .html
  | .namespaceSvg, [] => b.switch .svg
  | .namespaceMath, [] => b.switch .mathMl
  | .element, _ :: .lit _ (.text name) :: _ => some (b.add [.element b.space name []])
  | .elementStart, _ :: .lit _ (.text name) :: _ => some (b.enter (.element b.space name))
  | .elementEnd, [] => b.leaveElement
  | .containerStart, _ => some (b.enter .group)
  | .containerEnd, [] => b.leaveGroup
  | .container, _ => some (b.add [.template])
  | .text, [_] => some (b.add [.boundText])
  | .text, [_, .lit _ (.text value)] => some (b.add [.text value])
  | .projection, _ => some (b.add [.projection])
  | .query, _ | .projectionDef, _ | .pipe, _ | .listener, _ | .reserveSlots, _ => some b
  | _, _ => none

/-- What a statement does: it must be the call of an instruction. -/
def step (b : Builder) (s : Stmt) : Option Builder := do
  let c ← s.instruction?
  let i ← Instruction.creators.find? (·.name == c.name)
  b.perform i c.args

/-- What statements do one after the other. -/
def run (b : Builder) (ss : List Stmt) : Option Builder := ss.foldlM step b

end Builder

/-- The view that statements build, if they close everything they open. -/
def replay (ss : List Stmt) : Option (List ViewNode) := do
  let b ← Builder.run {} ss
  if b.opened.isEmpty then some b.nodes else none

namespace Node

mutual

def view : Node → List ViewNode
  | text _ value => [.text value]
  | boundText .. => [.boundText]
  | content .. => [.projection]
  | template .. => [.template]
  | misplaced _ => []
  | element _ name _ children => ((Opening.ofName? name).map (·.close (viewAll children))).toList

def viewAll : List Node → List ViewNode
  | [] => []
  | n :: ns => n.view ++ viewAll ns

end

mutual

/-- The forests of the templates inside a node, each before those inside it. -/
def inner : Node → List (List Node)
  | text .. | boundText .. | content .. | misplaced _ => []
  | element _ _ _ children => innerAll children
  | template _ _ _ _ children => children :: innerAll children

/-- The forests of the templates inside a forest. -/
def innerAll : List Node → List (List Node)
  | [] => []
  | n :: ns => n.inner ++ innerAll ns

end

/-- The forests of all units of a template, the root first. -/
def units (nodes : List Node) : List (List Node) := nodes :: innerAll nodes

end Node

namespace Builder

variable {b b' : Builder} {i : Instruction} {args : List Term} {span : Option SourceSpan}

theorem step_stmt (hi : i ∈ Instruction.creators) : b.step (i.stmt args span) = b.perform i args := by
  have hfind : ∀ i ∈ Instruction.creators, Instruction.creators.find? (·.name == i.name) = some i := by
    decide
  rw [step, Stmt.instruction?_stmt]
  change (Instruction.creators.find? (·.name == i.name)).bind (fun i => b.perform i args) = _
  rw [hfind i hi, Option.bind_some]

theorem perform_element (slot : Term) (name : Text) :
    b.perform .element (slot :: .ofText name :: args) = some (b.add [.element b.space name []]) := rfl

theorem perform_elementStart (slot : Term) (name : Text) :
    b.perform .elementStart (slot :: .ofText name :: args) = some (b.enter (.element b.space name)) := rfl

theorem run_append (ss ss' : List Stmt) : b.run (ss ++ ss') = (b.run ss).bind (run · ss') := by
  rw [run, List.foldlM_append]
  rfl

theorem run_concat {ss : List Stmt} {s : Stmt} (h : b.run ss = some b') :
    b.run (ss ++ [s]) = b'.step s := by
  rw [run_append, h, Option.bind_some, run, List.foldlM_cons]
  exact Option.bind_fun_some _

theorem add_add (vs vs' : List ViewNode) : (b.add vs).add vs' = b.add (vs ++ vs') := by
  rw [add, add, add, List.append_assoc]

end Builder

/-! ### What the machine does not see -/

def Instruction.incidental : List Instruction := [.query, .pipe, .listener, .reserveSlots]

/-- A statement that makes no node. -/
def Stmt.Incidental (s : Stmt) : Prop := ∃ i ∈ Instruction.incidental, ∃ args span, s = i.stmt args span

theorem Stmt.incidental_stmt {i : Instruction} (hi : i ∈ Instruction.incidental) (args : List Term)
    (span : Option SourceSpan) : (i.stmt args span).Incidental := ⟨i, hi, args, span, rfl⟩

theorem TemplateUnit.incidental_reservation (u : TemplateUnit) : ∀ s ∈ u.reservation, s.Incidental := by
  unfold TemplateUnit.reservation
  split
  · exact List.forall_mem_nil _
  · exact List.forall_mem_singleton.mpr (Stmt.incidental_stmt (by decide) _ _)

theorem Stmt.Incidental.step {s : Stmt} (h : s.Incidental) (b : Builder) : b.step s = some b := by
  obtain ⟨i, hi, args, span, rfl⟩ := h
  simp only [Instruction.incidental, List.mem_cons, List.not_mem_nil, or_false] at hi
  rcases hi with rfl | rfl | rfl | rfl <;> exact Builder.step_stmt (by decide)

theorem Builder.run_incidental {ss : List Stmt} (h : ∀ s ∈ ss, s.Incidental) (b : Builder) :
    b.run ss = some b := by
  induction ss with
  | nil => rfl
  | cons s ss ih =>
      obtain ⟨hs, hss⟩ := List.forall_mem_cons.mp h
      rw [run, List.foldlM_cons, hs.step b]
      exact ih hss

/-- A unit that has grown by nothing the machine sees. -/
structure TemplateUnit.Idles (u u' : TemplateUnit) : Prop where
  space : u'.space = u.space
  nested : u'.nested = u.nested
  creation : ∃ ss, u'.creation = u.creation ++ ss ∧ ∀ s ∈ ss, s.Incidental

namespace TemplateUnit.Idles

variable {u u' u'' : TemplateUnit}

theorem of_eq (hspace : u'.space = u.space) (hnested : u'.nested = u.nested)
    (hcreation : u'.creation = u.creation) : Idles u u' :=
  ⟨hspace, hnested, [], by rw [hcreation, List.append_nil], List.forall_mem_nil _⟩

theorem refl (u : TemplateUnit) : Idles u u := .of_eq rfl rfl rfl

theorem trans (h : Idles u u') (h' : Idles u' u'') : Idles u u'' := by
  obtain ⟨ss, hss, hidle⟩ := h.creation
  obtain ⟨ss', hss', hidle'⟩ := h'.creation
  refine ⟨h'.space.trans h.space, h'.nested.trans h.nested, ss ++ ss', ?_, fun s hs => ?_⟩
  · rw [hss', hss, List.append_assoc]
  · exact (List.mem_append.mp hs).elim (hidle s) (hidle' s)

end TemplateUnit.Idles

namespace Compile

variable {α β : Type} {s s' : Assembly}

/-- A step after which a unit has grown by nothing the machine sees. -/
def Idles (p : Compile α) : Prop :=
  ∀ s a s', outcome p s = (.ok a, s') → s.unit.Idles s'.unit

theorem idles_pure {a : α} : Idles (pure a) := by
  intro s b s' h
  cases h
  exact .refl _

theorem idles_throw {f : Failure} : Idles (throw f : Compile α) := by
  intro s b s' h
  cases h

theorem idles_bind {p : Compile α} {q : α → Compile β} (hp : Idles p) (hq : ∀ a, Idles (q a)) :
    Idles (p >>= q) := by
  intro s b s'' h
  obtain ⟨a, s', hrun, hrun'⟩ := outcome_bind_ok.mp h
  exact (hp s a s' hrun).trans (hq a s' b s'' hrun')

/-- A step that looks at the state first. -/
theorem idles_get {q : Assembly → Compile α} (hq : ∀ s, Idles (q s)) : Idles (get >>= q) :=
  idles_bind (fun s a s' h => by cases h; exact .refl _) hq

theorem idles_modify {f : Assembly → Assembly} (hf : ∀ s : Assembly, s.unit.Idles (f s).unit) :
    Idles (modify f : Compile PUnit) := by
  intro s a s' h
  cases h
  exact hf s

theorem idles_changeUnit {f : TemplateUnit → TemplateUnit} (hf : ∀ u : TemplateUnit, u.Idles (f u)) :
    Idles (changeUnit f) := idles_modify fun s => hf s.unit

theorem idles_forM {p : α → Compile PUnit} (hp : ∀ a, Idles (p a)) (as : List α) :
    Idles (as.forM p) := by
  induction as with
  | nil => exact idles_pure
  | cons a as ih => exact idles_bind (hp a) fun _ => ih

theorem idles_locating {p : Compile α} (hp : Idles p) (span : Option SourceSpan) :
    Idles (locating span p) := fun s a s' h => hp s a s' (outcome_locating_ok.mp h)

theorem idles_liftM {x : Except Failure α} : Idles (liftM x : Compile α) := by
  intro s a s' h
  obtain ⟨-, rfl⟩ := outcome_liftM_ok.mp h
  exact .refl _

theorem idles_onPool {p : Pooling α} : Idles (onPool p) := by
  intro s a s' h
  obtain ⟨pool, -, rfl⟩ := outcome_onPool_ok.mp h
  exact .refl _

theorem idles_create {i : Instruction} (hi : i ∈ Instruction.incidental) (args : List Term)
    (span : Option SourceSpan) : Idles (create i args span) :=
  idles_changeUnit fun _ =>
    ⟨rfl, rfl, _, rfl, List.forall_mem_singleton.mpr (Stmt.incidental_stmt hi args span)⟩

theorem idles_allocateSlot : Idles allocateSlot :=
  idles_get fun _ => idles_bind (idles_changeUnit fun _ => .of_eq rfl rfl rfl) fun _ => idles_pure

theorem idles_nextBinding : Idles nextBinding :=
  idles_get fun _ => idles_bind (idles_changeUnit fun _ => .of_eq rfl rfl rfl) fun _ => idles_pure

theorem idles_update (ss : List Stmt) : Idles (update ss) :=
  idles_changeUnit fun _ => .of_eq rfl rfl rfl

theorem idles_freshName : Idles freshName := by
  intro s a s' h
  cases h
  exact .refl _

theorem idles_bindName (name : Text) (e : ScopeEntry) : Idles (bindName name e) := by
  intro s a s' h
  obtain ⟨scopes, -, rfl⟩ := bindName_cases h
  exact .refl _

/-! ### Bindings and handlers -/

/-- The contract of a host whose builtins take pure slots at most. -/
def slotContract (scope : Nat) (builtin : Builtin → List Term → Compile Term)
    (interpolate : List Term → Except Failure Term)
    (h : ∀ kind args s t s', outcome (builtin kind args) s = (.ok t, s') → s.unit.Pays s'.unit) :
    Contract (host scope builtin interpolate) where
  holds _ := True
  later s u := s.unit.Pays u.unit
  refl _ := rfl
  trans h h' := by rw [TemplateUnit.Pays, h', h]
  holds_later _ := trivial
  lookup _ _ _ := True
  builtin _ _ _ _ := True
  later_lookup _ _ := rfl
  lookup_later _ _ _ := trivial
  later_builtin _ _ hrun := h _ _ _ _ _ hrun
  builtin_later _ _ _ _ := trivial

/-- Whatever is lowered with such a host, the machine does not see it. -/
theorem idles_of_lowerBinding {scope : Nat} {builtin : Builtin → List Term → Compile Term}
    {interpolate : List Term → Except Failure Term}
    {h : ∀ kind args s t s', outcome (builtin kind args) s = (.ok t, s') → s.unit.Pays s'.unit}
    {b : Text} {code : Lower Assembly α} {post : Answers → Nat → Nat → α → Prop}
    (hcode : Makes (slotContract scope builtin interpolate h) b code post) {a : α} {stack : TemporaryStack}
    (hrun : outcome (lowerBinding (host scope builtin interpolate) b code) s = (.ok (a, stack), s')) :
    s.unit.Idles s'.unit := by
  have hmade := outcome_lowerBinding hcode (s := s) trivial
  rw [hrun] at hmade
  obtain ⟨-, -, s₁, hpays, hs₁, -⟩ := hmade
  obtain rfl : s' = s₁ := by
    rcases hs₁ with rfl | rfl <;> rfl
  have hunit : s'.unit = { s.unit with pureSlots := s'.unit.pureSlots } := hpays
  rw [hunit]
  exact .of_eq rfl rfl rfl

theorem pays_builtinCode (kind : Builtin) (args : List Term) (s : Assembly) (t : Term) (s' : Assembly)
    (h : outcome (builtinCode kind args) s = (.ok t, s')) : s.unit.Pays s'.unit := by
  cases builtinRun_of_outcome h <;> exact rfl

theorem pays_write {kind : Builtin} {args : List Term} {t : Term}
    (h : outcome (.mk (pure (kind.write args)) : Compile Term) s = (.ok t, s')) : s.unit.Pays s'.unit := by
  obtain rfl := congrArg Prod.snd h
  exact rfl

theorem idles_loweredValue (e : Expr) (interpolate : List Term → Except Failure Term) :
    Idles (loweredValue e interpolate) := by
  refine idles_get fun s => idles_bind idles_nextBinding fun b => idles_bind ?_ fun code =>
    idles_bind (idles_update _) fun _ => idles_pure
  intro s₁ code s₂ h
  obtain ⟨t, stack, hbinding, -⟩ := lowerProperty_simple h
  exact idles_of_lowerBinding (h := pays_builtinCode) (makes_lower e) hbinding

theorem idles_value (cx : Setting) (e : Expr) : Idles (value cx e) := by
  refine idles_bind (fun s e' s' h => ?_) fun e' => ?_
  · obtain ⟨ps, -, hs', -⟩ := Expr.converted_of_outcome h
    rw [hs']
    refine ⟨rfl, rfl, _, rfl, fun s hs => ?_⟩
    obtain ⟨p, -, rfl⟩ := List.mem_map.mp hs
    exact Stmt.incidental_stmt (by decide) _ _
  · split
    · exact idles_loweredValue _ _
    · exact idles_bind (idles_loweredValue _ _) fun _ => idles_pure

theorem idles_handler (name : Text) (action : Expr) : Idles (handler name action) := by
  intro s fn s' h
  unfold handler at h
  obtain ⟨_, _, hget, h⟩ := outcome_bind_ok.mp h
  cases hget
  obtain ⟨_, _, hset, h⟩ := outcome_bind_ok.mp h
  cases hset
  obtain ⟨code, s₂, hlower, h⟩ := outcome_bind_ok.mp h
  cases h
  obtain ⟨e, body, stack, -, hbinding, -⟩ := lowerAction_cases hlower
  have hidles := idles_of_lowerBinding (h := fun _ _ _ _ _ hrun => pays_write hrun)
    (makes_lowerStatements e) hbinding
  exact hidles

/-! ### Elements and templates -/

theorem idles_matchDirectives (cx : Setting) (name : Text) (parts : Parts) :
    Idles (matchDirectives cx name parts) := by
  intro s a s' h
  obtain ⟨directives, rfl⟩ := matchDirectives_cases h
  exact .refl _

theorem idles_sharedArray (entries : List Term) : Idles (sharedArray entries) := by
  unfold sharedArray
  split
  · exact idles_pure
  · exact idles_onPool

theorem idles_bindReferences (refs : List Named) : Idles (bindReferences refs) :=
  idles_bind (idles_forM (fun _ => idles_bind idles_allocateSlot fun _ => idles_bind idles_freshName fun _ =>
    idles_bindName _ _) refs) fun _ => idles_sharedArray _

theorem idles_bindVariables (vars : List Named) : Idles (bindVariables vars) :=
  idles_forM (fun _ => idles_get fun _ => idles_bind idles_freshName fun _ => idles_bindName _ _) vars

theorem idles_listen (element : Text) (o : Output) : Idles (listen element o) := by
  have hlistener : Instruction.listener ∈ Instruction.incidental := by decide
  refine idles_locating ?_ _
  dsimp only
  by_cases hphase : (!o.phase.isEmpty) = true
  · rw [if_pos hphase]
    exact idles_bind idles_throw fun _ => idles_get fun _ => idles_bind (idles_handler _ _) fun _ =>
      idles_create hlistener _ _
  · rw [if_neg hphase]
    exact idles_get fun _ => idles_bind (idles_handler _ _) fun _ => idles_create hlistener _ _

theorem idles_bindInput (cx : Setting) (slot : Nat) (i : Input) : Idles (bindInput cx slot i) :=
  idles_locating (idles_bind idles_liftM fun _ => idles_bind (idles_value cx _) fun _ => idles_update _) _

theorem idles_addQuery (q : Query) : Idles (addQuery q) := by
  refine idles_bind idles_allocateSlot fun slot => ?_
  intro s a s' h
  obtain ⟨stmt, s₁, hcreation, h⟩ := outcome_bind_ok.mp h
  obtain ⟨pool, hrun, rfl⟩ := outcome_onPool_ok.mp hcreation
  obtain ⟨t, pool', -, hreturn⟩ := outcome_bind_ok.mp hrun
  cases hreturn
  cases h
  exact ⟨rfl, rfl, _, rfl, List.forall_mem_singleton.mpr (Stmt.incidental_stmt (by decide) _ _)⟩

end Compile

/-! ### Units and the machine -/

/-- The first run of a function rebuilds a forest. -/
def Rebuilds (ns : List Node) (fn : FunctionCode) : Prop := replay fn.creation = some (Node.viewAll ns)

/-- What a unit has created so far takes the machine to `b`; the functions inside it rebuild the
forests `nss`. -/
structure Tracks (u : TemplateUnit) (b : Builder) (nss : List (List Node)) : Prop where
  run : Builder.run {} u.creation = some b
  space : u.space = b.space.instruction
  nests : Nests Rebuilds nss u

namespace Tracks

variable {u u' : TemplateUnit} {b b' : Builder} {nss : List (List Node)}

theorem blank (h : u = u.blank) : Tracks u {} [] := by
  rw [h]
  exact ⟨rfl, rfl, .nil rfl⟩

theorem idles (h : Tracks u b nss) (hu : u.Idles u') : Tracks u' b nss := by
  obtain ⟨hspace, hnested, ss, hss, hidle⟩ := hu
  refine ⟨?_, hspace.trans h.space, h.nests.congr hnested⟩
  rw [hss, Builder.run_append, h.run, Option.bind_some, Builder.run_incidental hidle]

theorem create (h : Tracks u b nss) {i : Instruction} (hi : i ∈ Instruction.creators) {args : List Term}
    {span : Option SourceSpan} {space : Instruction} (hb : b.perform i args = some b')
    (hspace : space = b'.space.instruction) :
    Tracks { u with space, creation := u.creation ++ [i.stmt args span] } b' nss :=
  ⟨by rw [Builder.run_concat h.run, Builder.step_stmt hi, hb], hspace, h.nests.congr rfl⟩

/-- A step that the machine does not see. -/
theorem after {α : Type} {p : Compile α} (hp : Compile.Idles p) {s s' : Assembly} {a : α}
    (h : Tracks s.unit b nss) (hrun : outcome p s = (.ok a, s')) : Tracks s'.unit b nss :=
  h.idles (hp s a s' hrun)

/-- The function of a unit rebuilds what the machine has come to. -/
theorem function (h : Tracks u b nss) {ns : List Node} (hb : b.opened = []) (hns : b.nodes = Node.viewAll ns)
    (qs : List Query) (tree : ScopeTree) (id : Nat) :
    Rebuilds ns (u.function (Query.temporaries qs) (tree.declarations id)) ∧ List.Forall₂ Rebuilds nss
      (Stmt.unitsAll (u.function (Query.temporaries qs) (tree.declarations id)).body) := by
  obtain ⟨hcreation, hunits⟩ := h.nests.function qs tree id
  refine ⟨?_, hunits⟩
  rw [Rebuilds, hcreation, replay, Builder.run_append, h.run, Option.bind_some,
    Builder.run_incidental u.incidental_reservation]
  change (if b.opened.isEmpty then some b.nodes else none) = _
  rw [hb, hns]
  rfl

end Tracks

namespace Compile

variable {cx : Setting} {s s' : Assembly} {b : Builder} {nss : List (List Node)}

/-- After the change of a namespace the machine is in that namespace. -/
theorem switchSpace_tracks {key : Text} {span : Option SourceSpan} (hs : Tracks s.unit b nss)
    (h : outcome (switchSpace key span) s = (.ok ⟨⟩, s')) :
    Tracks s'.unit { b with space := .ofKey key } nss := by
  have hspace : spaceOf key = (Space.ofKey key).instruction := by
    unfold spaceOf Space.ofKey
    split
    · rfl
    · split <;> rfl
  unfold switchSpace at h
  rw [outcome_bind, outcome_get] at h
  dsimp only at h
  split at h
  · next hne =>
      cases h
      have hswitch : b.switch (.ofKey key) = some { b with space := .ofKey key } :=
        if_neg fun heq => hne (by rw [hs.space, heq, hspace])
      have hperform : b.perform (Space.ofKey key).instruction [] = b.switch (.ofKey key) := by
        cases Space.ofKey key <;> rfl
      have hmem : (Space.ofKey key).instruction ∈ Instruction.creators := by
        cases Space.ofKey key <;> decide
      rw [hspace]
      exact hs.create hmem (hperform.trans hswitch) rfl
  · next heq =>
      cases h
      have hb : b.space = .ofKey key := Space.instruction_inj (by rw [← hs.space, ← hspace, not_not.mp heq])
      rw [← hb]
      exact hs

theorem create_tracks {i : Instruction} {args : List Term} {span : Option SourceSpan} {b' : Builder}
    (hs : Tracks s.unit b nss) (hi : i ∈ Instruction.creators) (hb : b.perform i args = some b')
    (hspace : b'.space = b.space) (h : outcome (create i args span) s = (.ok ⟨⟩, s')) :
    Tracks s'.unit b' nss := by
  cases h
  refine hs.create hi hb ?_
  rw [hspace]
  exact hs.space

/-- The announcement of selectors makes no node. -/
theorem announceContent_tracks {any : Bool} {selectors : List ContentSelector} (hs : Tracks s.unit b nss)
    (h : outcome (announceContent any selectors) s = (.ok ⟨⟩, s')) : Tracks s'.unit b nss := by
  rcases announceContent_cases h with ⟨-, rfl⟩ | ⟨-, args, pool, -, rfl⟩
  · exact hs
  · exact hs.create (by decide) rfl hs.space

/-- The instruction that starts an element, after the change to its namespace. The name is the second
argument, whatever is left of those after it. -/
theorem startInstruction_tracks {i : Instruction} {key tag : Text} {slot : Nat} {attrs refs : Term}
    {span : Option SourceSpan} {s₁ : Assembly} {next : Builder → Builder} (hs : Tracks s.unit b nss)
    (hi : i ∈ Instruction.creators)
    (hnext : ∀ (c : Builder) args, c.perform i (.ofNat slot :: .ofText tag :: args) = some (next c))
    (hspace : ∀ c, (next c).space = c.space) (hswitch : outcome (switchSpace key span) s = (.ok ⟨⟩, s₁))
    (hcreate : outcome (create i (trimNulls [.ofNat slot, .ofText tag, attrs, refs]) span) s₁ =
      (.ok ⟨⟩, s')) : Tracks s'.unit (next { b with space := .ofKey key }) nss := by
  have htrim : trimNulls [.ofNat slot, .ofText tag, attrs, refs] =
      .ofNat slot :: .ofText tag :: trimNulls [attrs, refs] :=
    trimNulls_append [.ofNat slot] [attrs, refs] rfl
  rw [htrim] at hcreate
  exact create_tracks (switchSpace_tracks hs hswitch) hi (hnext _ _) (hspace _) hcreate

/-- The start of an element: it is closed at once, or open until its end. -/
theorem startElement_tracks {span : Option SourceSpan} {name : Text} {parts : Parts} {childless : Bool}
    {form : ElementForm} (hs : Tracks s.unit b nss)
    (h : outcome (startElement cx span name parts childless) s = (.ok form, s')) :
    ∃ o, Opening.ofName? name = some o ∧ ∃ space, match form, o with
      | .closed, o => childless = true ∧ Tracks s'.unit { b.add [o.close []] with space } nss
      | .opened, .element .. => Tracks s'.unit { b.enter o with space } nss
      | .container, .group => Tracks s'.unit { b.enter o with space } nss
      | _, _ => False := by
  unfold startElement at h
  obtain ⟨slot, s₁, hslot, h⟩ := outcome_bind_ok.mp h
  obtain ⟨⟨key, tag⟩, s₂, hsplit, h⟩ := outcome_bind_ok.mp h
  obtain ⟨hname, rfl⟩ := outcome_liftM_ok.mp hsplit
  dsimp only at h
  obtain ⟨_, s₂, hmatch, h⟩ := outcome_bind_ok.mp h
  obtain ⟨attrs, s₃, hattrs, h⟩ := outcome_bind_ok.mp h
  obtain ⟨refs, s₄, hrefs, h⟩ := outcome_bind_ok.mp h
  have hs₄ : Tracks s₄.unit b nss := ((hs.after idles_allocateSlot hslot).after
    (idles_matchDirectives cx tag parts) hmatch).after (idles_sharedArray _) hattrs |>.after
    (idles_bindReferences _) hrefs
  have hend : ∀ {form' : ElementForm} {s₅ : Assembly} {b' : Builder}, Tracks s₅.unit b' nss →
      outcome (do
        parts.outputs.forM (listen tag)
        parts.inputs.forM (bindInput cx slot)
        return form') s₅ = (.ok form, s') → form' = form ∧ Tracks s'.unit b' nss := by
    intro form' s₅ b' hs₅ h
    obtain ⟨_, s₆, houtputs, h⟩ := outcome_bind_ok.mp h
    obtain ⟨_, s₇, hinputs, h⟩ := outcome_bind_ok.mp h
    cases h
    exact ⟨rfl, (hs₅.after (idles_forM (idles_listen tag) _) houtputs).after
      (idles_forM (idles_bindInput cx slot) _) hinputs⟩
  have hopening : Opening.ofName? name =
      some (if key.isEmpty && tag == "ng-container" then .group else .element (.ofKey key) tag) := by
    rw [Opening.ofName?, hname]
  refine ⟨_, hopening, ?_⟩
  by_cases hgroup : (key.isEmpty && tag == "ng-container") = true
  · have hform : elementForm key tag parts childless = .container := if_pos hgroup
    rw [hform] at h
    obtain ⟨_, s₅, hcreate, h⟩ := outcome_bind_ok.mp h
    have hs₅ : Tracks s₅.unit (b.enter .group) nss := create_tracks hs₄ (by decide) rfl rfl hcreate
    obtain ⟨rfl, hs'⟩ := hend hs₅ h
    rw [if_pos hgroup]
    exact ⟨_, hs'⟩
  · rw [if_neg hgroup]
    by_cases hclosed : (childless && parts.outputs.isEmpty) = true
    · have hform : elementForm key tag parts childless = .closed :=
        (if_neg hgroup).trans (if_pos hclosed)
      rw [hform] at h
      obtain ⟨_, s₅, hswitch, h⟩ := outcome_bind_ok.mp h
      obtain ⟨_, s₆, hcreate, h⟩ := outcome_bind_ok.mp h
      have hs₆ := startInstruction_tracks hs₄ (by decide) (fun _ _ => Builder.perform_element _ _)
        (fun _ => rfl) hswitch hcreate
      obtain ⟨rfl, hs'⟩ := hend hs₆ h
      exact ⟨_, (Bool.and_eq_true_iff.mp hclosed).1, hs'⟩
    · have hform : elementForm key tag parts childless = .opened :=
        (if_neg hgroup).trans (if_neg hclosed)
      rw [hform] at h
      obtain ⟨_, s₅, hswitch, h⟩ := outcome_bind_ok.mp h
      obtain ⟨_, s₆, hcreate, h⟩ := outcome_bind_ok.mp h
      have hs₆ := startInstruction_tracks hs₄ (by decide) (fun _ _ => Builder.perform_elementStart _ _)
        (fun _ => rfl) hswitch hcreate
      obtain ⟨rfl, hs'⟩ := hend hs₆ h
      exact ⟨_, hs'⟩

/-- The start of a template leaves its place in the unit around it, and starts a unit of its own. -/
theorem startTemplate_tracks {span : Option SourceSpan} {tag : Text} {parts : Parts}
    {children : List Node} {outer : TemplateUnit} (hs : Tracks s.unit b nss)
    (h : outcome (startTemplate cx span tag parts children) s = (.ok outer, s')) :
    Tracks outer (b.add [.template]) nss ∧ Tracks s'.unit {} [] := by
  unfold startTemplate at h
  obtain ⟨slot, s₁, hslot, h⟩ := outcome_bind_ok.mp h
  obtain ⟨element, s₂, hlift, h⟩ := outcome_bind_ok.mp h
  obtain ⟨_, s₃, hget, h⟩ := outcome_bind_ok.mp h
  cases hget
  dsimp only at h
  obtain ⟨_, s₄, hmatch, h⟩ := outcome_bind_ok.mp h
  obtain ⟨attrs, s₅, hattrs, h⟩ := outcome_bind_ok.mp h
  obtain ⟨refs, s₆, hrefs, h⟩ := outcome_bind_ok.mp h
  obtain ⟨_, s₇, hcreate, h⟩ := outcome_bind_ok.mp h
  obtain ⟨_, s₈, houtputs, h⟩ := outcome_bind_ok.mp h
  obtain ⟨_, s₉, hinputs, h⟩ := outcome_bind_ok.mp h
  have hs₆ : Tracks s₆.unit b nss := ((hs.after idles_allocateSlot hslot).after idles_liftM hlift).after
    (idles_matchDirectives cx "ng-template" parts) hmatch |>.after (idles_sharedArray _) hattrs |>.after
    (idles_bindReferences _) hrefs
  have hs₇ : Tracks s₇.unit (b.add [.template]) nss := create_tracks hs₆ (by decide) rfl rfl hcreate
  have hs₉ := (hs₇.after (idles_forM (idles_listen _) _) houtputs).after
    (idles_forM (idles_bindInput cx slot) _) hinputs
  cases h
  exact ⟨hs₉, .blank rfl⟩

/-- The end of a template adds its function to the unit around it. -/
theorem endTemplate_tracks {outer : TemplateUnit} {ns : List Node} {b' : Builder} {nss' : List (List Node)}
    (houter : Tracks outer b nss) (hs : Tracks s.unit b' nss') (hb : b'.opened = [])
    (hns : b'.nodes = Node.viewAll ns) (h : outcome (endTemplate outer) s = (.ok ⟨⟩, s')) :
    Tracks s'.unit b (nss ++ ns :: nss') := by
  obtain ⟨hfn, hunits⟩ := hs.function hb hns [] s.scopes s.unit.scope
  cases h
  exact ⟨houter.run, houter.space, houter.nests.containing hfn hunits⟩

mutual

theorem compileNode_tracks : ∀ (n : Node) {s s' : Assembly} {b : Builder} {nss : List (List Node)},
    Tracks s.unit b nss → outcome (compileNode cx n) s = (.ok ⟨⟩, s') →
    ∃ space, Tracks s'.unit { b.add n.view with space } (nss ++ n.inner)
  | .text span value, s, s', b, nss, hs, h => by
    rw [compileNode] at h
    obtain ⟨slot, s₁, hslot, h⟩ := outcome_bind_ok.mp h
    rw [Node.view, Node.inner, List.append_nil]
    exact ⟨_, create_tracks (hs.after idles_allocateSlot hslot) (by decide) rfl rfl h⟩
  | .boundText span e, s, s', b, nss, hs, h => by
    rw [compileNode, compileBoundText, outcome_locating_ok] at h
    obtain ⟨slot, s₁, hslot, h⟩ := outcome_bind_ok.mp h
    obtain ⟨_, s₂, hcreate, h⟩ := outcome_bind_ok.mp h
    have hs₂ : Tracks s₂.unit (b.add [.boundText]) nss :=
      create_tracks (hs.after idles_allocateSlot hslot) (by decide) rfl rfl hcreate
    rw [Node.view, Node.inner, List.append_nil]
    exact ⟨_, hs₂.after (idles_bind (idles_value cx e) fun _ => idles_update _) h⟩
  | .content span selector attrs, s, s', b, nss, hs, h => by
    rw [compileNode] at h
    obtain ⟨slot, s₁, hslot, h⟩ := outcome_bind_ok.mp h
    rw [Node.view, Node.inner, List.append_nil]
    exact ⟨_, create_tracks (hs.after idles_allocateSlot hslot) (by decide) rfl rfl h⟩
  | .misplaced part, s, s', b, nss, hs, h => by
    cases h
  | .element span name parts children, s, s', b, nss, hs, h => by
    rw [compileNode] at h
    obtain ⟨form, s₁, hstart, h⟩ := outcome_bind_ok.mp h
    obtain ⟨_, s₂, hchildren, h⟩ := outcome_bind_ok.mp h
    obtain ⟨o, ho, space, hform⟩ := startElement_tracks hs hstart
    rw [Node.view, Node.inner, ho]
    match form, o, hform with
    | .closed, o, ⟨hchildless, hs₁⟩ =>
        obtain rfl := List.isEmpty_iff.mp hchildless
        cases hchildren
        cases h
        exact ⟨_, by rw [Node.innerAll, List.append_nil]; exact hs₁⟩
    | .opened, .element .., hs₁ =>
        obtain ⟨space', hs₂⟩ := compileNodes_tracks children hs₁ hchildren
        exact ⟨_, create_tracks hs₂ (by decide) rfl rfl h⟩
    | .container, .group, hs₁ =>
        obtain ⟨space', hs₂⟩ := compileNodes_tracks children hs₁ hchildren
        exact ⟨_, create_tracks hs₂ (by decide) rfl rfl h⟩
  | .template span tag parts vars children, s, s', b, nss, hs, h => by
    rw [compileNode] at h
    obtain ⟨outer, s₁, hstart, h⟩ := outcome_bind_ok.mp h
    obtain ⟨_, s₂, hvars, h⟩ := outcome_bind_ok.mp h
    obtain ⟨_, s₃, hchildren, h⟩ := outcome_bind_ok.mp h
    obtain ⟨houter, hs₁⟩ := startTemplate_tracks hs hstart
    obtain ⟨space, hs₃⟩ := compileNodes_tracks children (hs₁.after (idles_bindVariables vars) hvars) hchildren
    rw [Node.view, Node.inner]
    exact ⟨_, endTemplate_tracks houter hs₃ rfl rfl h⟩

theorem compileNodes_tracks : ∀ (ns : List Node) {s s' : Assembly} {b : Builder} {nss : List (List Node)},
    Tracks s.unit b nss → outcome (compileNodes cx ns) s = (.ok ⟨⟩, s') →
    ∃ space, Tracks s'.unit { b.add (Node.viewAll ns) with space } (nss ++ Node.innerAll ns)
  | [], s, s', b, nss, hs, h => by
    cases h
    rw [Node.viewAll, Node.innerAll, List.append_nil, Builder.add, List.append_nil]
    exact ⟨_, hs⟩
  | n :: ns, s, s', b, nss, hs, h => by
    rw [compileNodes] at h
    obtain ⟨_, s₁, hn, hns⟩ := outcome_bind_ok.mp h
    obtain ⟨space, hs₁⟩ := compileNode_tracks n hs hn
    obtain ⟨space', hs₂⟩ := compileNodes_tracks ns hs₁ hns
    refine ⟨space', ?_⟩
    rw [Node.viewAll, Node.innerAll, ← List.append_assoc, ← Builder.add_add]
    exact hs₂

end

end Compile

theorem templateFunction_rebuilds {settings : TemplateSettings} {nodes : List Node} {s s' : Assembly}
    {fn : FunctionCode}
    (h : outcome (Compile.templateFunction settings nodes) s = (.ok fn, s')) :
    List.Forall₂ Rebuilds (Node.units nodes) fn.declaration.units := by
  unfold Compile.templateFunction at h
  obtain ⟨_, s₁, hstart, h⟩ := outcome_bind_ok.mp h
  cases hstart
  obtain ⟨_, s₂, hvars, h⟩ := outcome_bind_ok.mp h
  dsimp only at h
  obtain ⟨selectors, s₃, hselectors, h⟩ := outcome_bind_ok.mp h
  obtain ⟨_, s₄, hannounce, h⟩ := outcome_bind_ok.mp h
  obtain ⟨_, s₅, hqueries, h⟩ := outcome_bind_ok.mp h
  obtain ⟨_, s₆, hnodes, h⟩ := outcome_bind_ok.mp h
  cases h
  have hs₂ := (Tracks.blank rfl).after (Compile.idles_bindVariables _) hvars
  have hs₄ := Compile.announceContent_tracks (hs₂.after Compile.idles_liftM hselectors) hannounce
  have hs₅ := hs₄.after (Compile.idles_forM Compile.idles_addQuery _) hqueries
  obtain ⟨space, hs₆⟩ := Compile.compileNodes_tracks nodes hs₅ hnodes
  obtain ⟨hfn, hunits⟩ := hs₆.function rfl rfl settings.ownQueries s'.scopes s'.unit.scope
  exact .cons hfn hunits

/-- The first run of every unit of a template that compiles rebuilds the nodes of that unit, with each
element in the namespace that its name asks for. Namespaces are changed only where they differ. -/
theorem creation_rebuilds {settings : TemplateSettings} {nodes : List Node} {c : CompiledTemplate}
    {pool pool' : Pool} (h : compileTemplate settings nodes pool = (.ok c, pool')) :
    List.Forall₂ (fun ns fn => replay fn.creation = some (Node.viewAll ns)) (Node.units nodes) c.units := by
  unfold compileTemplate at h
  dsimp only at h
  split at h
  · next template viewQuery s' hrun =>
      cases h
      obtain ⟨template, s₁, htemplate, hrun⟩ := outcome_bind_ok.mp hrun
      have hunits := templateFunction_rebuilds htemplate
      split at hrun
      · obtain ⟨fn, s₂, -, hrun⟩ := outcome_bind_ok.mp hrun
        cases hrun
        exact hunits
      · cases hrun
        exact hunits
  · cases h

namespace Sample

/-- A drawing between two texts, with a template in it that holds a formula. -/
def drawing : List Node :=
  let p : Place := ⟨none, none⟩
  [.text none "a",
    .element none ":svg:svg" {}
      [.element none ":svg:g" {} [],
        .template none [] {} [] [.element none "ng-container" {} [.element none ":math:math" {} []]],
        .boundText none (.read p (.context p) "x")],
    .element none "p" { outputs := [⟨"click", .read p (.context p) "y", [], [], none⟩] } []]

def drawn : List (List ViewNode) :=
  [[.text "a", .element .svg "svg" [.element .svg "g" [], .template, .boundText], .element .html "p" []],
    [.group [.element .mathMl "math" []]]]

theorem creation_rebuilds_drawing : ∃ c pool, compileTemplate {} drawing {} = (.ok c, pool) ∧
    List.Forall₂ (fun view fn => replay fn.creation = some view) drawn c.units := by
  obtain ⟨c, pool, h⟩ := exists_compiled_of_isOk
    (by decide +kernel : (compileTemplate {} drawing {}).1.isOk = true)
  have hdrawn : (Node.units drawing).map Node.viewAll = drawn := rfl
  refine ⟨c, pool, h, ?_⟩
  rw [← hdrawn, List.forall₂_map_left_iff]
  exact creation_rebuilds h

end Sample

end TemplateCompiler
