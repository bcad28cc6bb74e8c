import Mathlib.Algebra.Ring.Nat
import TemplateCompiler.Proofs.Expr.Children
import TemplateCompiler.Template.Value

/-!
# Replacing the pipes of a binding

Before a binding is lowered, every pipe in it is put into a data slot, with a block of pure slots for
its values. The conversion never fails, and all it does to the unit is to add these pipes, one after the
other (`TemplateUnit.addPipes`).

* `Converted ps es es'` : `es'` are the expressions `es` with the pipes `ps` in their slots. Putting the
  pipes back by name gives `es` again, so the pipe in a slot is the one of the source;
* `converted_of_outcome` : what a run of the conversion does.
-/

namespace TemplateCompiler

/-- A pipe of a unit. -/
structure Pipe where
  slot : Nat
  /-- The first of its pure slots. -/
  offset : Nat
  name : Text
  /-- How many values it is given. -/
  count : Nat

namespace Pipe

def stmt (p : Pipe) : Stmt := Instruction.pipe.stmt [.ofNat p.slot, .ofText p.name]

/-- How many pure slots pipes take. -/
def size (ps : List Pipe) : Nat := (ps.map fun p => 1 + p.count).sum

def Placed : (slot offset : Nat) → List Pipe → Prop
  | _, _, [] => True
  | slot, offset, p :: ps =>
    p.slot = slot ∧ p.offset = offset ∧ 0 < p.count ∧ Placed (slot + 1) (offset + (1 + p.count)) ps

theorem size_append (ps qs : List Pipe) : size (ps ++ qs) = size ps + size qs := by
  rw [size, List.map_append, List.sum_append]
  rfl

theorem placed_append {ps qs : List Pipe} : ∀ {slot offset : Nat},
    Placed slot offset (ps ++ qs) ↔
      Placed slot offset ps ∧ Placed (slot + ps.length) (offset + size ps) qs := by
  induction ps with
  | nil => simp [Placed, size]
  | cons p ps ih =>
      intro slot offset
      have hsize : offset + (1 + p.count) + size ps = offset + size (p :: ps) := by
        simp only [size, List.map_cons, List.sum_cons]
        omega
      have hslot : slot + 1 + ps.length = slot + (p :: ps).length := by
        rw [List.length_cons]
        omega
      rw [List.cons_append, Placed, Placed, ih, hsize, hslot, and_assoc, and_assoc, and_assoc]

/-- The slot of each pipe is among those taken. -/
theorem Placed.slot_bounds {p : Pipe} {ps : List Pipe} : ∀ {slot offset : Nat},
    Placed slot offset ps → p ∈ ps → slot ≤ p.slot ∧ p.slot < slot + ps.length := by
  induction ps with
  | nil => exact fun _ h => nomatch h
  | cons q ps ih =>
      intro slot offset h hp
      rw [List.length_cons]
      rcases List.mem_cons.mp hp with rfl | hp
      · have := h.1
        omega
      · have := ih h.2.2.2 hp
        omega

end Pipe

def TemplateUnit.addPipes (ps : List Pipe) (u : TemplateUnit) : TemplateUnit :=
  { u with
    slots := u.slots + ps.length
    pureSlots := u.pureSlots + Pipe.size ps
    creation := u.creation ++ ps.map Pipe.stmt }

theorem TemplateUnit.addPipes_nil (u : TemplateUnit) : u.addPipes [] = u := by
  rw [addPipes, List.map_nil, List.append_nil]
  rfl

theorem TemplateUnit.addPipes_append (ps qs : List Pipe) (u : TemplateUnit) :
    u.addPipes (ps ++ qs) = (u.addPipes ps).addPipes qs := by
  simp only [addPipes, List.length_append, Pipe.size_append, List.map_append, Nat.add_assoc,
    List.append_assoc]

namespace Expr

/-- Whether a node can be part of a source: builtins are not, but for calls. -/
def isSource : Expr → Bool
  | builtin _ (.call _) _ => true
  | builtin .. => false
  | _ => true

/-- The slot, first pure slot and number of values of a node that is a pipe in a slot. -/
def placed? : Expr → Option (Nat × Nat × Nat)
  | builtin _ (.pipe slot offset) es => some (slot, offset, es.length)
  | _ => none

def pipes (e : Expr) : List (Nat × Nat × Nat) := e.nodes.filterMap placed?

def pipesAll (es : List Expr) : List (Nat × Nat × Nat) := (nodesAll es).filterMap placed?

theorem mem_pipes {e : Expr} {q : Nat × Nat × Nat} :
    q ∈ e.pipes ↔ e.placed? = some q ∨ q ∈ pipesAll e.children := by
  rw [pipes, nodes_eq, List.mem_filterMap, pipesAll, List.mem_filterMap]
  simp only [List.mem_cons, or_and_right, exists_or, exists_eq_left]

theorem mem_pipesAll {es : List Expr} {q : Nat × Nat × Nat} :
    q ∈ pipesAll es ↔ ∃ e ∈ es, q ∈ e.pipes := by
  rw [pipesAll, List.mem_filterMap]
  constructor
  · rintro ⟨x, hx, hq⟩
    obtain ⟨e, he, hxe⟩ := mem_nodesAll.mp hx
    exact ⟨e, he, List.mem_filterMap.mpr ⟨x, hxe, hq⟩⟩
  · rintro ⟨e, he, hq⟩
    obtain ⟨x, hx, hxq⟩ := List.mem_filterMap.mp hq
    exact ⟨x, mem_nodesAll.mpr ⟨e, he, hx⟩, hxq⟩

theorem mem_pipesAll_cons {e : Expr} {es : List Expr} {q : Nat × Nat × Nat} :
    q ∈ pipesAll (e :: es) ↔ q ∈ e.pipes ∨ q ∈ pipesAll es := by
  simp only [mem_pipesAll, List.mem_cons, or_and_right, exists_or, exists_eq_left]

theorem mem_pipesAll_singleton {e : Expr} {q : Nat × Nat × Nat} : q ∈ pipesAll [e] ↔ q ∈ e.pipes := by
  simp only [mem_pipesAll, List.mem_singleton, exists_eq_left]

theorem pipes_of_isSource {e : Expr} (h : e.Every fun x => x.isSource = true) : e.pipes = [] := by
  refine List.filterMap_eq_nil_iff.mpr fun x hx => ?_
  have hsource := (every_iff_nodes e).mp h x hx
  cases x
  case builtin p k es => cases k <;> first | rfl | cases hsource
  all_goals rfl

/-- The source of a builtin, if `names` are the pipes by slot. -/
def restoreNode (names : Nat → Text) : Expr → Expr
  | builtin p .array es => array p es
  | builtin p (.map ks) es => map p ks es
  | builtin p (.pipe slot _) (e :: es) => pipe p e (names slot) es
  | e => e

/-- The source of an expression whose builtins were replaced. -/
def restore (names : Nat → Text) (e : Expr) : Expr := e.rebuild (restoreNode names)

/-- Nodes that call the same function, pair as many keys, and stand for the same member of the context. -/
structure SameHead (x y : Expr) : Prop where
  function : y.function? = x.function?
  paired : y.isPaired = x.isPaired
  member : y.member? = x.member?

theorem SameHead.trans {x y z : Expr} (h : SameHead x y) (h' : SameHead y z) : SameHead x z :=
  ⟨h'.function.trans h.function, h'.paired.trans h.paired, h'.member.trans h.member⟩

section Node

variable {e : Expr} {es : List Expr}

/-- A node over other children has the same head, and is as much a pipe in a slot and the context. -/
theorem kept_withChildren (h : es.map isContext = e.children.map isContext) :
    SameHead e (e.withChildren es) ∧ (e.withChildren es).placed? = e.placed? ∧
      (e.withChildren es).isContext = e.isContext := by
  have hlength : es.length = e.children.length := by
    have := congrArg List.length h
    rwa [List.length_map, List.length_map] at this
  have hpaired : ∀ ks : List MapKey, (ks.length == es.length) = (ks.length == e.children.length) := by
    rw [hlength]
    exact fun _ => rfl
  have hmember : ∀ {r r' : Expr} (name : Text), r'.isContext = r.isContext →
      (if r'.isContext then some name else none) = if r.isContext then some name else none := by
    intro r r' name hr
    rw [hr]
  cases e <;> simp only [children, List.length_cons, List.length_nil] at h hlength hpaired
  case chain | array | interpolation => exact ⟨⟨rfl, rfl, rfl⟩, rfl, rfl⟩
  case map p ks vs => exact ⟨⟨rfl, hpaired ks, rfl⟩, rfl, rfl⟩
  case builtin p k vs =>
    cases k with
    | map ks => exact ⟨⟨rfl, hpaired ks, rfl⟩, rfl, rfl⟩
    | pipe slot offset => exact ⟨⟨rfl, rfl, rfl⟩, congrArg (fun n => some (slot, offset, n)) hlength, rfl⟩
    | _ => exact ⟨⟨rfl, rfl, rfl⟩, rfl, rfl⟩
  case context | literal | quote => exact ⟨⟨rfl, rfl, rfl⟩, rfl, rfl⟩
  case conditional | indexWrite =>
    match es, hlength with
    | [_, _, _], _ => exact ⟨⟨rfl, rfl, rfl⟩, rfl, rfl⟩
  case not | present =>
    match es, hlength with
    | [_], _ => exact ⟨⟨rfl, rfl, rfl⟩, rfl, rfl⟩
  case read p r name | safeRead p r name =>
    match es, hlength with
    | [_], _ => exact ⟨⟨rfl, rfl, hmember name (List.cons.inj h).1⟩, rfl, rfl⟩
  case index | binary =>
    match es, hlength with
    | [_, _], _ => exact ⟨⟨rfl, rfl, rfl⟩, rfl, rfl⟩
  case write p r name v =>
    match es, hlength with
    | [_, _], _ => exact ⟨⟨rfl, rfl, hmember name (List.cons.inj h).1⟩, rfl, rfl⟩
  case call | pipe =>
    match es, hlength with
    | _ :: _, _ => exact ⟨⟨rfl, rfl, rfl⟩, rfl, rfl⟩
  case method p r name args | safeMethod p r name args =>
    match es, hlength with
    | _ :: _, _ => exact ⟨⟨rfl, rfl, hmember name (List.cons.inj h).1⟩, rfl, rfl⟩

theorem withChildren_withChildren (h : es.length = e.children.length) {es' : List Expr}
    (h' : es'.length = e.children.length) :
    (e.withChildren es).withChildren es' = e.withChildren es' := by
  cases e <;> simp only [children, List.length_cons, List.length_nil] at h h'
  case context | literal | quote | chain | array | map | interpolation | builtin => rfl
  case conditional | indexWrite =>
    match es, h, es', h' with
    | [_, _, _], _, [_, _, _], _ => rfl
  case read | safeRead | not | present =>
    match es, h, es', h' with
    | [_], _, [_], _ => rfl
  case write | index | binary =>
    match es, h, es', h' with
    | [_, _], _, [_, _], _ => rfl
  case method | safeMethod | call | pipe =>
    match es, h, es', h' with
    | _ :: _, _, _ :: _, _ => rfl

end Node

/-- The expressions `es` with the pipes `ps` in their slots. -/
structure Converted (ps : List Pipe) (es es' : List Expr) : Prop where
  contexts : es'.map isContext = es.map isContext
  /-- What does not depend on the parts of a node is kept. -/
  kept : ∀ P : Expr → Prop, (∀ x y, P x → SameHead x y → P y) → EveryAll P es → EveryAll P es'
  /-- The source is found again with the names of the pipes. -/
  restored : ∀ names : Nat → Text, (∀ p ∈ ps, names p.slot = p.name) →
    rebuildAll (restoreNode names) es' = rebuildAll (restoreNode names) es
  /-- There are no pipes in slots besides those that were there before. -/
  placed : ∀ q, q ∈ pipesAll es' ↔ (∃ p ∈ ps, q = (p.slot, p.offset, p.count)) ∨ q ∈ pipesAll es

theorem Converted.length {ps : List Pipe} {es es' : List Expr} (h : Converted ps es es') :
    es'.length = es.length := by
  have := congrArg List.length h.contexts
  rwa [List.length_map, List.length_map] at this

theorem Converted.nil : Converted [] [] [] :=
  ⟨rfl, fun _ _ => id, fun _ _ => rfl, fun q => by simp⟩

theorem Converted.cons {ps qs : List Pipe} {e e' : Expr} {es es' : List Expr}
    (h : Converted ps [e] [e']) (h' : Converted qs es es') :
    Converted (ps ++ qs) (e :: es) (e' :: es') := by
  refine ⟨?_, fun P hP hes => ?_, fun names hnames => ?_, fun q => ?_⟩
  · rw [List.map_cons, List.map_cons, h'.contexts, (List.cons.inj h.contexts).1]
  · exact ⟨(h.kept P hP ⟨hes.1, trivial⟩).1, h'.kept P hP hes.2⟩
  · have he := h.restored names fun p hp => hnames p (List.mem_append_left qs hp)
    have hes := h'.restored names fun p hp => hnames p (List.mem_append_right ps hp)
    rw [rebuildAll_cons, rebuildAll_cons] at he ⊢
    rw [hes, (List.cons.inj he).1]
  · have he := h.placed q
    rw [mem_pipesAll_singleton, mem_pipesAll_singleton] at he
    rw [mem_pipesAll_cons, mem_pipesAll_cons, he, h'.placed q]
    simp only [List.mem_append, or_and_right, exists_or]
    exact or_or_or_comm

/-- What becomes of a node whose children were converted. -/
structure ConvertedNode (ps : List Pipe) (x y : Expr) : Prop where
  children : y.children = x.children
  context : y.isContext = x.isContext
  head : SameHead x y
  restored : ∀ names : Nat → Text, (∀ p ∈ ps, names p.slot = p.name) →
    ∀ cs, cs.length = x.children.length →
      restoreNode names (y.withChildren cs) = restoreNode names (x.withChildren cs)
  placed : ∀ q, y.placed? = some q ↔
    (∃ p ∈ ps, q = (p.slot, p.offset, p.count)) ∨ x.placed? = some q

theorem ConvertedNode.refl (x : Expr) : ConvertedNode [] x x :=
  ⟨rfl, rfl, ⟨rfl, rfl, rfl⟩, fun _ _ _ _ => rfl, fun q => by simp⟩

theorem Converted.node {ps qs : List Pipe} {e y : Expr} {cs : List Expr}
    (h : Converted ps e.children cs) (hy : ConvertedNode qs (e.withChildren cs) y) :
    Converted (ps ++ qs) [e] [y] := by
  have hlength := h.length
  have hcs : y.children = cs := by rw [hy.children, children_withChildren hlength]
  obtain ⟨hhead, hplaced, hcontext⟩ := kept_withChildren h.contexts
  refine ⟨congrArg ([·]) (hy.context.trans hcontext), fun P hP he => ?_, fun names hnames => ?_,
    fun q => ?_⟩
  · obtain ⟨hnode, hchildren⟩ := every_iff.mp he.1
    refine ⟨every_iff.mpr ⟨?_, ?_⟩, trivial⟩
    · exact hP e y hnode (hhead.trans hy.head)
    · rw [hcs]
      exact h.kept P hP hchildren
  · have hbelow := h.restored names fun p hp => hnames p (List.mem_append_left qs hp)
    have hbuilt : (rebuildAll (restoreNode names) e.children).length = e.children.length :=
      length_rebuildAll _ _
    have hrestored := hy.restored names
      (fun p hp => hnames p (List.mem_append_right ps hp)) (rebuildAll (restoreNode names) e.children)
      (by rw [children_withChildren hlength, hlength, hbuilt])
    rw [rebuildAll_cons, rebuildAll_cons, rebuild_eq, rebuild_eq, hcs, hbelow, hrestored,
      withChildren_withChildren hlength hbuilt]
  · rw [mem_pipesAll_singleton, mem_pipesAll_singleton, mem_pipes, mem_pipes, hcs, hy.placed q, hplaced,
      h.placed q]
    simp only [List.mem_append, or_and_right, exists_or]
    rw [or_comm, or_or_or_comm, or_comm (a := q ∈ _)]

/-! ### Runs of the conversion -/

variable (types : List (Text × Term))

/-- What a run of the conversion does to the state: it adds pipes to the unit. -/
def Adds (ps : List Pipe) (s s' : Assembly) : Prop :=
  s' = { s with unit := s.unit.addPipes ps, pipes := s'.pipes } ∧
    Pipe.Placed s.unit.slots s.unit.pureSlots ps

theorem Adds.refl (s : Assembly) : Adds [] s s := by
  refine ⟨?_, trivial⟩
  rw [TemplateUnit.addPipes_nil]

theorem Adds.trans {ps qs : List Pipe} {s t u : Assembly} (h : Adds ps s t) (h' : Adds qs t u) :
    Adds (ps ++ qs) s u := by
  obtain ⟨hst, hps⟩ := h
  obtain ⟨htu, hqs⟩ := h'
  rw [hst] at htu hqs
  refine ⟨?_, Pipe.placed_append.mpr ⟨hps, hqs⟩⟩
  rw [htu, TemplateUnit.addPipes_append]

theorem replaceBuiltin_pipeFactory (x : Expr) (s : Assembly) : ∃ qs y s',
    outcome (x.replaceBuiltin (Compile.pipeFactory types)) s = (.ok y, s') ∧
      ConvertedNode qs x y ∧ Adds qs s s' := by
  cases x
  case array p es =>
    refine ⟨[], .builtin p .array es, s, rfl,
      ⟨rfl, rfl, ⟨rfl, rfl, rfl⟩, fun _ _ _ _ => rfl, fun q => ?_⟩, .refl s⟩
    simp [placed?]
  case map p ks es =>
    refine ⟨[], .builtin p (.map ks) es, s, rfl,
      ⟨rfl, rfl, ⟨rfl, rfl, rfl⟩, fun _ _ _ _ => rfl, fun q => ?_⟩, .refl s⟩
    simp [placed?]
  case pipe p a name args =>
    let q : Pipe := ⟨s.unit.slots, s.unit.pureSlots, name, args.length + 1⟩
    obtain ⟨s', hrun, hadds⟩ : ∃ s',
        outcome ((pipe p a name args).replaceBuiltin (Compile.pipeFactory types)) s =
          (.ok (.builtin p (.pipe q.slot q.offset) (a :: args)), s') ∧ Adds [q] s s' := by
      simp only [replaceBuiltin, Compile.pipeFactory]
      cases types.reverse.lookup name with
      | none => exact ⟨_, rfl, rfl, rfl, rfl, Nat.succ_pos _, trivial⟩
      | some type => exact ⟨_, rfl, rfl, rfl, rfl, Nat.succ_pos _, trivial⟩
    refine ⟨[q], _, s', hrun,
      ⟨rfl, rfl, ⟨rfl, rfl, rfl⟩, fun names hnames cs hcs => ?_, fun r => ?_⟩, hadds⟩
    · match cs, hcs with
      | c :: cs, _ =>
        have hname : names q.slot = name := hnames q List.mem_cons_self
        change pipe p c (names q.slot) cs = pipe p c name cs
        rw [hname]
    · simp [placed?, q, eq_comm]
  all_goals exact ⟨[], _, s, rfl, .refl _, .refl s⟩

theorem rebuildAllM_pipeFactory {es : List Expr}
    (ih : ∀ e ∈ es, ∀ s, ∃ ps e' s',
      outcome (e.replaceBuiltins (Compile.pipeFactory types)) s = (.ok e', s') ∧
        Converted ps [e] [e'] ∧ Adds ps s s') :
    ∀ s, ∃ ps es' s', outcome (rebuildAllM (replaceBuiltin (Compile.pipeFactory types)) es) s =
      (.ok es', s') ∧ Converted ps es es' ∧ Adds ps s s' := by
  induction es with
  | nil => exact fun s => ⟨[], [], s, rfl, .nil, .refl s⟩
  | cons e es ihs =>
      intro s
      obtain ⟨ps, e', s₁, he, hconv, hadds⟩ := ih e List.mem_cons_self s
      obtain ⟨qs, es', s₂, hes, hconvs, hadds'⟩ :=
        ihs (fun c hc => ih c (List.mem_cons_of_mem e hc)) s₁
      refine ⟨ps ++ qs, e' :: es', s₂, ?_, hconv.cons hconvs, hadds.trans hadds'⟩
      rw [replaceBuiltins] at he
      rw [rebuildAllM_cons, outcome_bind, he]
      dsimp only
      rw [outcome_bind, hes]
      rfl

/-- The conversion of a binding succeeds, and adds the pipes of the binding to the unit. -/
theorem replaceBuiltins_pipeFactory (e : Expr) : ∀ s, ∃ ps e' s',
    outcome (e.replaceBuiltins (Compile.pipeFactory types)) s = (.ok e', s') ∧
      Converted ps [e] [e'] ∧ Adds ps s s' := by
  induction e using induct with
  | step e ih =>
      intro s
      obtain ⟨ps, cs, s₁, hcs, hconv, hadds⟩ := rebuildAllM_pipeFactory types ih s
      obtain ⟨qs, y, s₂, hy, hnode, hadds'⟩ :=
        replaceBuiltin_pipeFactory types (e.withChildren cs) s₁
      refine ⟨ps ++ qs, y, s₂, ?_, hconv.node hnode, hadds.trans hadds'⟩
      rw [replaceBuiltins, rebuildM_eq, outcome_bind, hcs]
      exact hy

/-- A run of the conversion adds the pipes of the binding to the unit. -/
theorem converted_of_outcome {types : List (Text × Term)} {e e' : Expr} {s s' : Assembly}
    (h : outcome (e.replaceBuiltins (Compile.pipeFactory types)) s = (.ok e', s')) :
    ∃ ps, Converted ps [e] [e'] ∧ Adds ps s s' := by
  obtain ⟨ps, e₁, s₁, hrun, hconv, hadds⟩ := replaceBuiltins_pipeFactory types e s
  rw [hrun] at h
  cases h
  exact ⟨ps, hconv, hadds⟩

end Expr

end TemplateCompiler
