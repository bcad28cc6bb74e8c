import TemplateCompiler.Proofs.Template.Resolution
import TemplateCompiler.Proofs.Template.Values

/-!
# What updates refer to

What a unit creates is found again by its slot. Every call in the update code of a unit that names a slot
names one that the unit has created the right thing in.

* `Addressed` : what the calls in update code can be;
* `referenceSlots` : the slots of references, counted from their elements and containers;
* `UnitPlan.Consistent` : all that is said about the slots of a unit;
* `slots_agree` : it holds of every unit of a compiled template.
-/

namespace TemplateCompiler

/-! ### Calls -/

/-- The name of a call and the slot that it names. -/
def RuntimeCall.target (c : RuntimeCall) : Text × Option Nat := (c.name, c.args.head?.bind Term.nat?)

/-- The instructions that bind something of an element or container. -/
def Instruction.bindings : List Instruction :=
  [.elementProperty, .elementAttr, .elementClass, .elementStyle]

/-- A call in update code that agrees with what was created; `pipes` are the names of the pipes by slot.
The pipes in `given` were in slots before, and nothing is created for them. -/
inductive Addressed (pool : Pool) (queries : List Query) (pipes : Nat → Text)
    (given : List (Nat × Nat × Nat)) (creation update : List Stmt) : RuntimeCall → Prop
  /-- These instructions name no slots of their own. -/
  | value {c : RuntimeCall} :
      (c.name = Instruction.bind.name ∨ (∃ n, c.name = (Instruction.interpolation n).name) ∨
        ∃ n, c.name = (Instruction.pureFunction n).name) →
      Addressed pool queries pipes given creation update c
  | binding {i : Instruction} {s : Stmt} {slot : Nat} {args : List Term} :
      i ∈ Instruction.bindings → s ∈ creation → s.isAnchor = true → s.slot? = some slot →
      Addressed pool queries pipes given creation update ⟨i.name, .ofNat slot :: args⟩
  | text {slot : Nat} {args : List Term} {span : Option SourceSpan} :
      Instruction.text.stmt [.ofNat slot] span ∈ creation →
      Addressed pool queries pipes given creation update
        ⟨Instruction.textBinding.name, .ofNat slot :: args⟩
  | pipe {n : Int} {slot : Nat} {args : List Term} :
      Instruction.pipe.stmt [.ofNat slot, .ofText (pipes slot)] ∈ creation →
      Addressed pool queries pipes given creation update
        ⟨(Instruction.pipeBind n).name, .ofNat slot :: args⟩
  | given {slot offset : Nat} {args : List Term} : (slot, offset, args.length) ∈ given →
      Addressed pool queries pipes given creation update
        ⟨(Instruction.pipeBind args.length).name,
          .ofNat slot :: .ofNat offset :: Instruction.spread Instruction.maxPipeBind args⟩
  | query {q : Query} {slot : Nat} {predicate : Term} {c : RuntimeCall} :
      q ∈ queries → PredicateCode pool q predicate → q.created slot predicate ∈ creation →
      q.refresh slot ∈ update → c ∈ (q.refresh slot).calls →
      Addressed pool queries pipes given creation update c

theorem Addressed.mono {pool : Pool} {queries queries' : List Query} {pipes : Nat → Text}
    {given given' : List (Nat × Nat × Nat)} {creation creation' update update' : List Stmt}
    (hqueries : queries ⊆ queries') (hgiven : given ⊆ given') (hcreation : creation ⊆ creation')
    (hupdate : update ⊆ update') {c : RuntimeCall}
    (h : Addressed pool queries pipes given creation update c) :
    Addressed pool queries' pipes given' creation' update' c := by
  cases h with
  | value h => exact .value h
  | binding hi hs ha hslot => exact .binding hi (hcreation hs) ha hslot
  | text hs => exact .text (hcreation hs)
  | pipe hs => exact .pipe (hcreation hs)
  | given h => exact .given (hgiven h)
  | query hq ht hs hr hc => exact .query (hqueries hq) ht (hcreation hs) (hupdate hr) hc

namespace Item

/-- The expression that an item evaluates with every update. -/
def value? : Item → Option Expr
  | .boundText e => some e
  | .input i => some i.value
  | _ => none

def query? : Item → Option Query
  | .query q => some q
  | _ => none

/-- The pipes in slots that the expression of an item was given with. -/
def given (i : Item) : List (Nat × Nat × Nat) := (i.value?.map Expr.pipes).getD []

/-- Whether an item binds something of an element or container. -/
def isInput : Item → Bool
  | .input _ => true
  | _ => false

/-- Whether every binding of an element or container comes after one; `seen` says that there was one. -/
def anchored : (seen : Bool) → List Item → Bool
  | _, [] => true
  | seen, i :: is => (seen || !i.isInput) && anchored (seen || i.references?.isSome) is

end Item

/-! ### The calls of a unit -/

section Calls

variable {settings : TemplateSettings} {f : Assembly} {pipes : Nat → Text}

/-- An element or container was created in the slot of a stage. -/
def Stage.Anchored (g : Stage) : Prop :=
  ∃ s ∈ g.unit.creation, s.isAnchor = true ∧ s.slot? = some g.anchor

theorem ValueCode.addressed {L : Lexicon} {u : TemplateUnit} {e : Expr} {v : LoweredValue} {b : Nat}
    (h : ValueCode settings f L u e v) {i : Instruction} {args : List Term} {span : Option SourceSpan}
    (hargs : Term.callsAll args = (v.passed b).calls) {queries : List Query}
    {given : List (Nat × Nat × Nat)} {creation update : List Stmt} (hgiven : e.pipes ⊆ given)
    (hpipes : ∀ p ∈ v.pipes, Instruction.pipe.stmt [.ofNat p.slot, .ofText (pipes p.slot)] ∈ creation)
    (hi : Addressed f.pool queries pipes given creation update ⟨i.name, args⟩) :
    ∀ c ∈ Stmt.callsAll (v.statements b ++ [i.stmt args span]),
      Addressed f.pool queries pipes given creation update c := by
  intro c hc
  rcases List.mem_cons.mp ((v.perm_calls b hargs).mem_iff.mp hc) with rfl | hc
  · exact hi
  rcases List.mem_append.mp hc with hc | hc
  · unfold LoweredValue.wrapping at hc
    split at hc
    · cases hc
    · rw [List.mem_singleton.mp hc]
      exact .value (.inl rfl)
  · cases h.calls.calls c hc with
    | interpolation => exact .value (.inr (.inl ⟨_, rfl⟩))
    | pure => exact .value (.inr (.inr ⟨_, rfl⟩))
    | pipe hp => exact .pipe (hpipes _ hp)
    | given h => exact .given (hgiven h)

/-- What an item adds to the update code agrees with what was created up to it. -/
theorem Step.addressed {i : Item} {g g' : Stage} (h : Step settings f i g g')
    (hpipes : ∀ p : Pipe, p.stmt ∈ g'.unit.creation → pipes p.slot = p.name)
    (hanchor : i.isInput = true → g.Anchored) :
    ∃ ss, g'.unit.update = g.unit.update ++ ss ∧ ∀ c ∈ Stmt.callsAll ss,
      Addressed f.pool i.query?.toList pipes i.given g'.unit.creation ss c := by
  have hnone : ∀ c ∈ Stmt.callsAll [],
      Addressed f.pool i.query?.toList pipes i.given g'.unit.creation [] c :=
    fun c hc => nomatch hc
  cases h with
  | nested => exact ⟨[], (List.append_nil _).symm, hnone⟩
  | item h =>
      cases h with
      | none | mark | leaf | element | container | output =>
          exact ⟨[], (List.append_nil _).symm, hnone⟩
      | query hpredicate =>
          refine ⟨_, rfl, fun c hc => ?_⟩
          rw [Stmt.callsAll, Stmt.callsAll, List.append_nil] at hc
          exact .query (List.mem_singleton.mpr rfl) hpredicate
            (List.mem_append_right _ (List.mem_singleton.mpr rfl)) (List.mem_singleton.mpr rfl) hc
      | @boundText L u u₁ a e v span span' hu hv =>
          refine ⟨v.statements u.bindings ++
            [Instruction.textBinding.stmt [.ofNat u.slots, v.passed u.bindings] span'], ?_, ?_⟩
          · rw [hu]
            exact List.append_assoc ..
          · refine hv.addressed ?_ (List.Subset.refl _) (fun p hp => ?_) ?_
            · simp [Term.callsAll]
            · have hmem : p.stmt ∈ (u₁.evaluated v).creation :=
                List.mem_append_right _ (List.mem_map_of_mem hp)
              rw [hpipes p hmem]
              exact hmem
            · have hmem : Instruction.text.stmt [.ofNat u.slots] span ∈ u₁.creation := by
                rw [hu]
                exact List.mem_append_right _ (List.mem_singleton.mpr rfl)
              exact .text (List.mem_append_left _ hmem)
      | @input L u a i instruction v unit span hi hv hunit =>
          refine ⟨_, List.append_assoc .., ?_⟩
          obtain ⟨s, hs, hsa, hslot⟩ := hanchor rfl
          refine hv.addressed (callsAll_inputArguments _ _ _ hunit) (List.Subset.refl _)
            (fun p hp => ?_) ?_
          · have hmem : p.stmt ∈ (u.evaluated v).creation :=
              List.mem_append_right _ (List.mem_map_of_mem hp)
            rw [hpipes p hmem]
            exact hmem
          · exact .binding hi (List.mem_append_left _ hs) hsa hslot

/-- After an element or container there is one to bind something of. -/
theorem Step.anchored {i : Item} {g g' : Stage} (h : Step settings f i g g')
    (hi : i.references?.isSome = true ∨ g.Anchored) : g'.Anchored := by
  obtain ⟨ss, hss, -⟩ := h.laid
  have hkeep : g'.anchor = g.anchor → g.Anchored → g'.Anchored := by
    rintro ha ⟨s, hs, hsa, hslot⟩
    exact ⟨s, hss ▸ List.mem_append_left ss hs, hsa, ha ▸ hslot⟩
  cases h with
  | nested => exact hkeep rfl (hi.resolve_left Bool.false_ne_true)
  | item h =>
      cases h with
      | element hform =>
          simp only [List.mem_cons, List.not_mem_nil, or_false] at hform
          refine ⟨_, List.mem_append_right _ (List.mem_append_right _ (List.mem_singleton.mpr rfl)), ?_⟩
          rcases hform with rfl | rfl | rfl <;> exact ⟨rfl, Stmt.slot?_stmt (by decide) _⟩
      | container =>
          exact ⟨_, List.mem_append_right _ (List.mem_singleton.mpr rfl), rfl,
            Stmt.slot?_stmt (by decide) _⟩
      | _ => exact hkeep rfl (hi.resolve_left Bool.false_ne_true)

theorem Steps.addressed {is : List Item} {g g' : Stage} {seen : Bool} (h : Steps settings f is g g')
    (hpipes : ∀ p : Pipe, p.stmt ∈ g'.unit.creation → pipes p.slot = p.name)
    (hanchored : Item.anchored seen is = true) (hseen : seen = true → g.Anchored) :
    ∃ ss, g'.unit.update = g.unit.update ++ ss ∧ ∀ c ∈ Stmt.callsAll ss,
      Addressed f.pool (is.filterMap Item.query?) pipes (is.flatMap Item.given) g'.unit.creation ss c := by
  induction is generalizing g seen with
  | nil =>
      cases h
      exact ⟨[], (List.append_nil _).symm, fun c hc => nomatch hc⟩
  | cons i is ih =>
      cases h with
      | @cons _ _ _ g₁ _ hi his =>
          obtain ⟨cs, hcs, -⟩ := his.laid
          have hsub : g₁.unit.creation ⊆ g'.unit.creation := hcs ▸ List.subset_append_left _ cs
          obtain ⟨hinput, htail⟩ := Bool.and_eq_true_iff.mp hanchored
          obtain ⟨ss, hss, hcalls⟩ := hi.addressed (fun p hp => hpipes p (hsub hp))
            fun hj => hseen (by simpa [hj] using hinput)
          have hseen₁ : (seen || i.references?.isSome) = true → g₁.Anchored := by
            intro hor
            rw [Bool.or_eq_true] at hor
            exact hi.anchored (hor.symm.imp_right hseen)
          obtain ⟨ss', hss', hcalls'⟩ := ih his htail hseen₁
          refine ⟨ss ++ ss', by rw [hss', hss, List.append_assoc], fun c hc => ?_⟩
          have hqueries : (i :: is).filterMap Item.query? = i.query?.toList ++ is.filterMap Item.query? := by
            cases hq : i.query? with
            | none => rw [List.filterMap_cons_none hq]; rfl
            | some q => rw [List.filterMap_cons_some hq]; rfl
          rw [hqueries, List.flatMap_cons]
          rw [Stmt.callsAll_append, List.mem_append] at hc
          rcases hc with hc | hc
          · exact (hcalls c hc).mono (List.subset_append_left ..) (List.subset_append_left ..) hsub
              (List.subset_append_left ..)
          · exact (hcalls' c hc).mono (List.subset_append_right ..) (List.subset_append_right ..)
              (List.Subset.refl _) (List.subset_append_right ..)

end Calls

/-! ### Items of nodes -/

namespace Item

theorem anchored_true (is : List Item) : anchored true is = true := by
  induction is with
  | nil => rfl
  | cons i is ih => exact ih

theorem anchored_append {is js : List Item} (hjs : ∀ seen, anchored seen js = true) {seen : Bool}
    (h : anchored seen is = true) : anchored seen (is ++ js) = true := by
  induction is generalizing seen with
  | nil => exact hjs seen
  | cons i is ih =>
      obtain ⟨hi, his⟩ := Bool.and_eq_true_iff.mp h
      exact Bool.and_eq_true_iff.mpr ⟨hi, ih his⟩

theorem isNested_of_mem_parts (parts : Parts) : ∀ i ∈ parts.items, i.isNested = false := by
  intro i hi
  rcases List.mem_append.mp hi with hi | hi
  · obtain ⟨o, -, rfl⟩ := List.mem_map.mp hi
    rfl
  · obtain ⟨j, -, rfl⟩ := List.mem_map.mp hi
    rfl

end Item

namespace Node

mutual

theorem anchored_items : ∀ (n : Node) (seen : Bool), Item.anchored seen n.items = true
  | text .., seen | content .., seen | boundText .., seen | misplaced _, seen => by
    cases seen <;> rfl
  | element _ _ parts children, seen => by
    rw [items, List.cons_append, Item.anchored, Item.references?, Option.isSome_some, Bool.or_true,
      Item.anchored_true]
    cases seen <;> rfl
  | template _ _ parts vars children, seen => by
    rw [items, List.cons_append, Item.anchored, Item.references?, Option.isSome_some, Bool.or_true,
      Item.anchored_true]
    cases seen <;> rfl

theorem anchored_itemsAll : ∀ (ns : List Node) (seen : Bool), Item.anchored seen (itemsAll ns) = true
  | [], _ => by rw [itemsAll, Item.anchored]
  | n :: ns, seen => by
    rw [itemsAll]
    exact Item.anchored_append (anchored_itemsAll ns) (anchored_items n seen)

end

mutual

theorem exists_of_mem_units : ∀ (n : Node) (N : Naming), ∀ p ∈ Item.unitsAll N n.items,
    ∃ ns, p.items = itemsAll ns
  | text .., N | content .., N | boundText .., N | misplaced _, N => by
    rw [items, Item.unitsAll_eq_nil (by simp [Item.isNested])]
    exact fun p hp => nomatch hp
  | element _ _ parts children, N => by
    intro p hp
    rw [items, List.cons_append, Item.unitsAll, Item.units_eq_nil rfl, Item.unitsAll_append,
      Item.unitsAll_eq_nil (Item.isNested_of_mem_parts parts), Item.unitsAll_append,
      Item.unitsAll_eq_nil (List.forall_mem_singleton.mpr rfl), List.append_nil] at hp
    exact exists_of_mem_unitsAll children _ p hp
  | template _ _ parts vars children, N => by
    intro p hp
    rw [items, List.cons_append, Item.unitsAll, Item.units_eq_nil rfl, Item.unitsAll_append,
      Item.unitsAll_eq_nil (Item.isNested_of_mem_parts parts), Item.unitsAll, Item.unitsAll,
      List.append_nil, Item.units] at hp
    rcases List.mem_cons.mp hp with rfl | hp
    · exact ⟨children, rfl⟩
    · exact exists_of_mem_unitsAll children _ p hp

/-- The items of a nested template are those of its nodes. -/
theorem exists_of_mem_unitsAll : ∀ (ns : List Node) (N : Naming),
    ∀ p ∈ Item.unitsAll N (itemsAll ns), ∃ ns, p.items = itemsAll ns
  | [], N => by simp [itemsAll, Item.unitsAll]
  | n :: ns, N => by
    intro p hp
    rw [itemsAll, Item.unitsAll_append, List.mem_append] at hp
    rcases hp with hp | hp
    · exact exists_of_mem_units n N p hp
    · exact exists_of_mem_unitsAll ns _ p hp

end

end Node

/-- In each unit of a template there is an element or container for every binding of one. -/
theorem TemplateSettings.anchored_plan (settings : TemplateSettings) (nodes : List Node) :
    ∀ p ∈ settings.plan nodes, Item.anchored false p.items = true := by
  have hqueries : ∀ qs : List Query, Item.anchored false (.mark :: qs.map .query) = true := by
    intro qs
    induction qs with
    | nil => rfl
    | cons q qs ih => exact ih
  intro p hp
  rcases List.mem_cons.mp hp with rfl | hp
  · exact Item.anchored_append (Node.anchored_itemsAll nodes) (hqueries _)
  · have hnone : ∀ i ∈ Item.mark :: settings.ownQueries.map .query, i.isNested = false := by
      refine List.forall_mem_cons.mpr ⟨rfl, fun i hi => ?_⟩
      obtain ⟨q, -, rfl⟩ := List.mem_map.mp hi
      rfl
    rw [TemplateSettings.rootPlan, TemplateSettings.items, Item.unitsAll_append,
      Item.unitsAll_eq_nil hnone] at hp
    obtain ⟨ns, hns⟩ := Node.exists_of_mem_unitsAll nodes _ p hp
    rw [hns]
    exact Node.anchored_itemsAll ns false

/-! ### References -/

def Term.load? : Term → Option Nat
  | .call _ f [slot] _ => if f.runtime? = some Instruction.load.name then slot.nat? else none
  | _ => none

theorem Term.load?_call (slot : Nat) : (Instruction.load.call [.ofNat slot]).load? = some slot := by
  have hname : (Term.imported coreModule Instruction.load.name).runtime? = some Instruction.load.name := rfl
  rw [Instruction.call, Term.apply, Term.load?, if_pos hname, Term.nat?_ofNat]

/-- The slot of the element or container that a statement creates. -/
def Stmt.anchor? (s : Stmt) : Option Nat := if s.isAnchor then s.slot? else none

theorem Stmt.anchor?_stmt {i : Instruction} (h : i ∈ Instruction.anchors) (slot : Nat)
    {args : List Term} {span : Option SourceSpan} :
    (i.stmt (.ofNat slot :: args) span).anchor? = some slot := by
  have hslot : i ∈ Instruction.slotted := by
    revert i
    decide
  rw [anchor?, isAnchor_stmt, decide_eq_true (List.mem_map_of_mem h), if_pos rfl, slot?_stmt hslot]

/-- The references of the elements and containers of items, each with the names in force before it. -/
def Item.references (N : Naming) (is : List Item) : List (Naming × List Named) :=
  (Item.located N is).filterMap fun i => i.2.references?.map (i.1, ·)

/-- The variables of references with their slots, given the slots of their elements and containers. -/
def referenceSlots (slots : List Nat) (refs : List (Naming × List Named)) : List (Text × Nat) :=
  (slots.zip refs).flatMap fun r => (List.range r.2.2.length).map fun k =>
    ("_r" ++ Text.ofNat (r.2.1.fresh + k), r.1 + 1 + k)

/-- The variables of bindings that are loaded, with their slots. -/
def Bindings.loads (own : Bindings) : List (Text × Nat) :=
  own.filterMap fun b => (b.2.value.bind Term.load?).map (b.2.var, ·)

section References

variable {settings : TemplateSettings} {f : Assembly}

theorem referenceSlots_append {slots slots' : List Nat} {refs refs' : List (Naming × List Named)}
    (h : slots.length = refs.length) : referenceSlots (slots ++ slots') (refs ++ refs') =
      referenceSlots slots refs ++ referenceSlots slots' refs' := by
  rw [referenceSlots, List.zip_append h, List.flatMap_append]
  rfl

theorem Bindings.loads_addReferences (refs : List Named) : ∀ (slot : Nat) (L : Lexicon),
    Bindings.loads (L.addReferences slot refs).own = Bindings.loads L.own ++
      (List.range refs.length).map fun k => ("_r" ++ Text.ofNat (L.fresh + k), slot + k) := by
  induction refs with
  | nil => exact fun _ _ => (List.append_nil _).symm
  | cons r rs ih =>
      intro slot L
      rw [Lexicon.addReferences, ih, List.length_cons, List.range_succ_eq_map, List.map_cons,
        List.map_map]
      have hbind : Bindings.loads (L.bind r.name
          { var := L.nextVar, value := some (Instruction.load.call [.ofNat slot]), owned := true }).own =
          Bindings.loads L.own ++ [(L.nextVar, slot)] := by
        rw [Bindings.loads, Lexicon.bind, List.filterMap_append, List.filterMap_cons, Option.bind_some,
          Term.load?_call]
        rfl
      rw [hbind, List.append_assoc]
      refine congrArg (Bindings.loads L.own ++ (L.nextVar, slot) :: ·) (List.map_congr_left fun k _ => ?_)
      simp only [Function.comp, Lexicon.bind, Nat.add_succ, Nat.succ_add, Nat.add_comm]

theorem Laid.length_anchors {n m : Nat} {ks : List Nat} {ss : List Stmt} (h : Laid n ks ss m) :
    (ss.filterMap Stmt.anchor?).length = ks.length := by
  induction h with
  | nil => rfl
  | @none _ _ _ s _ hs _ ih =>
      have hnone : s.anchor? = .none := by
        unfold Stmt.anchor?
        split
        · exact hs
        · rfl
      rw [List.filterMap_cons_none hnone, ih]
  | plain hs ha _ ih => rw [List.filterMap_cons_none (by rw [Stmt.anchor?, ha]; rfl), ih]
  | anchor hs ha _ ih =>
      rw [List.filterMap_cons_some (by rw [Stmt.anchor?, ha, if_pos rfl, hs]), List.length_cons, ih,
        List.length_cons]

theorem Item.length_references (is : List Item) : ∀ N : Naming,
    (Item.references N is).length = (Item.referenceCounts is).length := by
  induction is with
  | nil => exact fun _ => rfl
  | cons i is ih =>
      intro N
      have htail := ih (i.after N)
      rw [Item.references, Item.referenceCounts, List.length_map] at htail ⊢
      cases hi : i.references? with
      | none =>
          rw [Item.located, List.filterMap_cons_none (by rw [hi]; rfl), List.filterMap_cons_none hi, htail]
      | some refs =>
          rw [Item.located, List.filterMap_cons_some (by rw [hi]; rfl), List.filterMap_cons_some hi,
            List.length_cons, List.length_cons, htail]

/-- What an item loads: its references, from the slots after it. -/
theorem Step.loads {i : Item} {g g' : Stage} (h : Step settings f i g g') {ss : List Stmt}
    (hss : g'.unit.creation = g.unit.creation ++ ss) : Bindings.loads g'.names.own =
      Bindings.loads g.names.own ++
        referenceSlots (ss.filterMap Stmt.anchor?) (Item.references g.names.naming [i]) := by
  have hnone : i.references? = none → g'.names.own = g.names.own → Bindings.loads g'.names.own =
      Bindings.loads g.names.own ++
        referenceSlots (ss.filterMap Stmt.anchor?) (Item.references g.names.naming [i]) := by
    intro hi hown
    have hempty : Item.references g.names.naming [i] = [] := by
      rw [Item.references, Item.located, List.filterMap_cons_none (by rw [hi]; rfl), Item.located]
      rfl
    rw [hempty, referenceSlots, List.zip_nil_right, hown]
    exact (List.append_nil _).symm
  cases h with
  | nested => exact hnone rfl rfl
  | item h =>
      cases h with
      | @element L u a refs space i switch args span hform hswitch =>
          obtain rfl := List.append_cancel_left hss
          have hempty : switch.filterMap Stmt.anchor? = [] := by
            rcases hswitch with rfl | ⟨hspace, rfl⟩
            · rfl
            · simp only [List.mem_cons, List.not_mem_nil, or_false] at hspace
              rcases hspace with rfl | rfl | rfl <;> rfl
          have hslot : (i.stmt (.ofNat u.slots :: args) span).anchor? = some u.slots :=
            Stmt.anchor?_stmt (List.mem_append_left [.container] hform) u.slots
          rw [Bindings.loads_addReferences, List.filterMap_append, hempty, List.filterMap_cons_some hslot]
          exact congrArg _ (List.append_nil _).symm
      | @container L u a refs only args span =>
          obtain rfl := List.append_cancel_left hss
          have hslot : (Instruction.container.stmt
              (.ofNat u.slots :: .ofVar (u.innerName only u.slots) :: args) span).anchor? =
              some u.slots := Stmt.anchor?_stmt (by decide) _
          rw [Bindings.loads_addReferences, List.filterMap_cons_some hslot]
          exact congrArg _ (List.append_nil _).symm
      | _ => exact hnone rfl rfl

theorem Steps.loads {is : List Item} {g g' : Stage} (h : Steps settings f is g g') {ss : List Stmt}
    (hss : g'.unit.creation = g.unit.creation ++ ss) : Bindings.loads g'.names.own =
      Bindings.loads g.names.own ++
        referenceSlots (ss.filterMap Stmt.anchor?) (Item.references g.names.naming is) := by
  induction is generalizing g ss with
  | nil =>
      cases h
      rw [Item.references, Item.located, List.filterMap_nil, referenceSlots, List.zip_nil_right]
      exact (List.append_nil _).symm
  | cons i is ih =>
      cases h with
      | @cons _ _ _ g₁ _ hi his =>
          obtain ⟨cs, hcs, hlaid⟩ := hi.laid
          obtain ⟨cs', hcs', -⟩ := his.laid
          obtain rfl : cs ++ cs' = ss := by
            rw [hcs', hcs, List.append_assoc] at hss
            exact List.append_cancel_left hss
          have hrefs : Item.references g.names.naming (i :: is) =
              Item.references g.names.naming [i] ++ Item.references g₁.names.naming is := by
            rw [hi.naming_eq, Item.references, Item.located, ← List.singleton_append,
              List.filterMap_append]
            rfl
          have hlength : (cs.filterMap Stmt.anchor?).length =
              (Item.references g.names.naming [i]).length := by
            rw [hlaid.length_anchors, Item.length_references]
          rw [ih his hcs', hi.loads hcs, List.filterMap_append, hrefs, referenceSlots_append hlength,
            List.append_assoc]

/-- A variable that a unit loads is one of its references. -/
theorem Lexicon.Settled.mem_loads {L : Lexicon} (h : L.Settled f) (hL : L.Local) {x : Text} {t : Term}
    {slot : Nat} (hmem : (x, t) ∈ f.scopes.declared L.id) (ht : t.load? = some slot) :
    (x, slot) ∈ Bindings.loads L.own := by
  obtain ⟨s, hs, hshows⟩ := h.shows
  rw [ScopeTree.declared, hs] at hmem
  obtain ⟨name, e, he, rfl, hvalue, -⟩ := hshows.declarations x t hmem
  cases hown : L.own.lookup name with
  | some b =>
      obtain ⟨d, hd⟩ := hshows.binds name b hown
      rw [he, Option.some_inj] at hd
      refine List.mem_filterMap.mpr ⟨(name, b), Env.mem_of_lookup hown, ?_⟩
      have hb : b.value = some t := by
        rw [hd] at hvalue
        exact hvalue
      rw [hd, hb, Option.bind_some, ht]
      rfl
  | none =>
      -- What was found further out is declared here only if it is the variable of a template.
      obtain ⟨-, b, hb, -, hbvalue, -⟩ := hshows.found name e hown he
      have hlocal := hL (name, b) (List.mem_append_right _ (Env.mem_flatten_of_find? hb))
      rw [hvalue] at hbvalue
      cases hlocal with
      | event => cases hbvalue
      | reference => cases hbvalue
      | property =>
          cases hbvalue
          cases ht

end References

/-! ### Compiled templates -/

/-- The slots of a unit agree: things are created one after the other, every update refers to what was
created for it, and so does every variable of a reference. -/
structure UnitPlan.Consistent (settings : TemplateSettings) (pool : Pool) (p : UnitPlan)
    (fn : FunctionCode) : Prop where
  laid : ∃ m, Laid 0 (Item.referenceCounts p.items) fn.creation m
  addressed : ∀ c ∈ Stmt.callsAll fn.update, Addressed pool (p.items.filterMap Item.query?) fn.pipeName
    (p.items.flatMap Item.given) fn.creation fn.update c
  /-- The pipes of a binding are those in the slots that its code names. -/
  resolved : p.Resolved settings pool fn
  loads : ∀ x t slot, (x, t) ∈ fn.constants → t.load? = some slot →
    (x, slot) ∈ referenceSlots (fn.creation.filterMap Stmt.anchor?) (Item.references p.names p.items)

/-- The expressions that a unit evaluates with every update. -/
def UnitPlan.values (p : UnitPlan) : List Expr := p.items.filterMap Item.value?

theorem UnitPlan.Code.consistent {settings : TemplateSettings} {f : Assembly} {p : UnitPlan}
    {fn : FunctionCode} (h : p.Code settings f fn) (hanchored : Item.anchored false p.items = true) :
    p.Consistent settings f.pool fn := by
  have hresolved := h.resolved
  obtain ⟨start, g, h⟩ := h
  have hempty : start.unit.creation = [] ∧ start.unit.update = [] := by
    rw [h.blank]
    exact ⟨rfl, rfl⟩
  refine ⟨⟨_, h.laid⟩, ?_, hresolved, fun x t slot hmem ht => ?_⟩
  · have hsub : g.unit.creation ⊆ fn.creation := h.creation ▸ List.subset_append_left _ _
    have hpipes : ∀ p : Pipe, p.stmt ∈ g.unit.creation → fn.pipeName p.slot = p.name :=
      fun p hp => h.laid.pipeNameIn_eq (hsub hp)
    obtain ⟨ss, hss, hcalls⟩ := h.steps.addressed hpipes hanchored fun hf => nomatch hf
    rw [hempty.2, List.nil_append, ← h.update] at hss
    subst hss
    exact fun c hc => (hcalls c hc).mono (List.Subset.refl _) (List.Subset.refl _) hsub
      (List.Subset.refl _)
  · rw [h.constants] at hmem
    have hloads := h.settled.mem_loads (h.steps.local h.entries) hmem ht
    have hstart : Bindings.loads start.names.own = [] := by
      refine List.filterMap_eq_nil_iff.mpr fun b hb => ?_
      have howned := h.owned b hb
      cases b with
      | mk name entry =>
        cases h.entries (name, entry) (List.mem_append_left _ hb) with
        | event => rfl
        | reference => cases howned
        | property => rfl
    have hcreation : g.unit.creation = start.unit.creation ++ g.unit.creation := by rw [hempty.1]; rfl
    rw [h.steps.loads hcreation, hstart, List.nil_append, h.names] at hloads
    have hreservation : g.unit.reservation.filterMap Stmt.anchor? = [] := by
      unfold TemplateUnit.reservation
      split <;> rfl
    rwa [h.creation, List.filterMap_append, hreservation, List.append_nil]

/-- Slots are allocated and referred to consistently in all units of a compiled template. -/
theorem slots_agree {settings : TemplateSettings} {nodes : List Node} {c : CompiledTemplate}
    {pool pool' : Pool} (hpool : pool.Sound) (h : compileTemplate settings nodes pool = (.ok c, pool')) :
    List.Forall₂ (UnitPlan.Consistent settings pool') (settings.plan nodes) c.units := by
  obtain ⟨f, g, rfl, hcompiled⟩ := compiled_of_compileTemplate hpool h
  have hunits := (List.forall₂_and_left _ _).mpr ⟨settings.anchored_plan nodes, hcompiled.units⟩
  exact hunits.imp fun p fn hp => hp.2.consistent hp.1

namespace Sample

/-- An element with two references, a binding with a pipe and a text around it, and a template in which
a reference is read through a pipe. -/
def piped : List Node :=
  let p : Place := ⟨none, none⟩
  let read (name : Text) : Expr := .read p (.context p) name
  [.element none "a"
    { refs := [⟨"r", [], none⟩, ⟨"s", [], none⟩]
      inputs := [⟨"title", .property, .pipe p (read "x") "up" [.array p [read "y"]], [], none⟩] }
    [.template none [] {} [] [.boundText none (.pipe p (read "s") "low" [])], .boundText none (read "r")]]

def queried : TemplateSettings :=
  { queries := [⟨"found", true, true, .references ["r"], none⟩] }

theorem slots_agree_piped : Pool.Sound {} ∧ ∃ c pool,
    compileTemplate queried piped {} = (.ok c, pool) ∧
      List.Forall₂ (UnitPlan.Consistent queried pool) (queried.plan piped) c.units := by
  obtain ⟨c, pool, h⟩ := exists_compiled_of_isOk
    (by decide +kernel : (compileTemplate queried piped {}).1.isOk = true)
  exact ⟨.empty, c, pool, h, slots_agree .empty h⟩

/-- A text with a pipe that was put into a slot before. -/
def placedPipe : List Node :=
  let p : Place := ⟨none, none⟩
  [.boundText none (.builtin p (.pipe 7 5) [.read p (.context p) "x"])]

/-- A query that is given the result of a pipe as a type. -/
def givenPipe : TemplateSettings :=
  { queries := [⟨"found", true, true, .type (.apply (.imported coreModule "ɵɵpipeBind1")
      [.ofNat 0, .ofNat 0, .ofVar "x"]) false, none⟩] }

/-- A pipe that a binding or a query is given in a slot is called, and not created. -/
theorem slots_uncreated_placed :
    (∃ c pool fn, compileTemplate {} placedPipe {} = (.ok c, pool) ∧ c.units = [fn] ∧
      fn.creation.filterMap Stmt.pipe? = [] ∧
      ((Instruction.pipeBind 1).name, some 7) ∈ (Stmt.callsAll fn.update).map RuntimeCall.target) ∧
    ∃ c pool fn, compileTemplate givenPipe [] {} = (.ok c, pool) ∧ c.units = [fn] ∧
      fn.creation.filterMap Stmt.pipe? = [] ∧
      ((Instruction.pipeBind 1).name, some 0) ∈ (Stmt.callsAll fn.creation).map RuntimeCall.target := by
  constructor
  · obtain ⟨c, pool, fn, h, hfn, heq⟩ := exists_unit_of_map (by decide +kernel :
      (compileTemplate {} placedPipe {}).1.toOption.map (fun c => c.units.map fun fn =>
        ((fn.creation.filterMap Stmt.pipe?).isEmpty, (Stmt.callsAll fn.update).map RuntimeCall.target)) =
          some [(true, [(Instruction.textBinding.name, some 0), (Instruction.bind.name, none),
            ((Instruction.pipeBind 1).name, some 7)])])
    obtain ⟨hcreated, htargets⟩ := Prod.mk.inj heq
    refine ⟨c, pool, fn, h, hfn, List.isEmpty_iff.mp hcreated, ?_⟩
    rw [htargets]
    decide
  · obtain ⟨c, pool, fn, h, hfn, heq⟩ := exists_unit_of_map (by decide +kernel :
      (compileTemplate givenPipe [] {}).1.toOption.map (fun c => c.units.map fun fn =>
        ((fn.creation.filterMap Stmt.pipe?).isEmpty, (Stmt.callsAll fn.creation).map RuntimeCall.target)) =
          some [(true, [(Instruction.query.name, some 0), ((Instruction.pipeBind 1).name, some 0)])])
    obtain ⟨hcreated, htargets⟩ := Prod.mk.inj heq
    refine ⟨c, pool, fn, h, hfn, List.isEmpty_iff.mp hcreated, ?_⟩
    rw [htargets]
    decide

end Sample

end TemplateCompiler
