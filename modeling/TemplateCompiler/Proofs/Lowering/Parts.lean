import TemplateCompiler.Proofs.Lowering.Derivation
import TemplateCompiler.Proofs.Code.Tested
import TemplateCompiler.Lowering.Binding

/-!
# What code is made of

`MadeOf us heads ts` says that the terms `us` are made of the terms `ts` and of the nodes `heads`, which
neither are nor assign to variables. It holds for each way that lowering puts code together, but for
temporaries: these are where variables come from.
-/

namespace TemplateCompiler.Term

/-- Terms that are made of others and of nodes that have nothing to do with variables. -/
structure MadeOf (us heads ts : List Term) : Prop where
  nodes : (nodesAll us).Perm (heads ++ nodesAll ts)
  heads : ∀ h ∈ heads, h.varName? = none ∧ h.assigned? = none
  tested : ∀ P G, (∀ G', G ⊆ G' → ReadsTestedAll P G' ts) → ReadsTestedAll P G us

theorem readsTestedAll_append {P : Text → Bool} {G : List Text} {ts us : List Term} :
    ReadsTestedAll P G (ts ++ us) ↔ ReadsTestedAll P G ts ∧ ReadsTestedAll P G us := by
  induction ts with
  | nil => simp [ReadsTestedAll]
  | cons t ts ih => simp [ReadsTestedAll, ih, and_assoc]

namespace MadeOf

variable {us us' heads heads' ts ts' vs : List Term} {x : Text}

theorem mem_variablesAll (h : MadeOf us heads ts) : x ∈ variablesAll us ↔ x ∈ variablesAll ts := by
  have hheads : heads.filterMap varName? = [] :=
    List.filterMap_eq_nil_iff.mpr fun u hu => (h.heads u hu).1
  rw [variablesAll, (h.nodes.filterMap varName?).mem_iff, List.filterMap_append, hheads]
  rfl

theorem mem_assignmentsAll (h : MadeOf us heads ts) :
    x ∈ assignmentsAll us ↔ x ∈ assignmentsAll ts := by
  have hheads : heads.filterMap assigned? = [] :=
    List.filterMap_eq_nil_iff.mpr fun u hu => (h.heads u hu).2
  rw [assignmentsAll, (h.nodes.filterMap assigned?).mem_iff, List.filterMap_append, hheads]
  rfl

theorem refl (ts : List Term) : MadeOf ts [] ts :=
  ⟨.refl _, (fun _ h => nomatch h), fun _ G h => h G (List.Subset.refl G)⟩

theorem trans (h : MadeOf us heads ts) (h' : MadeOf ts heads' vs) :
    MadeOf us (heads ++ heads') vs := by
  refine ⟨?_, ?_, fun P G hG => h.tested P G fun G' hG' => h'.tested P G' fun G'' hG'' => ?_⟩
  · rw [List.append_assoc]
    exact h.nodes.trans (h'.nodes.append_left heads)
  · intro u hu
    rcases List.mem_append.mp hu with hu | hu
    · exact h.heads u hu
    · exact h'.heads u hu
  · exact hG G'' (List.Subset.trans hG' hG'')

theorem append (h : MadeOf us heads ts) (h' : MadeOf us' heads' ts') :
    MadeOf (us ++ us') (heads ++ heads') (ts ++ ts') := by
  refine ⟨?_, ?_, fun P G hG => readsTestedAll_append.mpr ⟨?_, ?_⟩⟩
  · rw [nodesAll_append, nodesAll_append]
    refine (h.nodes.append h'.nodes).trans ?_
    rw [List.append_assoc, List.append_assoc]
    refine List.Perm.append_left heads ?_
    rw [← List.append_assoc, ← List.append_assoc]
    exact List.perm_append_comm.append_right _
  · intro u hu
    rcases List.mem_append.mp hu with hu | hu
    · exact h.heads u hu
    · exact h'.heads u hu
  · exact h.tested P G fun G' hG' => (readsTestedAll_append.mp (hG G' hG')).1
  · exact h'.tested P G fun G' hG' => (readsTestedAll_append.mp (hG G' hG')).2

/-- One term, made of others and of a single node. -/
theorem of_head {t head : Term} (hnodes : t.nodes = head :: nodesAll ts)
    (hhead : head.varName? = none ∧ head.assigned? = none)
    (htested : ∀ P G, (∀ G', G ⊆ G' → ReadsTestedAll P G' ts) → t.ReadsTested P G) :
    MadeOf [t] [head] ts := by
  refine ⟨?_, fun h hh => ?_, fun P G hG => ⟨htested P G hG, trivial⟩⟩
  · rw [nodesAll, nodesAll, List.append_nil, hnodes]
    exact .refl _
  · rw [List.mem_singleton.mp hh]
    exact hhead

end MadeOf

section Making

variable (c t u : Term) (ts : List Term) (name : Text)

theorem madeOf_prop (note : Note) : MadeOf [prop note t name] [prop note t name] [t] := by
  refine .of_head ?_ ⟨rfl, rfl⟩ fun P G h => (h G (List.Subset.refl G)).1
  simp [nodes, nodesAll]

theorem madeOf_key (note : Note) : MadeOf [key note t u] [key note t u] [t, u] := by
  refine .of_head ?_ ⟨rfl, rfl⟩ fun P G h => ?_
  · simp [nodes, nodesAll]
  · obtain ⟨ht, hu, -⟩ := h G (List.Subset.refl G)
    exact ⟨ht, hu⟩

theorem madeOf_apply : MadeOf [apply c ts] [apply c ts] (c :: ts) := by
  refine .of_head ?_ ⟨rfl, rfl⟩ fun P G h => h G (List.Subset.refl G)
  simp [apply, nodes, nodesAll]

theorem madeOf_applyMethod :
    MadeOf [applyMethod c name ts] [applyMethod c name ts, prop {} c name] (c :: ts) :=
  (madeOf_apply (prop {} c name) ts).trans ((madeOf_prop c name {}).append (.refl ts))

theorem madeOf_operation (op : Operator) (h : op.assigned? t = none) (note : Note) :
    MadeOf [operation op t u note] [operation op t u note] [t, u] := by
  refine .of_head ?_ ⟨rfl, h⟩ fun P G hG => ?_
  · simp [operation, nodes, nodesAll]
  · obtain ⟨ht, hu, -⟩ := hG G (List.Subset.refl G)
    exact ⟨fun _ => ht, hu⟩

theorem madeOf_choose : MadeOf [choose c t (some u)] [choose c t (some u)] [c, t, u] := by
  refine .of_head ?_ ⟨rfl, rfl⟩ fun P G h => ?_
  · simp [choose, nodes, nodesAll]
  · obtain ⟨hc, ht, -, -⟩ := h G (List.Subset.refl G)
    obtain ⟨-, -, hu, -⟩ := h _ (List.subset_append_right (c.testedFor u) G)
    exact ⟨hc, ht, hu⟩

theorem madeOf_ofValue (v : Primitive) : MadeOf [ofValue v] [ofValue v] [] :=
  .of_head rfl ⟨rfl, rfl⟩ fun _ _ _ => trivial

theorem madeOf_imported (module : Text) :
    MadeOf [imported module name] [imported module name] [] :=
  .of_head rfl ⟨rfl, rfl⟩ fun _ _ _ => trivial

theorem madeOf_isBlank : MadeOf [isBlank c] [isBlank c, null] [c] :=
  (madeOf_operation c null .equals rfl _).trans
    ((MadeOf.refl [c]).append (madeOf_ofValue .null))

theorem madeOf_guardCode :
    MadeOf [Answers.guardCode c t] [Answers.guardCode c t, isBlank c, null, null] [c, t] :=
  (madeOf_choose (isBlank c) null t).trans
    ((madeOf_isBlank c).append ((madeOf_ofValue .null).append (.refl [t])))

theorem madeOf_negate : MadeOf [negate t] [negate t] [t] := by
  refine .of_head ?_ ⟨rfl, rfl⟩ fun P G h => (h G (List.Subset.refl G)).1
  simp [negate, nodes, nodesAll]

theorem madeOf_assertPresent : MadeOf [assertPresent t] [assertPresent t] [t] := by
  refine .of_head ?_ ⟨rfl, rfl⟩ fun P G h => (h G (List.Subset.refl G)).1
  simp [assertPresent, nodes, nodesAll]

theorem madeOf_erased : MadeOf [erased t] [erased t] [t] := by
  refine .of_head ?_ ⟨rfl, rfl⟩ fun P G h => (h G (List.Subset.refl G)).1
  simp [erased, nodes, nodesAll]

/-- What is kept of the value of a handler: whether it is not false. -/
def verdict (t : Term) : Term :=
  .operation .notIdentical (.erased t) (.ofValue (.bool false)) { type := some .bool }

theorem madeOf_verdict :
    MadeOf [verdict t] [verdict t, erased t, ofValue (.bool false)] [t] :=
  (madeOf_operation (erased t) (.ofValue (.bool false)) .notIdentical rfl _).trans
    ((madeOf_erased t).append (madeOf_ofValue (.bool false)))

theorem madeOf_ofList : MadeOf [ofList ts] [ofList ts] ts :=
  .of_head rfl ⟨rfl, rfl⟩ fun _ G h => h G (List.Subset.refl G)

theorem readsTestedEntries_zip {P : Text → Bool} {G : List Text} (keys : List MapKey)
    {ts : List Term} (h : ReadsTestedAll P G (ts.take keys.length)) :
    ReadsTestedEntries P G (keys.zip ts) := by
  induction keys generalizing ts with
  | nil => trivial
  | cons k keys ih =>
      cases ts with
      | nil => trivial
      | cons t ts => exact ⟨h.1, ih h.2⟩

theorem madeOf_ofEntries (keys : List MapKey) :
    MadeOf [ofEntries (keys.zip ts)] [ofEntries (keys.zip ts)] (ts.take keys.length) := by
  refine .of_head ?_ ⟨rfl, rfl⟩ fun P G h => readsTestedEntries_zip keys (h G (List.Subset.refl G))
  rw [ofEntries, nodes, nodesEntries_zip]

end Making

theorem nodesAll_declarations (stack : TemporaryStack) : Stmt.nodesAll stack.declarations = [] := by
  rw [TemporaryStack.declarations]
  induction List.range stack.count with
  | nil => rfl
  | cons n ns ih => exact ih

/-! ### Interpolations -/

/-- The arguments of an interpolation are its values, with texts between them. -/
theorem exists_madeOf_interpolationArgs {texts : List Text} {ts : List Term}
    (h : ts.length < texts.length) : ∃ heads, MadeOf (Expr.interpolationArgs texts ts) heads ts := by
  induction ts generalizing texts with
  | nil =>
      cases texts with
      | nil => cases h
      | cons text texts => exact ⟨_, madeOf_ofValue _⟩
  | cons t ts ih =>
      cases texts with
      | nil => cases h
      | cons text texts =>
          obtain ⟨heads, hheads⟩ := ih (Nat.lt_of_succ_lt_succ h)
          exact ⟨_, (madeOf_ofValue _).append ((MadeOf.refl [t]).append hheads)⟩

/-- An interpolation passes all its arguments on. -/
theorem exists_madeOf_inlineOrVariadic (limit : Int) (args : List Term) :
    ∃ heads, MadeOf [inlineOrVariadic limit args] heads args := by
  unfold inlineOrVariadic
  split
  · exact ⟨_, (madeOf_apply _ args).trans ((madeOf_imported _ _).append (.refl args))⟩
  · have hargs := (MadeOf.refl (args.take 1)).append (madeOf_ofList (args.drop 1))
    rw [List.take_append_drop] at hargs
    exact ⟨_, (madeOf_apply _ _).trans ((madeOf_imported _ _).append hargs)⟩

end TemplateCompiler.Term
