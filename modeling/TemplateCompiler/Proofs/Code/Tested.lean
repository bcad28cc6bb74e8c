import TemplateCompiler.Proofs.Code.Nodes

/-!
# Variables that were tested

A conditional `(x = …) == null ? … : no` has tested the variable `x` for its second branch `no`, unless
`no` assigns to `x` again. `t.ReadsTested P G` says that `t` reads variables of the class `P` only
where they were tested, given that those in `G` were.
-/

namespace TemplateCompiler

def Term.assignments (t : Term) : List Text := t.nodes.filterMap Term.assigned?

def Term.assignmentsAll (ts : List Term) : List Text := (nodesAll ts).filterMap Term.assigned?

/-- The variables of terms, read or assigned. -/
def Term.variablesAll (ts : List Term) : List Text := (nodesAll ts).filterMap Term.varName?

theorem Term.variablesAll_singleton (t : Term) : variablesAll [t] = t.variables := by
  rw [variablesAll, nodesAll, nodesAll, List.append_nil, Term.variables]

theorem Term.variablesAll_append (ts us : List Term) :
    variablesAll (ts ++ us) = variablesAll ts ++ variablesAll us := by
  rw [variablesAll, nodesAll_append, List.filterMap_append]
  rfl

theorem Stmt.variablesAll_map_ofTerm (ts : List Term) :
    Stmt.variablesAll (ts.map Stmt.ofTerm) = Term.variablesAll ts := by
  rw [variablesAll, nodesAll_map_ofTerm]
  rfl

/-- Whether all variables that nodes assign to are among them. -/
def Term.ListsTargets (ts : List Term) : Prop :=
  ∀ x ∈ ts.filterMap Term.assigned?, x ∈ ts.filterMap Term.varName?

theorem Term.listsTargets_append {ts us : List Term} (h : Term.ListsTargets ts)
    (h' : Term.ListsTargets us) : Term.ListsTargets (ts ++ us) := by
  intro x hx
  rw [List.filterMap_append, List.mem_append] at hx ⊢
  exact hx.imp (h x) (h' x)

/-- A node that assigns to nothing, before others. -/
theorem Term.listsTargets_cons {t : Term} {ts : List Term} (ht : t.assigned? = none)
    (h : Term.ListsTargets ts) : Term.ListsTargets (t :: ts) := by
  intro x hx
  rw [List.filterMap_cons_none ht] at hx
  rw [List.filterMap_cons]
  split
  · exact h x hx
  · exact List.mem_cons_of_mem _ (h x hx)

mutual

theorem Term.listsTargets_nodes : ∀ t : Term, Term.ListsTargets t.nodes
  | .var .. | .lit .. | .external .. => Term.listsTargets_cons rfl fun _ h => nomatch h
  | .array _ ts => Term.listsTargets_cons rfl (Term.listsTargets_nodesAll ts)
  | .map _ es => Term.listsTargets_cons rfl (Term.listsTargets_nodesEntries es)
  | .prop _ t _ | .not _ t | .present _ t | .cast _ t | .pooled _ t =>
    Term.listsTargets_cons rfl (Term.listsTargets_nodes t)
  | .key _ t u | .cond _ t u none => Term.listsTargets_cons rfl
    (Term.listsTargets_append (Term.listsTargets_nodes t) (Term.listsTargets_nodes u))
  | .call _ f args _ => Term.listsTargets_cons rfl
    (Term.listsTargets_append (Term.listsTargets_nodes f) (Term.listsTargets_nodesAll args))
  | .cond _ c yes (some no) => Term.listsTargets_cons rfl
    (Term.listsTargets_append (Term.listsTargets_nodes c)
      (Term.listsTargets_append (Term.listsTargets_nodes yes) (Term.listsTargets_nodes no)))
  | .binary note op l r => by
    have hparts := Term.listsTargets_append (Term.listsTargets_nodes l) (Term.listsTargets_nodes r)
    cases h : op.assigned? l with
    | none => exact Term.listsTargets_cons h hparts
    | some y =>
        intro x hx
        rw [Term.nodes, List.filterMap_cons_some (show (Term.binary note op l r).assigned? = some y from h),
          List.mem_cons] at hx
        rw [Term.nodes, List.filterMap_cons_none rfl]
        rcases hx with rfl | hx
        · rw [List.filterMap_append]
          exact List.mem_append_left _ (Operator.mem_variables_of_assigned? h)
        · exact hparts x hx
  | .function _ _ body _ => Term.listsTargets_cons rfl (Stmt.listsTargets_nodesAll body)

theorem Term.listsTargets_nodesAll : ∀ ts : List Term, Term.ListsTargets (Term.nodesAll ts)
  | [] => fun _ h => nomatch h
  | t :: ts => Term.listsTargets_append (Term.listsTargets_nodes t) (Term.listsTargets_nodesAll ts)

theorem Term.listsTargets_nodesEntries : ∀ es : List (MapKey × Term),
    Term.ListsTargets (Term.nodesEntries es)
  | [] => fun _ h => nomatch h
  | (_, t) :: es =>
    Term.listsTargets_append (Term.listsTargets_nodes t) (Term.listsTargets_nodesEntries es)

theorem Stmt.listsTargets_nodes : ∀ s : Stmt, Term.ListsTargets s.nodes
  | .declare _ _ _ none => fun _ h => nomatch h
  | .declare _ _ _ (some t) | .expr _ t | .ret _ t => Term.listsTargets_nodes t
  | .function _ _ _ _ body => Stmt.listsTargets_nodesAll body
  | .branch _ c yes no => Term.listsTargets_append (Term.listsTargets_nodes c)
    (Term.listsTargets_append (Stmt.listsTargets_nodesAll yes) (Stmt.listsTargets_nodesAll no))

theorem Stmt.listsTargets_nodesAll : ∀ ss : List Stmt, Term.ListsTargets (Stmt.nodesAll ss)
  | [] => fun _ h => nomatch h
  | s :: ss => Term.listsTargets_append (Stmt.listsTargets_nodes s) (Stmt.listsTargets_nodesAll ss)

end

/-- The variable `x` of a condition `(x = …) == null`. -/
def Term.tested? : Term → Option Text
  | .binary _ .equals l (.lit _ .null) => l.assigned?
  | _ => none

/-- What a condition has tested for the branch that is taken if it fails. -/
def Term.testedFor (condition no : Term) : List Text :=
  condition.tested?.toList.filter fun x => x ∉ no.assignments

mutual

/-- Every read of a variable in `P` is of one in `G`, or of one that an enclosing conditional has
tested. A function may run at any time, so that it relies on nothing. -/
def Term.ReadsTested (P : Text → Bool) (G : List Text) : Term → Prop
  | .var _ x => P x = true → x ∈ G
  | .lit .. | .external .. => True
  | .array _ ts => Term.ReadsTestedAll P G ts
  | .map _ es => Term.ReadsTestedEntries P G es
  | .prop _ t _ | .not _ t | .present _ t | .cast _ t | .pooled _ t => t.ReadsTested P G
  | .key _ t u => t.ReadsTested P G ∧ u.ReadsTested P G
  | .call _ f args _ => f.ReadsTested P G ∧ Term.ReadsTestedAll P G args
  | .binary _ op l r => (op.assigned? l = none → l.ReadsTested P G) ∧ r.ReadsTested P G
  | .cond _ c yes none => c.ReadsTested P G ∧ yes.ReadsTested P G
  | .cond _ c yes (some no) =>
    c.ReadsTested P G ∧ yes.ReadsTested P G ∧ no.ReadsTested P (c.testedFor no ++ G)
  | .function _ _ body _ => Stmt.ReadsTestedAll P [] body

def Term.ReadsTestedAll (P : Text → Bool) (G : List Text) : List Term → Prop
  | [] => True
  | t :: ts => t.ReadsTested P G ∧ Term.ReadsTestedAll P G ts

def Term.ReadsTestedEntries (P : Text → Bool) (G : List Text) : List (MapKey × Term) → Prop
  | [] => True
  | (_, t) :: es => t.ReadsTested P G ∧ Term.ReadsTestedEntries P G es

def Stmt.ReadsTested (P : Text → Bool) (G : List Text) : Stmt → Prop
  | .declare _ _ _ none => True
  | .declare _ _ _ (some t) | .expr _ t | .ret _ t => t.ReadsTested P G
  | .function _ _ _ _ body => Stmt.ReadsTestedAll P [] body
  | .branch _ c yes no =>
    c.ReadsTested P G ∧ Stmt.ReadsTestedAll P G yes ∧ Stmt.ReadsTestedAll P G no

def Stmt.ReadsTestedAll (P : Text → Bool) (G : List Text) : List Stmt → Prop
  | [] => True
  | s :: ss => s.ReadsTested P G ∧ Stmt.ReadsTestedAll P G ss

end

section Free

variable {P : Text → Bool}

mutual

/-- Code without variables in `P` reads none. -/
theorem Term.readsTested_of_free : ∀ (t : Term) (G : List Text), (∀ x ∈ t.variables, P x = false) →
    t.ReadsTested P G
  | .var _ x, G, h => by
    intro hx
    have := h x List.mem_cons_self
    rw [hx] at this
    cases this
  | .lit .., _, _ | .external .., _, _ => trivial
  | .array _ ts, G, h => Term.readsTestedAll_of_free ts G h
  | .map _ es, G, h => Term.readsTestedEntries_of_free es G h
  | .prop _ t _, G, h | .not _ t, G, h | .present _ t, G, h | .cast _ t, G, h | .pooled _ t, G, h =>
    Term.readsTested_of_free t G h
  | .key _ t u, G, h => by
    obtain ⟨ht, hu⟩ := forall_variables_append h
    exact ⟨Term.readsTested_of_free t G ht, Term.readsTested_of_free u G hu⟩
  | .call _ f args _, G, h => by
    obtain ⟨hf, hargs⟩ := forall_variables_append h
    exact ⟨Term.readsTested_of_free f G hf, Term.readsTestedAll_of_free args G hargs⟩
  | .binary _ op l r, G, h => by
    obtain ⟨hl, hr⟩ := forall_variables_append h
    exact ⟨fun _ => Term.readsTested_of_free l G hl, Term.readsTested_of_free r G hr⟩
  | .cond _ c yes none, G, h => by
    obtain ⟨hc, hyes⟩ := forall_variables_append h
    exact ⟨Term.readsTested_of_free c G hc, Term.readsTested_of_free yes G hyes⟩
  | .cond _ c yes (some no), G, h => by
    obtain ⟨hc, h⟩ := forall_variables_append h
    obtain ⟨hyes, hno⟩ := forall_variables_append h
    exact ⟨Term.readsTested_of_free c G hc, Term.readsTested_of_free yes G hyes,
      Term.readsTested_of_free no _ hno⟩
  | .function _ _ body _, _, h => Stmt.readsTestedAll_of_free body [] h

theorem Term.readsTestedAll_of_free : ∀ (ts : List Term) (G : List Text),
    (∀ x ∈ Term.variablesAll ts, P x = false) → Term.ReadsTestedAll P G ts
  | [], _, _ => trivial
  | t :: ts, G, h => by
    obtain ⟨ht, hts⟩ := forall_variables_append h
    exact ⟨Term.readsTested_of_free t G ht, Term.readsTestedAll_of_free ts G hts⟩

theorem Term.readsTestedEntries_of_free : ∀ (es : List (MapKey × Term)) (G : List Text),
    (∀ x ∈ (Term.nodesEntries es).filterMap Term.varName?, P x = false) →
    Term.ReadsTestedEntries P G es
  | [], _, _ => trivial
  | (_, t) :: es, G, h => by
    obtain ⟨ht, hes⟩ := forall_variables_append h
    exact ⟨Term.readsTested_of_free t G ht, Term.readsTestedEntries_of_free es G hes⟩

theorem Stmt.readsTested_of_free : ∀ (s : Stmt) (G : List Text),
    (∀ x ∈ s.nodes.filterMap Term.varName?, P x = false) → s.ReadsTested P G
  | .declare _ _ _ none, _, _ => trivial
  | .declare _ _ _ (some t), G, h | .expr _ t, G, h | .ret _ t, G, h =>
    Term.readsTested_of_free t G h
  | .function _ _ _ _ body, _, h => Stmt.readsTestedAll_of_free body [] h
  | .branch _ c yes no, G, h => by
    obtain ⟨hc, h⟩ := forall_variables_append h
    obtain ⟨hyes, hno⟩ := forall_variables_append h
    exact ⟨Term.readsTested_of_free c G hc, Stmt.readsTestedAll_of_free yes G hyes,
      Stmt.readsTestedAll_of_free no G hno⟩

theorem Stmt.readsTestedAll_of_free : ∀ (ss : List Stmt) (G : List Text),
    (∀ x ∈ Stmt.variablesAll ss, P x = false) → Stmt.ReadsTestedAll P G ss
  | [], _, _ => trivial
  | s :: ss, G, h => by
    obtain ⟨hs, hss⟩ := forall_variables_append h
    exact ⟨Stmt.readsTested_of_free s G hs, Stmt.readsTestedAll_of_free ss G hss⟩

end

end Free

end TemplateCompiler
