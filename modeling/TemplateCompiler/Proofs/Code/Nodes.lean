import TemplateCompiler.Code.Basic

/-!
# The nodes of generated code

`Term.nodes` lists every term inside a term, also those in the bodies of functions and the literals
that pooled terms stand for. `Term.variables` are the variables among them, read or assigned.
-/

namespace TemplateCompiler

mutual

/-- A term and all terms inside it, each before those below it. -/
def Term.nodes : Term → List Term
  | t@(.var ..) | t@(.lit ..) | t@(.external ..) => [t]
  | t@(.array _ ts) => t :: Term.nodesAll ts
  | t@(.map _ es) => t :: Term.nodesEntries es
  | t@(.prop _ a _) | t@(.not _ a) | t@(.present _ a) | t@(.cast _ a) | t@(.pooled _ a) =>
    t :: a.nodes
  | t@(.key _ a b) | t@(.binary _ _ a b) | t@(.cond _ a b none) => t :: (a.nodes ++ b.nodes)
  | t@(.call _ f args _) => t :: (f.nodes ++ Term.nodesAll args)
  | t@(.cond _ c y (some n)) => t :: (c.nodes ++ (y.nodes ++ n.nodes))
  | t@(.function _ _ body _) => t :: Stmt.nodesAll body

def Term.nodesAll : List Term → List Term
  | [] => []
  | t :: ts => t.nodes ++ Term.nodesAll ts

def Term.nodesEntries : List (MapKey × Term) → List Term
  | [] => []
  | (_, t) :: es => t.nodes ++ Term.nodesEntries es

def Stmt.nodes : Stmt → List Term
  | .declare _ _ _ none => []
  | .declare _ _ _ (some t) | .expr _ t | .ret _ t => t.nodes
  | .function _ _ _ _ body => Stmt.nodesAll body
  | .branch _ c yes no => c.nodes ++ (Stmt.nodesAll yes ++ Stmt.nodesAll no)

/-- The terms inside statements one after the other. -/
def Stmt.nodesAll : List Stmt → List Term
  | [] => []
  | s :: ss => s.nodes ++ Stmt.nodesAll ss

end

def Term.varName? : Term → Option Text
  | .var _ n => some n
  | _ => none

/-- The variables of a term, read or assigned. -/
def Term.variables (t : Term) : List Text := t.nodes.filterMap Term.varName?

/-- The variables of statements, read or assigned. -/
def Stmt.variablesAll (ss : List Stmt) : List Text := (Stmt.nodesAll ss).filterMap Term.varName?

theorem forall_variables_append {Q : Text → Prop} {ts us : List Term}
    (h : ∀ x ∈ (ts ++ us).filterMap Term.varName?, Q x) :
    (∀ x ∈ ts.filterMap Term.varName?, Q x) ∧ ∀ x ∈ us.filterMap Term.varName?, Q x := by
  rw [List.filterMap_append, List.forall_mem_append] at h
  exact h

def Operator.assigned? : Operator → Term → Option Text
  | .assign, .var _ n => some n
  | _, _ => none

theorem Operator.mem_variables_of_assigned? {op : Operator} {t : Term} {x : Text}
    (h : op.assigned? t = some x) : x ∈ t.variables := by
  unfold Operator.assigned? at h
  split at h
  · cases h
    exact List.mem_cons_self
  · cases h

theorem Operator.assigned?_of_ne {op : Operator} (h : op ≠ .assign) (t : Term) :
    op.assigned? t = none := by
  unfold Operator.assigned?
  split
  · exact absurd rfl h
  · rfl

def Term.assigned? : Term → Option Text
  | .binary _ op l _ => op.assigned? l
  | _ => none

theorem Stmt.nodesAll_append (ss ss' : List Stmt) :
    Stmt.nodesAll (ss ++ ss') = Stmt.nodesAll ss ++ Stmt.nodesAll ss' := by
  induction ss with
  | nil => rfl
  | cons s ss ih => rw [List.cons_append, Stmt.nodesAll, Stmt.nodesAll, ih, List.append_assoc]

theorem Stmt.nodesAll_map_ofTerm (ts : List Term) :
    Stmt.nodesAll (ts.map Stmt.ofTerm) = Term.nodesAll ts := by
  induction ts with
  | nil => rfl
  | cons t ts ih => rw [List.map_cons, Stmt.nodesAll, ih]; rfl

theorem Stmt.variablesAll_append (ss ss' : List Stmt) :
    Stmt.variablesAll (ss ++ ss') = Stmt.variablesAll ss ++ Stmt.variablesAll ss' := by
  rw [variablesAll, nodesAll_append, List.filterMap_append]
  rfl

theorem Term.nodesAll_append (ts ts' : List Term) :
    Term.nodesAll (ts ++ ts') = Term.nodesAll ts ++ Term.nodesAll ts' := by
  induction ts with
  | nil => rfl
  | cons t ts ih => rw [List.cons_append, Term.nodesAll, Term.nodesAll, ih, List.append_assoc]

theorem Term.nodesEntries_zip (keys : List MapKey) (ts : List Term) :
    Term.nodesEntries (keys.zip ts) = Term.nodesAll (ts.take keys.length) := by
  induction keys generalizing ts with
  | nil => rw [List.zip_nil_left, List.length_nil, List.take_zero]; rfl
  | cons k keys ih =>
      cases ts with
      | nil => rfl
      | cons t ts =>
          rw [List.zip_cons_cons, List.length_cons, List.take_succ_cons, Term.nodesAll, ← ih ts]
          rfl

end TemplateCompiler
