import TemplateCompiler.Proofs.Expr.Every

/-!
# Expressions as trees

An expression is a node over its children. In this view a change of every node, the list of all nodes
and a property of all nodes have one rule each, and there is one kind of induction:

* `e.children`, `e.withChildren es` : the expressions right below a node, and the node over others;
* `rebuildM_eq` : rebuilding is rebuilding the children, and then the node;
* `changeM?_eq` : so is a change, which keeps the node if it keeps the children;
* `every_iff` : a property of all nodes is one of the node, and of all nodes of the children;
* `induct` : what holds of an expression if it holds of its children holds of all expressions;
* `every_written`, `written_mem_nodes` : writing out collections changes a tree node by node.
-/

namespace TemplateCompiler.Expr

/-- The expressions right below a node. -/
def children : Expr → List Expr
  | context _ | literal .. | quote .. => []
  | chain _ es | array _ es | map _ _ es | interpolation _ _ es | builtin _ _ es => es
  | conditional _ a b c | indexWrite _ a b c => [a, b, c]
  | read _ a _ | safeRead _ a _ | not _ a | present _ a => [a]
  | write _ a _ b | index _ a b | binary _ _ a b => [a, b]
  | method _ a _ es | safeMethod _ a _ es | call _ a es | pipe _ a _ es => a :: es

/-- The node over other expressions, as many as it has children. -/
def withChildren : Expr → List Expr → Expr
  | chain p _, es => chain p es
  | array p _, es => array p es
  | map p ks _, es => map p ks es
  | interpolation p ts _, es => interpolation p ts es
  | builtin p k _, es => builtin p k es
  | conditional p _ _ _, [a, b, c] => conditional p a b c
  | indexWrite p _ _ _, [a, b, c] => indexWrite p a b c
  | read p _ n, [a] => read p a n
  | safeRead p _ n, [a] => safeRead p a n
  | not p _, [a] => not p a
  | present p _, [a] => present p a
  | write p _ n _, [a, b] => write p a n b
  | index p _ _, [a, b] => index p a b
  | binary p o _ _, [a, b] => binary p o a b
  | method p _ n _, a :: es => method p a n es
  | safeMethod p _ n _, a :: es => safeMethod p a n es
  | call p _ _, a :: es => call p a es
  | pipe p _ n _, a :: es => pipe p a n es
  | e, _ => e

theorem withChildren_children (e : Expr) : e.withChildren e.children = e := by
  cases e <;> rfl

theorem children_withChildren {e : Expr} {es : List Expr} (h : es.length = e.children.length) :
    (e.withChildren es).children = es := by
  cases e <;> simp only [children, List.length_cons, List.length_nil] at h
  case context | literal | quote => rw [List.eq_nil_of_length_eq_zero h]; rfl
  case chain | array | map | interpolation | builtin => rfl
  case conditional | indexWrite =>
    match es, h with
    | [_, _, _], _ => rfl
  case read | safeRead | not | present =>
    match es, h with
    | [_], _ => rfl
  case write | index | binary =>
    match es, h with
    | [_, _], _ => rfl
  case method | safeMethod | call | pipe =>
    match es, h with
    | _ :: _, _ => rfl

/-! ### Induction -/

mutual

/-- What holds of an expression if it holds of its children holds of all expressions. -/
theorem induct {P : Expr → Prop} (step : ∀ e : Expr, (∀ c ∈ e.children, P c) → P e) :
    ∀ e : Expr, P e
  | context p => step _ fun c hc => nomatch hc
  | literal p v => step _ fun c hc => nomatch hc
  | quote p s t l => step _ fun c hc => nomatch hc
  | chain p es => step _ (inductAll step es)
  | array p es => step _ (inductAll step es)
  | map p ks es => step _ (inductAll step es)
  | interpolation p ts es => step _ (inductAll step es)
  | builtin p k es => step _ (inductAll step es)
  | conditional p a b c => step _ (by simpa [children] using ⟨induct step a, induct step b, induct step c⟩)
  | indexWrite p a b c => step _ (by simpa [children] using ⟨induct step a, induct step b, induct step c⟩)
  | read p a n => step _ (by simpa [children] using induct step a)
  | safeRead p a n => step _ (by simpa [children] using induct step a)
  | not p a => step _ (by simpa [children] using induct step a)
  | present p a => step _ (by simpa [children] using induct step a)
  | write p a n b => step _ (by simpa [children] using ⟨induct step a, induct step b⟩)
  | index p a b => step _ (by simpa [children] using ⟨induct step a, induct step b⟩)
  | binary p o a b => step _ (by simpa [children] using ⟨induct step a, induct step b⟩)
  | method p a n es => step _ (List.forall_mem_cons.mpr ⟨induct step a, inductAll step es⟩)
  | safeMethod p a n es => step _ (List.forall_mem_cons.mpr ⟨induct step a, inductAll step es⟩)
  | call p a es => step _ (List.forall_mem_cons.mpr ⟨induct step a, inductAll step es⟩)
  | pipe p a n es => step _ (List.forall_mem_cons.mpr ⟨induct step a, inductAll step es⟩)

theorem inductAll {P : Expr → Prop} (step : ∀ e : Expr, (∀ c ∈ e.children, P c) → P e) :
    ∀ es : List Expr, ∀ c ∈ es, P c
  | [] => fun _ hc => nomatch hc
  | e :: es => List.forall_mem_cons.mpr ⟨induct step e, inductAll step es⟩

end

/-! ### Walks -/

theorem rebuildM_eq {m : Type → Type} [Monad m] [LawfulMonad m] (f : Expr → m Expr) (e : Expr) :
    e.rebuildM f = rebuildAllM f e.children >>= fun es => f (e.withChildren es) := by
  cases e <;> simp only [rebuildM, rebuildAllM, children, withChildren, bind_assoc, pure_bind]

theorem rebuildAllM_cons {m : Type → Type} [Monad m] (f : Expr → m Expr) (e : Expr)
    (es : List Expr) :
    rebuildAllM f (e :: es) =
      e.rebuildM f >>= fun e' => rebuildAllM f es >>= fun es' => pure (e' :: es') := by
  rw [rebuildAllM]

theorem rebuild_eq (f : Expr → Expr) (e : Expr) :
    e.rebuild f = f (e.withChildren (rebuildAll f e.children)) := by
  cases e <;> rfl

theorem rebuildAll_cons (f : Expr → Expr) (e : Expr) (es : List Expr) :
    rebuildAll f (e :: es) = e.rebuild f :: rebuildAll f es := rfl

theorem rebuildAll_eq_map (f : Expr → Expr) (es : List Expr) :
    rebuildAll f es = es.map (rebuild f) := by
  induction es with
  | nil => rfl
  | cons e es ih => rw [rebuildAll_cons, ih, List.map_cons]

theorem length_rebuildAll (f : Expr → Expr) (es : List Expr) :
    (rebuildAll f es).length = es.length := by
  rw [rebuildAll_eq_map, List.length_map]

theorem rebuild_id (e : Expr) : e.rebuild id = e := by
  induction e using induct with
  | step e ih =>
      rw [rebuild_eq, rebuildAll_eq_map, List.map_congr_left ih, List.map_id', withChildren_children]
      rfl

section Merge

variable {α β γ δ : Type}

theorem map_merge₂ (a : α) (a' : Option α) (b : β) (b' : Option β) (g : α → β → γ) (h : γ → δ) :
    (merge₂ a a' b b' g).map h = merge₂ a a' b b' fun a b => h (g a b) := by
  cases a' <;> cases b' <;> rfl

theorem merge₂_nil (a : α) (a' : Option α) : merge₂ a a' [] none List.cons = a'.map ([·]) := by
  cases a' <;> rfl

theorem merge₂_singleton (a b : α) (a' b' : Option α) :
    merge₂ a a' [b] (b'.map ([·])) List.cons = merge₂ a a' b b' fun a b => [a, b] := by
  cases a' <;> cases b' <;> rfl

theorem merge₂_pair (a b c : α) (a' b' c' : Option α) :
    merge₂ a a' [b, c] (merge₂ b b' c c' fun b c => [b, c]) List.cons =
      merge₃ a a' b b' c c' fun a b c => [a, b, c] := by
  cases a' <;> cases b' <;> cases c' <;> rfl

theorem map_merge₃ (a b c : α) (a' b' c' : Option α) (g : α → α → α → γ) (h : γ → δ) :
    (merge₃ a a' b b' c c' g).map h = merge₃ a a' b b' c c' fun a b c => h (g a b c) := by
  cases a' <;> cases b' <;> cases c' <;> rfl

end Merge

theorem changeM?_eq {m : Type → Type} [Monad m] [LawfulMonad m] (f : Expr → m (Option Expr))
    (e : Expr) :
    e.changeM? f = changeAllM? f e.children >>= fun es => settle f e (es.map e.withChildren) := by
  cases e
  case chain | array | map | interpolation | builtin => rw [changeM?]; rfl
  all_goals
    simp [changeM?, changeAllM?, children, withChildren, merge₂_nil, merge₂_singleton, merge₂_pair,
      map_merge₂, map_merge₃, Function.comp_def]

theorem changeAllM?_cons {m : Type → Type} [Monad m] (f : Expr → m (Option Expr)) (e : Expr)
    (es : List Expr) :
    changeAllM? f (e :: es) = e.changeM? f >>= fun e' => changeAllM? f es >>= fun es' =>
      pure (merge₂ e e' es es' List.cons) := by
  rw [changeAllM?]

theorem every_iff {P : Expr → Prop} {e : Expr} : e.Every P ↔ P e ∧ EveryAll P e.children := by
  cases e <;> simp [Every, EveryAll, children]

theorem everyAll_iff {P : Expr → Prop} {es : List Expr} :
    EveryAll P es ↔ ∀ e ∈ es, e.Every P := by
  induction es with
  | nil => simp [EveryAll]
  | cons e es ih => simp [EveryAll, ih]

/-- All nodes of an expression, each before those below it. -/
def nodes (e : Expr) : List Expr := e.visited fun _ => true

/-- The nodes of expressions one after the other. -/
def nodesAll (es : List Expr) : List Expr := visitedAll (fun _ => true) es

theorem nodes_eq (e : Expr) : e.nodes = e :: nodesAll e.children := by
  cases e <;> simp [nodes, nodesAll, visited, visitedAll, children]

theorem nodesAll_cons (e : Expr) (es : List Expr) : nodesAll (e :: es) = e.nodes ++ nodesAll es := by
  rw [nodesAll, visitedAll]
  rfl

theorem mem_nodesAll {x : Expr} {es : List Expr} : x ∈ nodesAll es ↔ ∃ e ∈ es, x ∈ e.nodes := by
  induction es with
  | nil => simp [nodesAll, visitedAll]
  | cons e es ih => simp [nodesAll_cons, ih]

/-- A property of all nodes is one of each node in the list. -/
theorem every_iff_nodes {P : Expr → Prop} (e : Expr) : e.Every P ↔ ∀ x ∈ e.nodes, P x := by
  induction e using induct with
  | step e ih =>
      have hchildren : EveryAll P e.children ↔ ∀ x ∈ nodesAll e.children, P x := by
        rw [everyAll_iff]
        constructor
        · intro h x hx
          obtain ⟨c, hc, hxc⟩ := mem_nodesAll.mp hx
          exact (ih c hc).mp (h c hc) x hxc
        · intro h c hc
          exact (ih c hc).mpr fun x hx => h x (mem_nodesAll.mpr ⟨c, hc, hx⟩)
      rw [every_iff, nodes_eq, List.forall_mem_cons, hchildren]

/-! ### Written out collections -/

theorem children_written (e : Expr) : e.written.children = e.children.map written := by
  cases e <;> first | rfl | exact rebuildAll_eq_map _ _ | exact congrArg _ (rebuildAll_eq_map _ _)

/-- A property that writing out a node gives holds of all nodes. -/
theorem every_written {P R : Expr → Prop} (h : ∀ x, P x → R x.written) (e : Expr) :
    e.Every P → e.written.Every R := by
  induction e using induct with
  | step e ih =>
      intro he
      obtain ⟨hnode, hchildren⟩ := every_iff.mp he
      refine every_iff.mpr ⟨h e hnode, everyAll_iff.mpr ?_⟩
      rw [children_written]
      intro c hc
      obtain ⟨x, hx, rfl⟩ := List.mem_map.mp hc
      exact ih x hx (everyAll_iff.mp hchildren x hx)

theorem written_mem_nodes {x : Expr} (e : Expr) : x ∈ e.nodes → x.written ∈ e.written.nodes := by
  induction e using induct with
  | step e ih =>
      intro hx
      rw [nodes_eq, List.mem_cons] at hx ⊢
      rcases hx with rfl | hx
      · exact .inl rfl
      · obtain ⟨c, hc, hx⟩ := mem_nodesAll.mp hx
        refine .inr (mem_nodesAll.mpr ⟨c.written, ?_, ih c hc hx⟩)
        rw [children_written]
        exact List.mem_map_of_mem hc

/-! ### Items -/

theorem mem_itemsAll {x : Expr} {es : List Expr} : x ∈ itemsAll es ↔ ∃ e ∈ es, x ∈ e.items := by
  induction es with
  | nil => simp [itemsAll]
  | cons e es ih => simp [itemsAll, ih]

/-- What holds of the items and of chains holds of all nodes. -/
theorem every_of_items {P : Expr → Prop} (hchain : ∀ p es, P (.chain p es)) (e : Expr) :
    EveryAll P e.items → e.Every P := by
  induction e using induct with
  | step e ih =>
      intro h
      cases e with
      | chain p es =>
          rw [items, everyAll_iff] at h
          refine ⟨hchain p es, everyAll_iff.mpr fun c hc => ih c hc (everyAll_iff.mpr fun y hy => ?_)⟩
          exact h y (mem_itemsAll.mpr ⟨c, hc, hy⟩)
      | _ => exact h.1

mutual

theorem items_written : ∀ e : Expr, e.written.items = e.items.map written
  | .chain _ es => itemsAll_written es
  | .context .. | .conditional .. | .read .. | .write .. | .safeRead .. | .index .. | .indexWrite ..
  | .method .. | .safeMethod .. | .call .. | .binary .. | .not .. | .present .. | .literal ..
  | .array .. | .map .. | .interpolation .. | .pipe .. | .quote .. | .builtin .. => rfl

theorem itemsAll_written : ∀ es : List Expr, itemsAll (writtenAll es) = (itemsAll es).map written
  | [] => rfl
  | e :: es => by
    change items e.written ++ itemsAll (writtenAll es) = _
    rw [items_written e, itemsAll_written es, itemsAll, List.map_append]

end

end TemplateCompiler.Expr
