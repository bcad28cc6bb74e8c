import TemplateCompiler.Expr.Basic

/-!
# Walking over expressions

* `Expr.visited` : the nodes of a tree from the root down, leaving out what is below some nodes;
* `Expr.rebuildM` : a change of every node after the nodes below it, in some monad;
* `Expr.changeM?` : a change of some nodes, which keeps every subtree that needs none.
-/

namespace TemplateCompiler.Expr

mutual

/-- The nodes of a tree, each before the nodes below it, which are left out where `enter` fails. -/
def visited (enter : Expr → Bool) : Expr → List Expr
  | e@(context _) | e@(literal ..) | e@(quote ..) => [e]
  | e@(chain _ es) | e@(array _ es) | e@(map _ _ es) | e@(interpolation _ _ es)
  | e@(builtin _ _ es) => e :: if enter e then visitedAll enter es else []
  | e@(conditional _ a b c) | e@(indexWrite _ a b c) =>
    e :: if enter e then visited enter a ++ visited enter b ++ visited enter c else []
  | e@(read _ a _) | e@(safeRead _ a _) | e@(not _ a) | e@(present _ a) =>
    e :: if enter e then visited enter a else []
  | e@(write _ a _ b) | e@(index _ a b) | e@(binary _ _ a b) =>
    e :: if enter e then visited enter a ++ visited enter b else []
  | e@(method _ a _ es) | e@(safeMethod _ a _ es) | e@(call _ a es) | e@(pipe _ a _ es) =>
    e :: if enter e then visited enter a ++ visitedAll enter es else []

/-- The nodes of trees one after the other. -/
def visitedAll (enter : Expr → Bool) : List Expr → List Expr
  | [] => []
  | e :: es => visited enter e ++ visitedAll enter es

end

/-- The names of the property reads of a tree, from the root down. -/
def readNames (e : Expr) : List Text :=
  (e.visited fun _ => true).filterMap fun | read _ _ name => some name | _ => none

/-! ### Rebuilding -/

section Rebuild

variable {m : Type → Type} [Monad m] (f : Expr → m Expr)

mutual

/-- Rebuilds a tree from the leaves up; `f` is given each node over the rebuilt ones. -/
def rebuildM : Expr → m Expr
  | e@(context _) | e@(literal ..) | e@(quote ..) => f e
  | chain p es => do f (chain p (← rebuildAllM es))
  | conditional p a b c => do f (conditional p (← a.rebuildM) (← b.rebuildM) (← c.rebuildM))
  | read p r n => do f (read p (← r.rebuildM) n)
  | write p r n v => do f (write p (← r.rebuildM) n (← v.rebuildM))
  | safeRead p r n => do f (safeRead p (← r.rebuildM) n)
  | index p o k => do f (index p (← o.rebuildM) (← k.rebuildM))
  | indexWrite p o k v => do f (indexWrite p (← o.rebuildM) (← k.rebuildM) (← v.rebuildM))
  | method p r n es => do f (method p (← r.rebuildM) n (← rebuildAllM es))
  | safeMethod p r n es => do f (safeMethod p (← r.rebuildM) n (← rebuildAllM es))
  | call p t es => do f (call p (← t.rebuildM) (← rebuildAllM es))
  | binary p o l r => do f (binary p o (← l.rebuildM) (← r.rebuildM))
  | not p e => do f (not p (← e.rebuildM))
  | present p e => do f (present p (← e.rebuildM))
  | array p es => do f (array p (← rebuildAllM es))
  | map p ks es => do f (map p ks (← rebuildAllM es))
  | interpolation p ts es => do f (interpolation p ts (← rebuildAllM es))
  | pipe p e n es => do f (pipe p (← e.rebuildM) n (← rebuildAllM es))
  | builtin p k es => do f (builtin p k (← rebuildAllM es))

/-- Rebuilds trees from left to right. -/
def rebuildAllM : List Expr → m (List Expr)
  | [] => return []
  | e :: es => return (← e.rebuildM) :: (← rebuildAllM es)

end

end Rebuild

/-- Rebuilds a tree without effects. -/
def rebuild (f : Expr → Expr) (e : Expr) : Expr := e.rebuildM (m := Id) f

/-! ### Changing only what needs it -/

section Change

/-- Rebuilds a node if one of two parts changed. -/
def merge₂ {α β γ : Type} (a : α) (a' : Option α) (b : β) (b' : Option β) (g : α → β → γ) :
    Option γ :=
  match a', b' with
  | none, none => none
  | _, _ => some (g (a'.getD a) (b'.getD b))

/-- Rebuilds a node if one of three parts changed. -/
def merge₃ {α β γ δ : Type} (a : α) (a' : Option α) (b : β) (b' : Option β) (c : γ)
    (c' : Option γ) (g : α → β → γ → δ) : Option δ :=
  match a', b', c' with
  | none, none, none => none
  | _, _, _ => some (g (a'.getD a) (b'.getD b) (c'.getD c))

variable {m : Type → Type} [Monad m] (f : Expr → m (Option Expr))

/-- Changes a node whose parts may have changed already; `none` if nothing did. -/
def settle (e : Expr) (e' : Option Expr) : m (Option Expr) := do
  return (← f (e'.getD e)).or e'

mutual

/-- The changed tree, or `none` if no node changes; `f` is given each node over the changed ones. -/
def changeM? : Expr → m (Option Expr)
  | e@(context _) | e@(literal ..) | e@(quote ..) => settle f e none
  | e@(chain p es) => do settle f e ((← changeAllM? es).map (chain p))
  | e@(conditional p a b c) => do
    settle f e (merge₃ a (← a.changeM?) b (← b.changeM?) c (← c.changeM?) (conditional p))
  | e@(read p r n) => do settle f e ((← r.changeM?).map (read p · n))
  | e@(write p r n v) => do settle f e (merge₂ r (← r.changeM?) v (← v.changeM?) (write p · n))
  | e@(safeRead p r n) => do settle f e ((← r.changeM?).map (safeRead p · n))
  | e@(index p o k) => do settle f e (merge₂ o (← o.changeM?) k (← k.changeM?) (index p))
  | e@(indexWrite p o k v) => do
    settle f e (merge₃ o (← o.changeM?) k (← k.changeM?) v (← v.changeM?) (indexWrite p))
  | e@(method p r n es) => do
    settle f e (merge₂ r (← r.changeM?) es (← changeAllM? es) (method p · n))
  | e@(safeMethod p r n es) => do
    settle f e (merge₂ r (← r.changeM?) es (← changeAllM? es) (safeMethod p · n))
  | e@(call p t es) => do settle f e (merge₂ t (← t.changeM?) es (← changeAllM? es) (call p))
  | e@(binary p o l r) => do
    settle f e (merge₂ l (← l.changeM?) r (← r.changeM?) (binary p o))
  | e@(not p a) => do settle f e ((← a.changeM?).map (not p))
  | e@(present p a) => do settle f e ((← a.changeM?).map (present p))
  | e@(array p es) => do settle f e ((← changeAllM? es).map (array p))
  | e@(map p ks es) => do settle f e ((← changeAllM? es).map (map p ks))
  | e@(interpolation p ts es) => do settle f e ((← changeAllM? es).map (interpolation p ts))
  | e@(pipe p a n es) => do
    settle f e (merge₂ a (← a.changeM?) es (← changeAllM? es) (pipe p · n))
  | e@(builtin p k es) => do settle f e ((← changeAllM? es).map (builtin p k))

/-- The changed trees, or `none` if none of them changes. -/
def changeAllM? : List Expr → m (Option (List Expr))
  | [] => return none
  | e :: es => return merge₂ e (← e.changeM?) es (← changeAllM? es) List.cons

end

end Change

/-- Changes nodes without effects. -/
def change? (f : Expr → Option Expr) (e : Expr) : Option Expr := e.changeM? (m := Id) f

/-! ### Renaming -/

/-- A property read called `old`, under the name `new`. -/
def renameRead? (old new : Text) : Expr → Option Expr
  | read p r n => if n = old then some (read p r new) else none
  | _ => none

/-- The tree with its reads of `old` renamed, rebuilt from the leaves up. -/
def renameReads (old new : Text) : Expr → Expr :=
  rebuild fun e => (renameRead? old new e).getD e

/-- The tree with its reads of `old` renamed, or `none` if there are none. -/
def renameReads? (old new : Text) : Expr → Option Expr := change? (renameRead? old new)

end TemplateCompiler.Expr
