import TemplateCompiler.Expr.Printer
import TemplateCompiler.Proofs.Run
import TemplateCompiler.Lowering.Builtin

/-!
# All nodes of an expression

* `e.Every P` : every node of `e` has the property `P`;
* `e.items` : the expressions that become statements, those of a chain one by one;
* `eq_rebuild_of_rebuildM` : a change of every node that may fail is, if it succeeds, a change without
  effects;
* `eq_written_of_replaceBuiltins` : so replacing literal collections by builtins gives `e.written`.
-/

namespace TemplateCompiler.Expr

mutual

/-- Every node of an expression has a property. -/
def Every (P : Expr → Prop) : Expr → Prop
  | e@(context _) | e@(literal ..) | e@(quote ..) => P e
  | e@(chain _ es) | e@(array _ es) | e@(map _ _ es) | e@(interpolation _ _ es)
  | e@(builtin _ _ es) => P e ∧ EveryAll P es
  | e@(conditional _ a b c) | e@(indexWrite _ a b c) => P e ∧ Every P a ∧ Every P b ∧ Every P c
  | e@(read _ a _) | e@(safeRead _ a _) | e@(not _ a) | e@(present _ a) => P e ∧ Every P a
  | e@(write _ a _ b) | e@(index _ a b) | e@(binary _ _ a b) => P e ∧ Every P a ∧ Every P b
  | e@(method _ a _ es) | e@(safeMethod _ a _ es) | e@(call _ a es) | e@(pipe _ a _ es) =>
    P e ∧ Every P a ∧ EveryAll P es

/-- Every node of several expressions has a property. -/
def EveryAll (P : Expr → Prop) : List Expr → Prop
  | [] => True
  | e :: es => Every P e ∧ EveryAll P es

end

mutual

theorem Every.imp₂ {P Q R : Expr → Prop} (hR : ∀ x, P x → Q x → R x) :
    ∀ {e : Expr}, e.Every P → e.Every Q → e.Every R
  | .context .., h, h' | .literal .., h, h' | .quote .., h, h' => hR _ h h'
  | .read .., h, h' | .safeRead .., h, h' | .not .., h, h' | .present .., h, h' =>
    ⟨hR _ h.1 h'.1, Every.imp₂ hR h.2 h'.2⟩
  | .write .., h, h' | .index .., h, h' | .binary .., h, h' =>
    ⟨hR _ h.1 h'.1, Every.imp₂ hR h.2.1 h'.2.1, Every.imp₂ hR h.2.2 h'.2.2⟩
  | .conditional .., h, h' | .indexWrite .., h, h' =>
    ⟨hR _ h.1 h'.1, Every.imp₂ hR h.2.1 h'.2.1, Every.imp₂ hR h.2.2.1 h'.2.2.1,
      Every.imp₂ hR h.2.2.2 h'.2.2.2⟩
  | .method .., h, h' | .safeMethod .., h, h' | .call .., h, h'
  | .pipe .., h, h' =>
    ⟨hR _ h.1 h'.1, Every.imp₂ hR h.2.1 h'.2.1, EveryAll.imp₂ hR h.2.2 h'.2.2⟩
  | .chain .., h, h' | .interpolation .., h, h' | .array .., h, h' | .map .., h, h'
  | .builtin .., h, h' => ⟨hR _ h.1 h'.1, EveryAll.imp₂ hR h.2 h'.2⟩

theorem EveryAll.imp₂ {P Q R : Expr → Prop} (hR : ∀ x, P x → Q x → R x) :
    ∀ {es : List Expr}, EveryAll P es → EveryAll Q es → EveryAll R es
  | [], _, _ => trivial
  | _ :: _, h, h' => ⟨Every.imp₂ hR h.1 h'.1, EveryAll.imp₂ hR h.2 h'.2⟩

end

theorem everyAll_append {P : Expr → Prop} {es es' : List Expr} (h : EveryAll P es)
    (h' : EveryAll P es') : EveryAll P (es ++ es') := by
  induction es with
  | nil => exact h'
  | cons e es ih => exact ⟨h.1, ih h.2⟩

/-! ### Items of chains -/

mutual

/-- The expressions that become statements: the items of a chain one by one. -/
def items : Expr → List Expr
  | chain _ es => itemsAll es
  | e => [e]

/-- The items of expressions one after the other. -/
def itemsAll : List Expr → List Expr
  | [] => []
  | e :: es => items e ++ itemsAll es

end

mutual

theorem Every.items {P : Expr → Prop} : ∀ {e : Expr}, e.Every P → EveryAll P e.items
  | .chain p es, h => by
    rw [Expr.items]
    exact EveryAll.itemsAll h.2
  | .context .., h | .conditional .., h | .read .., h | .write .., h | .safeRead .., h
  | .index .., h | .indexWrite .., h | .method .., h | .safeMethod .., h | .call .., h
  | .binary .., h | .not .., h | .present .., h | .literal .., h | .array .., h | .map .., h
  | .interpolation .., h | .pipe .., h | .quote .., h | .builtin .., h => ⟨h, trivial⟩

theorem EveryAll.itemsAll {P : Expr → Prop} : ∀ {es : List Expr}, EveryAll P es →
    EveryAll P (itemsAll es)
  | [], _ => trivial
  | _ :: _, h => by
    rw [Expr.itemsAll]
    exact everyAll_append (Every.items h.1) (EveryAll.itemsAll h.2)

end

/-! ### Changes without effects -/

section Rebuild

variable {ε : Type} {g : Expr → Except ε Expr} {f : Expr → Expr}

/-- Rebuilds trees from left to right without effects. -/
def rebuildAll (f : Expr → Expr) (es : List Expr) : List Expr := rebuildAllM (m := Id) f es

mutual

theorem eq_rebuild_of_rebuildM (h : ∀ x y, g x = .ok y → y = f x) :
    ∀ {e e' : Expr}, e.rebuildM g = .ok e' → e' = e.rebuild f
  | .context p, e', he | .literal p v, e', he | .quote p s t l, e', he => by
    rw [rebuildM] at he
    exact h _ _ he
  | .read p a n, e', he | .safeRead p a n, e', he | .not p a, e', he | .present p a, e', he => by
    rw [rebuildM] at he
    obtain ⟨a', ha, he⟩ := except_bind_ok.mp he
    rw [h _ _ he, eq_rebuild_of_rebuildM h ha]
    rfl
  | .write p a n b, e', he | .index p a b, e', he | .binary p o a b, e', he => by
    rw [rebuildM] at he
    obtain ⟨a', ha, he⟩ := except_bind_ok.mp he
    obtain ⟨b', hb, he⟩ := except_bind_ok.mp he
    rw [h _ _ he, eq_rebuild_of_rebuildM h ha, eq_rebuild_of_rebuildM h hb]
    rfl
  | .conditional p a b c, e', he | .indexWrite p a b c, e', he => by
    rw [rebuildM] at he
    obtain ⟨a', ha, he⟩ := except_bind_ok.mp he
    obtain ⟨b', hb, he⟩ := except_bind_ok.mp he
    obtain ⟨c', hc, he⟩ := except_bind_ok.mp he
    rw [h _ _ he, eq_rebuild_of_rebuildM h ha, eq_rebuild_of_rebuildM h hb,
      eq_rebuild_of_rebuildM h hc]
    rfl
  | .chain p es, e', he | .array p es, e', he | .map p ks es, e', he
  | .interpolation p ts es, e', he | .builtin p k es, e', he => by
    rw [rebuildM] at he
    obtain ⟨es', hes, he⟩ := except_bind_ok.mp he
    rw [h _ _ he, eq_rebuildAll_of_rebuildAllM h hes]
    rfl
  | .method p a n es, e', he | .safeMethod p a n es, e', he | .call p a es, e', he
  | .pipe p a n es, e', he => by
    rw [rebuildM] at he
    obtain ⟨a', ha, he⟩ := except_bind_ok.mp he
    obtain ⟨es', hes, he⟩ := except_bind_ok.mp he
    rw [h _ _ he, eq_rebuild_of_rebuildM h ha, eq_rebuildAll_of_rebuildAllM h hes]
    rfl

theorem eq_rebuildAll_of_rebuildAllM (h : ∀ x y, g x = .ok y → y = f x) :
    ∀ {es es' : List Expr}, rebuildAllM g es = .ok es' → es' = rebuildAll f es
  | [], es', he => by
    rw [rebuildAllM] at he
    cases he
    rfl
  | e :: es, es', he => by
    rw [rebuildAllM] at he
    obtain ⟨e', he', he⟩ := except_bind_ok.mp he
    obtain ⟨es', hes, he⟩ := except_bind_ok.mp he
    cases he
    rw [eq_rebuild_of_rebuildM h he', eq_rebuildAll_of_rebuildAllM h hes]
    rfl

end

def ErrorsIn {α : Type} (Q : ε → Prop) (x : Except ε α) : Prop := ∀ d, x = .error d → Q d

theorem errorsIn_bind {α β : Type} {Q : ε → Prop} {x : Except ε α} {k : α → Except ε β}
    (hx : ErrorsIn Q x) (hk : ∀ a, ErrorsIn Q (k a)) : ErrorsIn Q (x >>= k) := by
  intro d hd
  cases x with
  | error d' =>
      cases hd
      exact hx _ rfl
  | ok a => exact hk a d hd

mutual

/-- A change fails only as it does at some node. -/
theorem errorsIn_rebuildM {Q : ε → Prop} (h : ∀ x, ErrorsIn Q (g x)) :
    ∀ e : Expr, ErrorsIn Q (e.rebuildM g)
  | .context p | .literal p v | .quote p s t l => by
    rw [rebuildM]
    exact h _
  | .read p a n | .safeRead p a n | .not p a | .present p a => by
    rw [rebuildM]
    exact errorsIn_bind (errorsIn_rebuildM h a) fun _ => h _
  | .write p a n b | .index p a b | .binary p o a b => by
    rw [rebuildM]
    exact errorsIn_bind (errorsIn_rebuildM h a) fun _ =>
      errorsIn_bind (errorsIn_rebuildM h b) fun _ => h _
  | .conditional p a b c | .indexWrite p a b c => by
    rw [rebuildM]
    exact errorsIn_bind (errorsIn_rebuildM h a) fun _ =>
      errorsIn_bind (errorsIn_rebuildM h b) fun _ =>
        errorsIn_bind (errorsIn_rebuildM h c) fun _ => h _
  | .chain p es | .array p es | .map p ks es | .interpolation p ts es | .builtin p k es => by
    rw [rebuildM]
    exact errorsIn_bind (errorsIn_rebuildAllM h es) fun _ => h _
  | .method p a n es | .safeMethod p a n es | .call p a es | .pipe p a n es => by
    rw [rebuildM]
    exact errorsIn_bind (errorsIn_rebuildM h a) fun _ =>
      errorsIn_bind (errorsIn_rebuildAllM h es) fun _ => h _

theorem errorsIn_rebuildAllM {Q : ε → Prop} (h : ∀ x, ErrorsIn Q (g x)) :
    ∀ es : List Expr, ErrorsIn Q (rebuildAllM g es)
  | [] => by
    rw [rebuildAllM]
    exact fun _ hd => nomatch hd
  | e :: es => by
    rw [rebuildAllM]
    exact errorsIn_bind (errorsIn_rebuildM h e) fun _ =>
      errorsIn_bind (errorsIn_rebuildAllM h es) fun _ _ hd => nomatch hd

end

end Rebuild

/-! ### Literal collections -/

def writtenNode : Expr → Expr
  | array p es => builtin p .array es
  | map p ks es => builtin p (.map ks) es
  | e => e

/-- An expression with its literal collections as builtins. -/
def written (e : Expr) : Expr := e.rebuild writtenNode

/-- Expressions with their literal collections as builtins. -/
def writtenAll (es : List Expr) : List Expr := rebuildAll writtenNode es

theorem eq_written_of_replaceBuiltins {e e' : Expr}
    (h : e.replaceBuiltins BuiltinFactory.literal = .ok e') : e' = e.written := by
  refine eq_rebuild_of_rebuildM (fun x y hxy => ?_) h
  cases x <;> cases hxy <;> rfl

/-- Whether a node computes a value and does nothing else. -/
def isPure : Expr → Bool
  | chain .. | write .. | indexWrite .. | interpolation .. | pipe .. | quote .. => false
  | _ => true

def function? : Expr → Option Text
  | builtin _ (.call f) _ => some f
  | _ => none

/-- The member of the context that a node reads, writes or calls. -/
def member? : Expr → Option Text
  | read _ r name | safeRead _ r name | write _ r name _ | method _ r name _ | safeMethod _ r name _ =>
    if r.isContext then some name else none
  | _ => none

/-- Whether a node that makes a map has a value for each key. -/
def isPaired : Expr → Bool
  | map _ ks es | builtin _ (.map ks) es => ks.length == es.length
  | _ => true

/-- Whether a node puts texts and values together. -/
def isInterpolation : Expr → Bool
  | interpolation .. => true
  | _ => false

theorem length_writtenAll (es : List Expr) : (writtenAll es).length = es.length := by
  induction es with
  | nil => rfl
  | cons e es ih =>
      change (e.written :: writtenAll es).length = _
      rw [List.length_cons, ih, List.length_cons]

mutual

/-- Writing out literal collections keeps what does not depend on the parts of a node. -/
theorem Every.written {P : Expr → Prop}
    (hP : ∀ x y, P x → isPure y = isPure x → isInterpolation y = isInterpolation x →
      function? y = function? x → isPaired y = isPaired x → P y) : ∀ {e : Expr}, e.Every P → e.written.Every P
  | .context p, h | .literal p v, h | .quote p s t l, h => h
  | .read p a n, h | .safeRead p a n, h | .not p a, h | .present p a, h =>
    ⟨hP _ _ h.1 rfl rfl rfl rfl, Every.written hP h.2⟩
  | .write p a n b, h | .index p a b, h | .binary p o a b, h =>
    ⟨hP _ _ h.1 rfl rfl rfl rfl, Every.written hP h.2.1, Every.written hP h.2.2⟩
  | .conditional p a b c, h | .indexWrite p a b c, h =>
    ⟨hP _ _ h.1 rfl rfl rfl rfl, Every.written hP h.2.1, Every.written hP h.2.2.1,
      Every.written hP h.2.2.2⟩
  | .method p a n es, h | .safeMethod p a n es, h | .call p a es, h | .pipe p a n es, h =>
    ⟨hP _ _ h.1 rfl rfl rfl rfl, Every.written hP h.2.1, EveryAll.written hP h.2.2⟩
  | .chain p es, h | .interpolation p ts es, h | .array p es, h =>
    ⟨hP _ _ h.1 rfl rfl rfl rfl, EveryAll.written hP h.2⟩
  | .map p ks es, h => by
    refine ⟨hP _ _ h.1 rfl rfl rfl ?_, EveryAll.written hP h.2⟩
    change (ks.length == (writtenAll es).length) = (ks.length == es.length)
    rw [length_writtenAll]
  | .builtin p (.map ks) es, h => by
    refine ⟨hP _ _ h.1 rfl rfl rfl ?_, EveryAll.written hP h.2⟩
    change (ks.length == (writtenAll es).length) = (ks.length == es.length)
    rw [length_writtenAll]
  | .builtin p .array es, h | .builtin p (.pipe s o) es, h | .builtin p (.call f) es, h =>
    ⟨hP _ _ h.1 rfl rfl rfl rfl, EveryAll.written hP h.2⟩

theorem EveryAll.written {P : Expr → Prop}
    (hP : ∀ x y, P x → isPure y = isPure x → isInterpolation y = isInterpolation x →
      function? y = function? x → isPaired y = isPaired x → P y) : ∀ {es : List Expr}, EveryAll P es → EveryAll P (writtenAll es)
  | [], _ => trivial
  | _ :: _, h => ⟨Every.written hP h.1, EveryAll.written hP h.2⟩

end

end TemplateCompiler.Expr
