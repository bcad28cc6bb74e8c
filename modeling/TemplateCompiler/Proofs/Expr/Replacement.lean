import TemplateCompiler.Proofs.Expr.Children

/-!
# Which builtins are replaced

Replacing the builtins of an expression asks the factory once for each of them, and puts its answers in
their places.

* `Expr.requests` : what is asked, in the order of `Expr.postorder`;
* `Expr.Replaced bs e e'` : `e'` is `e` with its builtins replaced by the answers `bs`;
* `Expr.replaceBuiltins?_eq` : a tree without builtins is kept as it is;
* `Expr.replaceBuiltins_eq_map_requests` : replacing is asking and filling in, whatever asking is, and
  nothing is left to ask.
-/

namespace TemplateCompiler

/-- A question to a factory. -/
inductive BuiltinRequest where
  | array (count : Nat)
  | map (keys : List MapKey)
  | pipe (name : Text) (count : Nat) (range : Option Span)

def BuiltinFactory.answer {m : Type → Type} (factory : BuiltinFactory m) : BuiltinRequest → m Builtin
  | .array count => factory.array count
  | .map keys => factory.map keys
  | .pipe name count range => factory.pipe name count range

namespace Expr

/-- What is asked about a node. The piped value is the first argument of a pipe. -/
def request? : Expr → Option BuiltinRequest
  | array _ es => some (.array es.length)
  | map _ keys _ => some (.map keys)
  | pipe p _ name args => some (.pipe name (args.length + 1) p.span)
  | _ => none

mutual

/-- The nodes of a tree, each after the nodes below it. -/
def postorder : Expr → List Expr
  | e@(context _) | e@(literal ..) | e@(quote ..) => [e]
  | e@(chain _ es) | e@(array _ es) | e@(map _ _ es) | e@(interpolation _ _ es)
  | e@(builtin _ _ es) => postorderAll es ++ [e]
  | e@(conditional _ a b c) | e@(indexWrite _ a b c) => postorder a ++ (postorder b ++ postorder c) ++ [e]
  | e@(read _ a _) | e@(safeRead _ a _) | e@(not _ a) | e@(present _ a) => postorder a ++ [e]
  | e@(write _ a _ b) | e@(index _ a b) | e@(binary _ _ a b) => postorder a ++ postorder b ++ [e]
  | e@(method _ a _ es) | e@(safeMethod _ a _ es) | e@(call _ a es) | e@(pipe _ a _ es) =>
    postorder a ++ postorderAll es ++ [e]

/-- The nodes of trees one after the other. -/
def postorderAll : List Expr → List Expr
  | [] => []
  | e :: es => postorder e ++ postorderAll es

end

/-- What is asked about a tree. -/
def requests (e : Expr) : List BuiltinRequest := e.postorder.filterMap request?

/-- What is asked about trees. -/
def requestsAll (es : List Expr) : List BuiltinRequest := (postorderAll es).filterMap request?

mutual

/-- A tree with its builtins replaced. Every other node is the same over what its children became. -/
inductive Replaced : List Builtin → Expr → Expr → Prop
  | kept {bs e es} : e.isCollection = false → ReplacedAll bs e.children es →
    Replaced bs e (e.withChildren es)
  /-- The answer about a node comes after the answers about the nodes below it. -/
  | replaced {bs e es} (b : Builtin) : e.isCollection = true → ReplacedAll bs e.children es →
    Replaced (bs ++ [b]) e (.builtin e.place b es)

/-- Trees with their builtins replaced one after the other. -/
inductive ReplacedAll : List Builtin → List Expr → List Expr → Prop
  | nil : ReplacedAll [] [] []
  | cons {bs bs' e e' es es'} : Replaced bs e e' → ReplacedAll bs' es es' →
    ReplacedAll (bs ++ bs') (e :: es) (e' :: es')

end

/-! ### Requests -/

theorem postorder_eq (e : Expr) : e.postorder = postorderAll e.children ++ [e] := by
  cases e <;> simp [postorder, postorderAll, children]

theorem requests_eq (e : Expr) : e.requests = requestsAll e.children ++ e.request?.toList := by
  rw [requests, postorder_eq, List.filterMap_append]
  cases h : e.request? <;> simp [requestsAll, h]

theorem requestsAll_cons (e : Expr) (es : List Expr) :
    requestsAll (e :: es) = e.requests ++ requestsAll es := by
  rw [requestsAll, postorderAll, List.filterMap_append]
  rfl

theorem isSome_request? (e : Expr) : e.request?.isSome = e.isCollection := by
  cases e <;> rfl

/-- A tree has builtins if the root is one, or a child has. -/
theorem hasCollections_eq (e : Expr) :
    e.hasCollections = (e.isCollection || e.children.any hasCollections) := by
  have hall : ∀ es : List Expr, (nodesAll es).any isCollection = es.any hasCollections := by
    intro es
    induction es with
    | nil => rfl
    | cons e es ih => rw [nodesAll_cons, List.any_append, ih]; rfl
  change e.nodes.any isCollection = _
  rw [nodes_eq, List.any_cons, hall]

/-- A tree without builtins: none of its nodes is one. -/
theorem hasCollections_eq_false_iff {e : Expr} :
    e.hasCollections = false ↔ e.Every fun x => x.isCollection = false := by
  rw [every_iff_nodes, hasCollections, List.any_eq_false]
  exact forall₂_congr fun x _ => by rw [Bool.not_eq_true]

/-! ### Replacing one node -/

section Node

theorem isCollection_withChildren (e : Expr) (es : List Expr) :
    (e.withChildren es).isCollection = e.isCollection := by
  fun_cases withChildren e es <;> rfl

variable {m : Type → Type} [Monad m] (factory : BuiltinFactory m) {e : Expr}

theorem replaceBuiltin_of_not_isCollection (h : e.isCollection = false) :
    replaceBuiltin factory e = pure e := by
  cases e <;> first | rfl | cases h

variable [LawfulMonad m]

/-- A builtin over other parts is asked about as it was, and becomes a node over these parts. -/
theorem replaceBuiltin_withChildren {r : BuiltinRequest} (hr : e.request? = some r) {es : List Expr}
    (h : es.length = e.children.length) :
    replaceBuiltin factory (e.withChildren es) = (fun b => .builtin e.place b es) <$> factory.answer r := by
  cases e <;> cases hr
  case array | map =>
    simp only [children] at h
    simp [withChildren, replaceBuiltin, BuiltinFactory.answer, place, h]
  case pipe p a n args =>
    cases es with
    | nil => exact absurd h.symm (Nat.succ_ne_zero _)
    | cons a' args' =>
        have hlength : args'.length = args.length := Nat.succ.inj h
        simp [withChildren, replaceBuiltin, BuiltinFactory.answer, place, hlength]

/-- What becomes of a node whose parts were replaced already. -/
theorem settle_replaceBuiltin? {e : Expr} (es : Option (List Expr)) :
    settle (replaceBuiltin? factory) e (es.map e.withChildren) =
      if e.isCollection then some <$> replaceBuiltin factory ((es.map e.withChildren).getD e)
      else pure (es.map e.withChildren) := by
  have hsame : ((es.map e.withChildren).getD e).isCollection = e.isCollection := by
    cases es with
    | none => rfl
    | some es => exact isCollection_withChildren e es
  rw [settle, replaceBuiltin?, hsame]
  split <;> simp

end Node

/-! ### Trees without builtins -/

section Kept

variable {m : Type → Type} [Monad m] [LawfulMonad m] (factory : BuiltinFactory m)

theorem rebuildAllM_eq_pure {es : List Expr} (h : ∀ e ∈ es, e.replaceBuiltins factory = pure e) :
    rebuildAllM (replaceBuiltin factory) es = pure es := by
  induction es with
  | nil => rw [rebuildAllM]
  | cons e es ih =>
      obtain ⟨he, hes⟩ := List.forall_mem_cons.mp h
      rw [rebuildAllM_cons, show e.rebuildM _ = _ from he, ih hes, pure_bind, pure_bind]

/-- Nothing is asked about a tree without builtins. -/
theorem replaceBuiltins_of_every {e : Expr} (h : e.Every fun x => x.isCollection = false) :
    e.replaceBuiltins factory = pure e := by
  induction e using induct with
  | step e ih =>
      obtain ⟨hnode, hchildren⟩ := every_iff.mp h
      have hpure := rebuildAllM_eq_pure factory fun c hc => ih c hc (everyAll_iff.mp hchildren c hc)
      rw [replaceBuiltins, rebuildM_eq, hpure, pure_bind, withChildren_children,
        replaceBuiltin_of_not_isCollection factory hnode]

theorem rebuildAllM_of_not_any (es : List Expr) (h : es.any hasCollections = false) :
    rebuildAllM (replaceBuiltin factory) es = pure es := by
  refine rebuildAllM_eq_pure factory fun e he => replaceBuiltins_of_every factory ?_
  exact hasCollections_eq_false_iff.mp (Bool.eq_false_iff.mpr (List.any_eq_false.mp h e he))

theorem changeAllM?_eq {es : List Expr} (h : ∀ e ∈ es, e.replaceBuiltins? factory =
      if e.hasCollections then some <$> e.replaceBuiltins factory else pure none) :
    changeAllM? (replaceBuiltin? factory) es =
      if es.any hasCollections then some <$> rebuildAllM (replaceBuiltin factory) es else pure none := by
  induction es with
  | nil => rw [changeAllM?]; rfl
  | cons e es ih =>
      obtain ⟨he, hes⟩ := List.forall_mem_cons.mp h
      rw [changeAllM?_cons, show e.changeM? _ = _ from he, ih hes, rebuildAllM_cons, List.any_cons,
        show e.rebuildM _ = e.replaceBuiltins factory from rfl]
      -- a part without builtins is what it is replaced by
      have hkept : e.hasCollections = false → e.replaceBuiltins factory = pure e := fun hc =>
        replaceBuiltins_of_every factory (hasCollections_eq_false_iff.mp hc)
      have hkeptAll := rebuildAllM_of_not_any factory es
      cases hc : e.hasCollections <;> cases hcs : es.any hasCollections <;>
        simp [merge₂, hkept, hkeptAll, hc, hcs]

/-- A tree without builtins is kept; all others are replaced. -/
theorem replaceBuiltins?_eq (e : Expr) :
    e.replaceBuiltins? factory =
      if e.hasCollections then some <$> e.replaceBuiltins factory else pure none := by
  induction e using induct with
  | step e ih =>
      rw [replaceBuiltins?, changeM?_eq, changeAllM?_eq factory ih, replaceBuiltins, rebuildM_eq,
        hasCollections_eq e]
      simp only [settle_replaceBuiltin?]
      have hkeptAll := rebuildAllM_of_not_any factory e.children
      cases hc : e.isCollection with
      | true =>
          cases hcs : e.children.any hasCollections with
          | true => simp
          | false => simp [hkeptAll, hcs, withChildren_children]
      | false =>
          have hnode : ∀ es, replaceBuiltin factory (e.withChildren es) = pure (e.withChildren es) :=
            fun es => replaceBuiltin_of_not_isCollection factory ((isCollection_withChildren e es).trans hc)
          cases e.children.any hasCollections <;> simp [hnode]

theorem map_getD_replaceBuiltins? (e : Expr) :
    (·.getD e) <$> e.replaceBuiltins? factory = e.replaceBuiltins factory := by
  rw [replaceBuiltins?_eq]
  cases h : e.hasCollections with
  | false => simp [replaceBuiltins_of_every factory (hasCollections_eq_false_iff.mp h)]
  | true => simp

end Kept

/-! ### What is left -/

mutual

theorem Replaced.every {bs : List Builtin} : ∀ {e e' : Expr}, Replaced bs e e' →
    e'.Every fun x => x.isCollection = false
  | e, _, @Replaced.kept _ _ es h hs => by
    refine every_iff.mpr ⟨(isCollection_withChildren e es).trans h, ?_⟩
    rw [children_withChildren hs.length_eq]
    exact hs.everyAll
  | _, _, .replaced _ _ hs => ⟨rfl, hs.everyAll⟩

theorem ReplacedAll.everyAll {bs : List Builtin} : ∀ {es es' : List Expr}, ReplacedAll bs es es' →
    EveryAll (fun x => x.isCollection = false) es'
  | _, _, .nil => trivial
  | _, _, .cons h hs => ⟨h.every, hs.everyAll⟩

theorem ReplacedAll.length_eq {bs : List Builtin} : ∀ {es es' : List Expr}, ReplacedAll bs es es' →
    es'.length = es.length
  | _, _, .nil => rfl
  | _, _, .cons _ hs => congrArg (· + 1) hs.length_eq

end

/-! ### Asking -/

/-- What is done with answers need only be known for as many as there were questions. -/
theorem mapM_bind_congr {α β γ : Type} {m : Type → Type} [Monad m] [LawfulMonad m] {f : α → m β}
    {xs : List α} {g h : List β → m γ}
    (hgh : ∀ ys, ys.length = xs.length → g ys = h ys) : xs.mapM f >>= g = xs.mapM f >>= h := by
  induction xs generalizing g h with
  | nil => rw [List.mapM_nil, pure_bind, pure_bind, hgh [] rfl]
  | cons x xs ih =>
      simp only [List.mapM_cons, bind_assoc, pure_bind]
      refine bind_congr fun y => ih fun ys hys => hgh (y :: ys) (congrArg (· + 1) hys)

/-- What is made of a tree and the answers about it. -/
structure Fills (e : Expr) (fill : List Builtin → Expr) : Prop where
  replaced : ∀ bs, bs.length = e.requests.length → Replaced bs e (fill bs)
  asks : ∀ {m : Type → Type} [Monad m] [LawfulMonad m] (factory : BuiltinFactory m),
    e.replaceBuiltins factory = fill <$> e.requests.mapM factory.answer

/-- What is made of trees and the answers about them. -/
structure FillsAll (es : List Expr) (fill : List Builtin → List Expr) : Prop where
  replaced : ∀ bs, bs.length = (requestsAll es).length → ReplacedAll bs es (fill bs)
  asks : ∀ {m : Type → Type} [Monad m] [LawfulMonad m] (factory : BuiltinFactory m),
    rebuildAllM (replaceBuiltin factory) es = fill <$> (requestsAll es).mapM factory.answer

theorem FillsAll.nil : FillsAll [] fun _ => [] where
  replaced bs h := by
    rw [List.eq_nil_of_length_eq_zero h]
    exact .nil
  asks factory := by
    rw [rebuildAllM, requestsAll, postorderAll, List.filterMap_nil, List.mapM_nil, map_pure]

/-- The answers about the first tree come first. -/
theorem FillsAll.cons {e : Expr} {es : List Expr} {fill : List Builtin → Expr}
    {fillAll : List Builtin → List Expr} (h : Fills e fill) (hs : FillsAll es fillAll) :
    FillsAll (e :: es) fun bs =>
      fill (bs.take e.requests.length) :: fillAll (bs.drop e.requests.length) where
  replaced bs hbs := by
    rw [requestsAll_cons, List.length_append] at hbs
    have := ReplacedAll.cons (h.replaced (bs.take e.requests.length) (by rw [List.length_take]; omega))
      (hs.replaced (bs.drop e.requests.length) (by rw [List.length_drop]; omega))
    rwa [List.take_append_drop] at this
  asks factory := by
    rw [rebuildAllM_cons, show e.rebuildM _ = _ from h.asks factory, hs.asks factory, requestsAll_cons,
      List.mapM_append]
    simp only [map_eq_pure_bind, bind_assoc, pure_bind]
    refine mapM_bind_congr fun bs hbs => bind_congr fun bs' => ?_
    rw [List.take_left' hbs, List.drop_left' hbs]

/-- A node that is no builtin is not asked about. -/
theorem Fills.kept {e : Expr} {fillAll : List Builtin → List Expr} (h : e.isCollection = false)
    (hs : FillsAll e.children fillAll) : Fills e fun bs => e.withChildren (fillAll bs) := by
  have hr : e.requests = requestsAll e.children := by
    rw [← isSome_request?, Option.isSome_eq_false_iff, Option.isNone_iff_eq_none] at h
    rw [requests_eq, h]
    exact List.append_nil _
  refine ⟨fun bs hbs => .kept h (hs.replaced bs (hr ▸ hbs)), fun factory => ?_⟩
  rw [replaceBuiltins, rebuildM_eq, hs.asks factory, hr]
  simp only [map_eq_pure_bind, bind_assoc, pure_bind]
  exact bind_congr fun bs =>
    replaceBuiltin_of_not_isCollection factory ((isCollection_withChildren e _).trans h)

/-- A builtin is asked about after the builtins in it. -/
theorem Fills.builtin {e : Expr} {fillAll : List Builtin → List Expr} (h : e.isCollection = true)
    (hs : FillsAll e.children fillAll) :
    Fills e fun bs => .builtin e.place (bs.getLastD .array) (fillAll bs.dropLast) := by
  obtain ⟨r, hrequest⟩ := Option.isSome_iff_exists.mp ((isSome_request? e).trans h)
  have hr : e.requests = requestsAll e.children ++ [r] := by rw [requests_eq, hrequest]; rfl
  refine ⟨fun bs hbs => ?_, fun factory => ?_⟩
  · rw [hr, List.length_append] at hbs
    rcases List.eq_nil_or_concat bs with rfl | ⟨bs', b, rfl⟩
    · cases hbs
    · rw [List.length_concat] at hbs
      have hlast := Replaced.replaced b h (hs.replaced bs' (Nat.succ.inj hbs))
      simpa using hlast
  · rw [replaceBuiltins, rebuildM_eq, hs.asks factory, hr, List.mapM_append, List.mapM_cons, List.mapM_nil]
    simp only [map_eq_pure_bind, bind_assoc, pure_bind]
    refine mapM_bind_congr fun bs hbs => ?_
    rw [replaceBuiltin_withChildren factory hrequest (hs.replaced bs hbs).length_eq, map_eq_pure_bind]
    exact bind_congr fun b => by simp

theorem exists_fills (e : Expr) : ∃ fill, Fills e fill := by
  induction e using induct with
  | step e ih =>
      have hall : ∀ es : List Expr, (∀ c ∈ es, ∃ fill, Fills c fill) → ∃ fillAll, FillsAll es fillAll := by
        intro es hes
        induction es with
        | nil => exact ⟨_, .nil⟩
        | cons c es ihes =>
            obtain ⟨⟨_, hc⟩, hes⟩ := List.forall_mem_cons.mp hes
            obtain ⟨_, hs⟩ := ihes hes
            exact ⟨_, .cons hc hs⟩
      obtain ⟨_, hs⟩ := hall e.children ih
      cases h : e.isCollection with
      | false => exact ⟨_, .kept h hs⟩
      | true => exact ⟨_, .builtin h hs⟩

/-- Replacing is asking the factory about every builtin, in order, and filling its answers in, whatever
effects asking has: the first question that fails ends it, and nothing else is asked. The new tree is the
old one with its builtins replaced; it has none, and nothing is asked about it. A tree is kept itself
exactly if it has no builtin. -/
theorem replaceBuiltins_eq_map_requests (e : Expr) : ∃ fill : List Builtin → Expr,
    (∀ bs, bs.length = e.requests.length → Replaced bs e (fill bs) ∧
      ((fill bs).Every fun x => x.isCollection = false) ∧
      ∀ {m : Type → Type} [Monad m] [LawfulMonad m] (again : BuiltinFactory m),
        (fill bs).replaceBuiltins? again = pure none) ∧
    ∀ {m : Type → Type} [Monad m] [LawfulMonad m] (factory : BuiltinFactory m),
      e.replaceBuiltins factory = fill <$> e.requests.mapM factory.answer ∧
      e.replaceBuiltins factory = (·.getD e) <$> e.replaceBuiltins? factory ∧
      e.replaceBuiltins? factory =
        if e.hasCollections then (fun bs => some (fill bs)) <$> e.requests.mapM factory.answer
        else pure none := by
  obtain ⟨fill, h⟩ := exists_fills e
  refine ⟨fill, fun bs hbs => ?_, fun factory => ⟨h.asks factory, ?_, ?_⟩⟩
  · have hreplaced := h.replaced bs hbs
    refine ⟨hreplaced, hreplaced.every, fun again => ?_⟩
    rw [replaceBuiltins?_eq, hasCollections_eq_false_iff.mpr hreplaced.every]
    rfl
  · exact (map_getD_replaceBuiltins? factory e).symm
  · rw [replaceBuiltins?_eq, h.asks factory, Functor.map_map]

end Expr

namespace Sample

/-- The expression `[a, {k: b | p:1}]`. -/
def nested : Expr :=
  let p : Place := ⟨none, none⟩
  .array p [.read p (.context p) "a", .map p [⟨"k", false⟩]
    [.pipe p (.read p (.context p) "b") "p" [.literal p (.int 1)]]]

def recording : BuiltinFactory (StateM (List BuiltinRequest)) where
  array count := do
    modify (· ++ [.array count])
    return .array
  map keys := do
    modify (· ++ [.map keys])
    return .map keys
  pipe name count range := do
    let before ← get
    set (before ++ [.pipe name count range])
    return .pipe before.length 0

/-- The pipe is asked about first and the array last. -/
theorem replaceBuiltins_nested : ∃ fill : List Builtin → Expr,
    Expr.Replaced [.pipe 0 0, .map [⟨"k", false⟩], .array] nested
      (fill [.pipe 0 0, .map [⟨"k", false⟩], .array]) ∧
    nested.replaceBuiltins recording = fill <$>
      [BuiltinRequest.pipe "p" 2 none, .map [⟨"k", false⟩], .array 2].mapM recording.answer := by
  obtain ⟨fill, hfill, hasks⟩ := Expr.replaceBuiltins_eq_map_requests nested
  exact ⟨fill, (hfill _ rfl).1, (hasks recording).1⟩

end Sample

end TemplateCompiler
