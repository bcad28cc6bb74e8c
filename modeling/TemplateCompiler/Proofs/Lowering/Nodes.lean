import TemplateCompiler.Proofs.Expr.Spines
import TemplateCompiler.Proofs.Lowering.Soundness

/-!
# The code of nodes

`Expr.spine` makes the code of an access together with the guards that belong around it. Without the guards, each
node has code of its own over that of its children (`Expr.nodeCode`), and the plain code of a spine is that of a
node (`Expr.plain_eq_nodeCode`), so that what is to be shown of the nodes is shown once for each kind of them.
-/

namespace TemplateCompiler

/-- What is no access needs no guards. -/
theorem Spine.lower_leaf {σ : Type} (code : Lower σ Term) : (Spine.leaf code).lower = code := by
  simp only [Spine.lower, Spine.made, Spine.leaf, Spine.guarded, Lower.fresh, Lower.code, bind_assoc, pure_bind,
    bind_pure]

namespace Expr

variable {σ : Type} (host : Host σ)

/-- The code of expressions from left to right, given that of each. -/
def codes (child : Nat → Expr → Lower σ Lowered) : Nat → List Expr → Lower σ (List Term)
  | _, [] => return []
  | i, e :: es => do
    let t ← (child i e).code
    return t :: (← codes child (i + 1) es)

/-- The code of a node without guards, given that of its children. -/
def nodeCode (child : Nat → Expr → Lower σ Lowered) : Expr → Lower σ Lowered
  | context _ => contextCode host
  | e@(chain ..) => .fresh do throw (.illegal (.notStatement (← Lower.printed e)))
  | conditional _ c y n => .fresh do
    let c ← (child 0 c).code
    let y ← (child 1 y).code
    let n ← (child 2 n).code
    return .choose c y (some n)
  | read _ r name | safeRead _ r name => readCode host name (child 0 r)
  | write place r name v => .fresh do
    let target ← targetCode host place name v (child 0 r)
    return .set target (← (child 1 v).code)
  | index _ o k => .fresh do
    let o ← child 0 o
    return .key {} o.code (← (child 1 k).code)
  | indexWrite _ o k v => .fresh do
    let o ← (child 0 o).code
    let k ← (child 1 k).code
    return .set (.key {} o k) (← (child 2 v).code)
  | method place r name args | safeMethod place r name args =>
    (methodCode host place r name (codes child 1 args) (child 0 r)).fresh
  | call _ f args => .fresh do
    let args ← codes child 1 args
    return .apply (← (child 0 f).code) args
  | binary _ o l r => .fresh <|
    match sourceOperator? o with
    | none => throw (.illegal (.unsupportedOperator o))
    | some op => do
      let l ← (child 0 l).code
      return .operation op l (← (child 1 r).code)
  | not _ e => .fresh do return .negate (← (child 0 e).code)
  | present _ e => .fresh do return .assertPresent (← (child 0 e).code)
  | literal _ v => .fresh do return .ofValue v
  | array .. => .fresh (throw (.illegal .unconvertedArray))
  | map .. => .fresh (throw (.illegal .unconvertedMap))
  | interpolation place ts es => .fresh do
    if ts.length ≠ es.length + 1 then
      throw (.illegal (.interpolationShape es.length ts.length))
    let values ← codes child 0 es
    match host.interpolate (.ofNat es.length :: interpolationArgs ts values) with
    | .ok t => return t
    | .error f => throw (f.locateRange place.span)
  | pipe _ _ name _ => .fresh (throw (.illegal (.unconvertedPipe name)))
  | quote place _ text location => .fresh (throw (.inRange place.span (.quote text location)))
  | builtin _ kind args => .fresh do Lower.onHostE (host.builtin kind (← codes child 0 args))

variable {host}

theorem codes_congr {f g : Nat → Expr → Lower σ Lowered} {es : List Expr} : ∀ {n : Nat},
    (∀ i c, es[i]? = some c → f (n + i) c = g (n + i) c) → codes f n es = codes g n es := by
  induction es with
  | nil => exact fun _ => rfl
  | cons e es ih =>
      intro n h
      have hes : codes f (n + 1) es = codes g (n + 1) es := ih fun i c hc => by
        rw [Nat.add_right_comm, Nat.add_assoc]
        exact h (i + 1) c hc
      have he : f n e = g n e := h 0 e rfl
      rw [codes, codes, he, hes]

theorem nodeCode_congr {f g : Nat → Expr → Lower σ Lowered} {e : Expr}
    (h : ∀ i c, e.children[i]? = some c → f i c = g i c) : e.nodeCode host f = e.nodeCode host g := by
  have hsucc {c : Expr} {es : List Expr} (hes : e.children = c :: es) : codes f 1 es = codes g 1 es :=
    codes_congr fun i x hx => h (1 + i) x (by rw [hes, Nat.add_comm, List.getElem?_cons_succ, hx])
  have hall {es : List Expr} (hes : e.children = es) : codes f 0 es = codes g 0 es :=
    codes_congr fun i x hx => h (0 + i) x (by rw [hes, Nat.zero_add, hx])
  cases e with
  | context | chain | literal | array | map | pipe | quote => rfl
  | conditional p a b c | indexWrite p a b c =>
      rw [nodeCode, nodeCode, h 0 a rfl, h 1 b rfl, h 2 c rfl]
  | read p r name | safeRead p r name | not p r | present p r => rw [nodeCode, nodeCode, h 0 r rfl]
  | write p a name b | index p a b | binary p o a b => rw [nodeCode, nodeCode, h 0 a rfl, h 1 b rfl]
  | method p r name args | safeMethod p r name args | call p r args =>
      rw [nodeCode, nodeCode, h 0 r rfl, hsucc rfl]
  | interpolation p ts es | builtin p k es =>
      have hes : codes f 0 es = codes g 0 es := hall rfl
      rw [nodeCode, nodeCode, hes]

/-- The code of a child: of the receiver of an access without guards, and of any other child with them. -/
def childCode (host : Host σ) (e : Expr) (pins : Pins) (i : Nat) (c : Expr) : Lower σ Lowered :=
  if i = 0 ∧ e.receiver?.isSome then
    if e.isSafe then (c.spine host).pinned pins else (c.spine host).plain pins
  else (c.spine host).made

theorem codes_eq_lowerAll {f : Nat → Expr → Lower σ Lowered} {es : List Expr} : ∀ {n : Nat},
    (∀ i c, f (n + i) c = (c.spine host).made) → codes f n es = lowerAll host es := by
  induction es with
  | nil => exact fun _ => by rw [codes, lowerAll]
  | cons e es ih =>
      intro n h
      have hes : codes f (n + 1) es = lowerAll host es := ih fun i c => by
        rw [Nat.add_right_comm, Nat.add_assoc]
        exact h (i + 1) c
      have he : f n e = (e.spine host).made := h 0 e
      rw [codes, lowerAll, he, hes]
      rfl

/-- The plain code of an access is the code of the node, over the receiver without guards. -/
theorem plain_eq_nodeCode (e : Expr) (pins : Pins) :
    (e.spine host).plain pins = e.nodeCode host (e.childCode host pins) := by
  have hargs {es : List Expr} : codes (e.childCode host pins) 1 es = lowerAll host es :=
    codes_eq_lowerAll fun i c => if_neg fun h => absurd h.1 (by omega)
  have hall {es : List Expr} (h : e.receiver? = none) :
      codes (e.childCode host pins) 0 es = lowerAll host es :=
    codes_eq_lowerAll fun i c => if_neg fun hi => by rw [h] at hi; exact absurd hi.2 Bool.false_ne_true
  cases e with
  | method | safeMethod | call =>
      rw [spine, nodeCode, hargs]
      rfl
  | interpolation | builtin =>
      rw [spine, nodeCode, hall rfl]
      rfl
  | _ =>
      rw [spine]
      rfl

/-- The guards of an access are those of its receiver, and the receiver itself if the access is safe. -/
theorem guards_of_receiver? {e r : Expr} (h : e.receiver? = some r) :
    (e.spine host).guards =
      (r.spine host).guards ++ if e.isSafe then [⟨(r.spine host).plain, r.needsTemporary⟩] else [] := by
  rw [spine_guards, spine_guards, safeReceivers_of_receiver? h, List.map_append]
  split <;> rfl

end Expr

end TemplateCompiler
