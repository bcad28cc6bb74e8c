import TemplateCompiler.Proofs.Expr.Receivers

/-!
# Effects of expressions

An effect is a call or a write. `Effect.source k e` is how many there are in an expression.

A safe access whose receiver needs no temporary has the code of the receiver twice: once under the
guard, and once more in the access. `Effect.again k e` is how many effects a node repeats in this way,
and `Effect.copies k e` how many all nodes of a tree do. So code has `source k e + copies k e` effects
(`guarded_add_plain`), where

* `k.plain e` are those of the plain code of `e`, from `e` down to the nearest receiver that a
  temporary holds;
* `k.guarded e` are those of the guards before it.
-/

namespace TemplateCompiler

/-- What can be done only once. -/
inductive Effect where
  | call
  | write
  deriving DecidableEq, Repr

namespace Effect

open TemplateCompiler.Expr (isErasure)

/-- Whether a node has an effect of its own. A call that erases a type is none. -/
def isSource : Effect → Expr → Bool
  | call, .method _ r name _ | call, .safeMethod _ r name _ => !isErasure r name
  | call, .call .. => true
  | write, .write .. | write, .indexWrite .. => true
  | _, _ => false

def source (k : Effect) (e : Expr) : Nat := (e.visited fun _ => true).countP k.isSource

mutual

/-- The effects of the code of an expression whose spine is not guarded. -/
def plain (k : Effect) : Expr → Nat
  | .context _ | .literal .. | .quote .. => 0
  | .read _ r _ => plain k r
  | .safeRead _ r _ => if r.needsTemporary then 0 else plain k r
  | .index _ o i => plain k o + (guarded k i + plain k i)
  | e@(.method _ r _ args) => (k.isSource e).toNat + plain k r + loweredAll k args
  | e@(.safeMethod _ r _ args) =>
    (k.isSource e).toNat + (if r.needsTemporary then 0 else plain k r) + loweredAll k args
  | e@(.write _ a _ b) =>
    (k.isSource e).toNat + (guarded k a + plain k a) + (guarded k b + plain k b)
  | e@(.indexWrite _ a b c) =>
    (k.isSource e).toNat + (guarded k a + plain k a) + (guarded k b + plain k b)
      + (guarded k c + plain k c)
  | e@(.call _ a args) => (k.isSource e).toNat + (guarded k a + plain k a) + loweredAll k args
  | .conditional _ a b c =>
    (guarded k a + plain k a) + (guarded k b + plain k b) + (guarded k c + plain k c)
  | .binary _ _ a b => (guarded k a + plain k a) + (guarded k b + plain k b)
  | .not _ a | .present _ a => guarded k a + plain k a
  | .pipe _ a _ args => (guarded k a + plain k a) + loweredAll k args
  | .chain _ es | .array _ es | .map _ _ es | .interpolation _ _ es | .builtin _ _ es =>
    loweredAll k es

def guarded (k : Effect) : Expr → Nat
  | .read _ r _ | .index _ r _ | .method _ r _ _ => guarded k r
  | .safeRead _ r _ | .safeMethod _ r _ _ => guarded k r + plain k r
  | _ => 0

/-- The effects of the code of several expressions. -/
def loweredAll (k : Effect) : List Expr → Nat
  | [] => 0
  | e :: es => (guarded k e + plain k e) + loweredAll k es

end

def again (k : Effect) : Expr → Nat
  | .safeRead _ r _ | .safeMethod _ r _ _ => if r.needsTemporary then 0 else k.plain r
  | _ => 0

/-- The sum of a number for each of several expressions. -/
def total (f : Expr → Nat) : List Expr → Nat
  | [] => 0
  | e :: es => f e + total f es

theorem total_append (f : Expr → Nat) (es es' : List Expr) :
    total f (es ++ es') = total f es + total f es' := by
  induction es with
  | nil => simp [total]
  | cons e es ih => simp [total, ih, Nat.add_assoc]

theorem total_eq_zero {f : Expr → Nat} {es : List Expr} : total f es = 0 ↔ ∀ e ∈ es, f e = 0 := by
  induction es with
  | nil => simp [total]
  | cons e es ih => simp [total, ih]

/-- How many effects the code of an expression repeats. -/
def copies (k : Effect) (e : Expr) : Nat := total k.again (e.visited fun _ => true)

theorem loweredAll_append (k : Effect) (es es' : List Expr) :
    k.loweredAll (es ++ es') = k.loweredAll es + k.loweredAll es' := by
  induction es with
  | nil => simp [loweredAll]
  | cons e es ih => simp [loweredAll, ih, Nat.add_assoc]

/-! ### All effects of code -/

section Cost

variable (k : Effect)

/-- The effects of nodes, with those that they repeat. -/
def cost (es : List Expr) : Nat := es.countP k.isSource + total k.again es

theorem cost_cons (e : Expr) (es : List Expr) :
    k.cost (e :: es) = (k.isSource e).toNat + k.again e + k.cost es := by
  cases h : k.isSource e <;> simp [cost, total, h] <;> omega

theorem cost_append (es es' : List Expr) : k.cost (es ++ es') = k.cost es + k.cost es' := by
  simp only [cost, List.countP_append, total_append]
  omega

mutual

theorem guarded_add_plain : ∀ e : Expr,
    k.guarded e + k.plain e = k.cost (e.visited fun _ => true)
  | .context _ | .literal .. | .quote .. => by cases k <;> rfl
  | .read _ a _ | .not _ a | .present _ a => by
    have ha := guarded_add_plain a
    cases k <;> simp [guarded, plain, Expr.visited, cost_cons, again, isSource] <;> omega
  | .safeRead _ a _ => by
    have ha := guarded_add_plain a
    cases k <;> simp [guarded, plain, Expr.visited, cost_cons, again, isSource] <;> omega
  | .index _ a b | .binary _ _ a b => by
    have ha := guarded_add_plain a
    have hb := guarded_add_plain b
    cases k <;> simp [guarded, plain, Expr.visited, cost_cons, cost_append, again, isSource] <;> omega
  | .write _ a _ b => by
    have ha := guarded_add_plain a
    have hb := guarded_add_plain b
    simp [guarded, plain, Expr.visited, cost_cons, cost_append, again]
    omega
  | .conditional _ a b c | .indexWrite _ a b c => by
    have ha := guarded_add_plain a
    have hb := guarded_add_plain b
    have hc := guarded_add_plain c
    cases k <;> simp [guarded, plain, Expr.visited, cost_cons, cost_append, again, isSource] <;> omega
  | .method _ a _ es | .safeMethod _ a _ es | .call _ a es => by
    have ha := guarded_add_plain a
    have hes := loweredAll_eq es
    simp [guarded, plain, Expr.visited, cost_cons, cost_append, again]
    omega
  | .pipe _ a _ es => by
    have ha := guarded_add_plain a
    have hes := loweredAll_eq es
    cases k <;> simp [guarded, plain, Expr.visited, cost_cons, cost_append, again, isSource] <;> omega
  | .chain _ es | .array _ es | .map _ _ es | .interpolation _ _ es | .builtin _ _ es => by
    have hes := loweredAll_eq es
    cases k <;> simp [guarded, plain, Expr.visited, cost_cons, again, isSource] <;> omega

theorem loweredAll_eq : ∀ es : List Expr,
    k.loweredAll es = k.cost (Expr.visitedAll (fun _ => true) es)
  | [] => rfl
  | e :: es => by
    have he := guarded_add_plain e
    have hes := loweredAll_eq es
    simp only [loweredAll, Expr.visitedAll, cost_append]
    omega

end

theorem guarded_eq_total : ∀ e : Expr, k.guarded e = total k.plain e.safeReceivers
  | .context _ | .chain .. | .conditional .. | .write .. | .indexWrite .. | .call .. | .binary ..
  | .not .. | .present .. | .literal .. | .array .. | .map .. | .interpolation .. | .pipe ..
  | .quote .. | .builtin .. => rfl
  | .read _ r _ | .index _ r _ | .method _ r _ _ => guarded_eq_total r
  | .safeRead _ r _ | .safeMethod _ r _ _ => by
    simp [guarded, Expr.safeReceivers, guarded_eq_total r, total_append, total]

end Cost

/-! ### Written out collections -/

section Written

open TemplateCompiler.Expr (written writtenAll needsTemporary_written)

variable (k : Effect)

theorem isSource_written (e : Expr) : k.isSource e.written = k.isSource e := by
  cases e with
  | method p r name args | safeMethod p r name args =>
      cases k with
      | call => exact congrArg Bool.not (Expr.isErasure_written r name)
      | write => rfl
  | _ => cases k <;> rfl

mutual

theorem plain_written : ∀ e : Expr, k.plain e.written = k.plain e
  | .context _ | .literal .. | .quote .. => rfl
  | .read _ a _ => plain_written a
  | .safeRead p a name => by
    change k.plain (.safeRead p a.written name) = _
    simp only [plain, needsTemporary_written, plain_written a]
  | .index p a b => by
    change k.plain (.index p a.written b.written) = _
    simp only [plain, plain_written a, guarded_written b, plain_written b]
  | .method p a name es => by
    have hsource := isSource_written k (.method p a name es)
    change k.isSource (.method p a.written name (writtenAll es)) = _ at hsource
    change k.plain (.method p a.written name (writtenAll es)) = _
    simp only [plain, hsource, plain_written a, loweredAll_written es]
  | .safeMethod p a name es => by
    have hsource := isSource_written k (.safeMethod p a name es)
    change k.isSource (.safeMethod p a.written name (writtenAll es)) = _ at hsource
    change k.plain (.safeMethod p a.written name (writtenAll es)) = _
    simp only [plain, hsource, needsTemporary_written, plain_written a, loweredAll_written es]
  | .write p a name b => by
    have hsource := isSource_written k (.write p a name b)
    change k.isSource (.write p a.written name b.written) = _ at hsource
    change k.plain (.write p a.written name b.written) = _
    simp only [plain, hsource, guarded_written a, plain_written a, guarded_written b, plain_written b]
  | .indexWrite p a b c => by
    have hsource := isSource_written k (.indexWrite p a b c)
    change k.isSource (.indexWrite p a.written b.written c.written) = _ at hsource
    change k.plain (.indexWrite p a.written b.written c.written) = _
    simp only [plain, hsource, guarded_written a, plain_written a, guarded_written b, plain_written b,
      guarded_written c, plain_written c]
  | .call p a es => by
    have hsource := isSource_written k (.call p a es)
    change k.isSource (.call p a.written (writtenAll es)) = _ at hsource
    change k.plain (.call p a.written (writtenAll es)) = _
    simp only [plain, hsource, guarded_written a, plain_written a, loweredAll_written es]
  | .conditional p a b c => by
    change k.plain (.conditional p a.written b.written c.written) = _
    simp only [plain, guarded_written a, plain_written a, guarded_written b, plain_written b,
      guarded_written c, plain_written c]
  | .binary p o a b => by
    change k.plain (.binary p o a.written b.written) = _
    simp only [plain, guarded_written a, plain_written a, guarded_written b, plain_written b]
  | .not _ a | .present _ a => by
    change k.guarded a.written + k.plain a.written = k.guarded a + k.plain a
    rw [guarded_written a, plain_written a]
  | .pipe p a name es => by
    change k.plain (.pipe p a.written name (writtenAll es)) = _
    simp only [plain, guarded_written a, plain_written a, loweredAll_written es]
  | .chain _ es | .array _ es | .map _ _ es | .interpolation _ _ es | .builtin _ _ es =>
    loweredAll_written es

theorem guarded_written : ∀ e : Expr, k.guarded e.written = k.guarded e
  | .context _ | .chain .. | .conditional .. | .write .. | .indexWrite .. | .call .. | .binary ..
  | .not .. | .present .. | .literal .. | .array .. | .map .. | .interpolation .. | .pipe ..
  | .quote .. | .builtin .. => rfl
  | .read _ r _ | .index _ r _ | .method _ r _ _ => guarded_written r
  | .safeRead _ r _ | .safeMethod _ r _ _ => by
    change k.guarded r.written + k.plain r.written = _
    rw [guarded_written r, plain_written r, guarded]

theorem loweredAll_written : ∀ es : List Expr, k.loweredAll (writtenAll es) = k.loweredAll es
  | [] => rfl
  | e :: es => by
    change (k.guarded e.written + k.plain e.written) + k.loweredAll (writtenAll es) = _
    rw [guarded_written e, plain_written e, loweredAll_written es, loweredAll]

end

end Written

end Effect

end TemplateCompiler
