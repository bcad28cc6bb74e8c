import TemplateCompiler.Proofs.Lowering.Derivation
import TemplateCompiler.Proofs.Code.Nodes
import TemplateCompiler.Lowering.Binding

/-!
# What expressions and code mean

An `Interpretation` gives a meaning to what both have in common: variables, literals, reads, calls and
operators, all of them pure. Errors are values of any type.

* `I.run t` : generated code, with a store for the variables that statements have declared;
* `I.spine w e` : an expression in the surroundings `w`. A safe access whose receiver is null cuts its
  whole spine short, which is the result `none`;
* `I.meaning w e` : the value of an expression, null if it was cut short.

Members are read when their value is needed, not before (`Reference`): a call `r.name(…)` is a call of a
method of `r` also if the member stands in parentheses. In the same way the context is computed when its
value is needed (`Referent`): a member of it that is a local does without.
-/

namespace TemplateCompiler

/-- A value, or a member of a value that was not read yet. -/
inductive Reference (V : Type) where
  | value (v : V)
  | member (receiver : V) (name : Text)

/-- What an expression refers to: the component context itself, or what code can refer to. -/
inductive Referent (V : Type) where
  | context
  | reference (r : Reference V)

/-- A pure interpretation with values in `V` and errors in `ε`. -/
structure Interpretation (V ε : Type) where
  var : Text → Except ε V
  literal : Primitive → V
  array : List V → V
  map : List (MapKey × V) → V
  /-- Functions, and symbols of other modules. -/
  symbol : Term → Except ε V
  read : V → Text → Except ε V
  key : V → V → Except ε V
  method : V → Text → List V → Except ε V
  call : V → List V → Except ε V
  isTrue : V → Bool
  /-- What an operator gives if its left operand is enough to tell. -/
  decided : Operator → V → Option V
  operate : Operator → V → V → Except ε V
  negate : V → Except ε V
  present : V → Except ε V
  /-- The error of code that is not straight-line code over declared variables. -/
  stuck : ε

/-- What an expression stands in: the code for the context and the locals by name. -/
structure Ambient where
  context : Term
  locals : Text → Option Found

/-- What a member `name` of a receiver stands for, if it is a local; only the context has locals. -/
def Ambient.local? {V : Type} (w : Ambient) : Referent V → (name : Text) → Option Found
  | .context, name => w.locals name
  | .reference _, _ => none

/-- The values of declared variables. -/
abbrev Store (V : Type) := Text → Option V

namespace Interpretation

variable {V ε : Type} (I : Interpretation V ε)

def null : V := I.literal .null

def get : Reference V → Except ε V
  | .value v => .ok v
  | .member v name => I.read v name

def invoke : Reference V → List V → Except ε V
  | .value f, args => I.call f args
  | .member v name, args => I.method v name args

/-- What an operator gives for a left operand and a right one, which may not be needed. -/
def combine (op : Operator) (left : V) (right : Except ε V) : Except ε V :=
  match I.decided op left with
  | some v => .ok v
  | none => right >>= I.operate op left

def isNull (v : V) : Except ε Bool := (I.combine .equals v (.ok I.null)).map I.isTrue

/-! ### Code -/

def assign (name : Text) (v : V) : StateT (Store V) (Except ε) Unit := fun s =>
  if (s name).isSome then .ok ((), fun n => if n = name then some v else s n) else .error I.stuck

def declare (name : Text) (v : V) : StateT (Store V) (Except ε) Unit := fun s =>
  .ok ((), fun n => if n = name then some v else s n)

/-- The value of a variable: that in the store, if it is declared. -/
def readVariable (name : Text) : StateT (Store V) (Except ε) V := fun s =>
  match s name with
  | some v => .ok (v, s)
  | none => (I.var name).map (·, s)

mutual

def run : Term → StateT (Store V) (Except ε) (Reference V)
  | .var _ name => return .value (← I.readVariable name)
  | .lit _ v => return .value (I.literal v)
  | .array _ ts => return .value (I.array (← runAll ts))
  | .map _ es => return .value (I.map (← runEntries es))
  | .prop _ r name => return .member (← I.get (← run r)) name
  | .key _ r i => do
    let r ← I.get (← run r)
    return .value (← I.key r (← I.get (← run i)))
  | .call _ f args _ => do
    let f ← run f
    return .value (← I.invoke f (← runAll args))
  | .binary _ op l r =>
    match op.assigned? l with
    | some name => do
      let v ← I.get (← run r)
      I.assign name v
      return .value v
    | none => do
      let v ← I.get (← run l)
      match I.decided op v with
      | some u => return .value u
      | none => return .value (← I.operate op v (← I.get (← run r)))
  | .not _ t => return .value (← I.negate (← I.get (← run t)))
  | .present _ t => return .value (← I.present (← I.get (← run t)))
  | .cast _ t => return .value (← I.get (← run t))
  | .cond _ c yes none => do
    if I.isTrue (← I.get (← run c)) then return .value (← I.get (← run yes))
    else return .value I.null
  | .cond _ c yes (some no) => do
    if I.isTrue (← I.get (← run c)) then return .value (← I.get (← run yes))
    else return .value (← I.get (← run no))
  | .pooled _ t => run t
  | t@(.external ..) | t@(.function ..) => return .value (← I.symbol t)

/-- The values of terms from left to right. -/
def runAll : List Term → StateT (Store V) (Except ε) (List V)
  | [] => return []
  | t :: ts => do
    let v ← I.get (← run t)
    return v :: (← runAll ts)

/-- The values of map entries from left to right. -/
def runEntries : List (MapKey × Term) → StateT (Store V) (Except ε) (List (MapKey × V))
  | [] => return []
  | (k, t) :: es => do
    let v ← I.get (← run t)
    return (k, v) :: (← runEntries es)

end

attribute [simp] run runAll runEntries

def eval (t : Term) : StateT (Store V) (Except ε) V := do I.get (← I.run t)

/-- Straight-line code: declarations and terms as statements. -/
def exec : List Stmt → StateT (Store V) (Except ε) Unit
  | [] => return ()
  | .declare _ _ name none :: ss => do
    declare name I.null
    exec ss
  | .declare _ _ name (some t) :: ss => do
    declare name (← I.eval t)
    exec ss
  | .expr _ t :: ss => do
    let _ ← I.eval t
    exec ss
  | _ => throw I.stuck

/-- The value of a property: its statements are run from left to right, with nothing declared at the
start, and then its value is computed. -/
def propertyValue (code : PropertyCode) : Except ε V :=
  (do I.exec code.statements; I.eval code.value).run' fun _ => none

/-- What code refers to that has no declared variables. -/
def constant (t : Term) : Except ε (Reference V) := (I.run t).run' fun _ => none

/-! ### Code in terms of values -/

section Lift

variable {σ α β : Type}

theorem liftM_ok (a : α) : (liftM (.ok a : Except ε α) : StateT σ (Except ε) α) = pure a := rfl

theorem liftM_map (f : α → β) (r : Except ε α) :
    (liftM (r.map f) : StateT σ (Except ε) β) = liftM r >>= fun a => pure (f a) := by
  cases r <;> rfl

theorem except_bind (a : α) (f : α → Except ε β) : (.ok a : Except ε α) >>= f = f a := rfl

end Lift

theorem run_guardCode (g t : Term) : I.run (Answers.guardCode g t) = do
    let v ← I.eval g
    if ← liftM (I.isNull v) then return .value I.null else return .value (← I.eval t) := by
  unfold Answers.guardCode Term.choose Term.isBlank Term.operation Term.null Term.ofValue
  simp only [run, Operator.assigned?, eval, bind_assoc, pure_bind, isNull, combine, liftM_map]
  congr
  funext x
  congr
  funext v
  cases I.decided .equals v with
  | some u => rfl
  | none =>
      simp only [get, null, liftM_ok, except_bind, bind_assoc, pure_bind]

/-- An assignment gives what is assigned. -/
theorem eval_set_ofVar (x : Text) (t : Term) : I.eval (.set (.ofVar x) t) = do
    let v ← I.eval t
    I.assign x v
    return v := by
  unfold Term.set Term.operation Term.ofVar
  simp only [eval, run, Operator.assigned?, bind_assoc, pure_bind]
  rfl

theorem eval_ofValue (v : Primitive) : I.eval (.ofValue v) = pure (I.literal v) := by
  unfold eval Term.ofValue
  rw [run]
  rfl

theorem run_prop (note : Note) (t : Term) (name : Text) :
    I.run (.prop note t name) = do return .member (← I.eval t) name := by
  simp only [run, eval, bind_assoc]

theorem run_key (note : Note) (t i : Term) : I.run (.key note t i) = do
    let v ← I.eval t
    let k ← I.eval i
    return .value (← I.key v k) := by
  simp only [run, eval, bind_assoc]

theorem run_apply (f : Term) (args : List Term) : I.run (.apply f args) = do
    let f ← I.run f
    let vs ← I.runAll args
    return .value (← I.invoke f vs) := by
  unfold Term.apply
  rw [run]

theorem run_applyMethod (t : Term) (name : Text) (args : List Term) :
    I.run (.applyMethod t name args) = do
      let v ← I.eval t
      let vs ← I.runAll args
      return .value (← I.method v name vs) := by
  unfold Term.applyMethod
  simp only [run, eval, bind_assoc, pure_bind, invoke]

theorem run_operation {op : Operator} (hop : op ≠ .assign) (l r : Term) :
    I.run (.operation op l r) = do
      let v ← I.eval l
      match I.decided op v with
      | some u => return .value u
      | none => return .value (← I.operate op v (← I.eval r)) := by
  unfold Term.operation
  simp only [run, Operator.assigned?_of_ne hop, eval, bind_assoc]

theorem run_choose (c yes no : Term) : I.run (.choose c yes (some no)) = do
    if I.isTrue (← I.eval c) then return .value (← I.eval yes)
    else return .value (← I.eval no) := by
  unfold Term.choose
  simp only [run, eval, bind_assoc]

theorem run_negate (t : Term) :
    I.run (.negate t) = do return .value (← I.negate (← I.eval t)) := by
  unfold Term.negate
  simp only [run, eval, bind_assoc]

theorem run_assertPresent (t : Term) :
    I.run (.assertPresent t) = do return .value (← I.present (← I.eval t)) := by
  unfold Term.assertPresent
  simp only [run, eval, bind_assoc]

theorem run_erased (t : Term) : I.run (.erased t) = do return .value (← I.eval t) := by
  unfold Term.erased
  simp only [run, eval, bind_assoc]

theorem runAll_cons (t : Term) (ts : List Term) : I.runAll (t :: ts) = do
    let v ← I.eval t
    return v :: (← I.runAll ts) := by
  simp only [runAll, eval, bind_assoc]

theorem runEntries_cons (k : MapKey) (t : Term) (es : List (MapKey × Term)) :
    I.runEntries ((k, t) :: es) = do
      let v ← I.eval t
      return (k, v) :: (← I.runEntries es) := by
  simp only [runEntries, eval, bind_assoc]

/-! ### Expressions -/

/-- What a receiver refers to is passed on, unless its spine was cut short. -/
def after (receiver : Except ε (Option (Referent V)))
    (next : Referent V → Except ε (Option (Referent V))) : Except ε (Option (Referent V)) := do
  match ← receiver with
  | some x => next x
  | none => return none

def ending (v : Except ε V) : Except ε (Option (Referent V)) :=
  do return some (.reference (.value (← v)))

variable (w : Ambient)

def referred : Referent V → Except ε (Reference V)
  | .context => I.constant w.context
  | .reference r => .ok r

def value (x : Referent V) : Except ε V := I.referred w x >>= I.get

def localReferent : Found → Except ε (Referent V)
  | .context => .ok .context
  | .term t => do return .reference (← I.constant t)

def member (receiver : Referent V) (name : Text) : Except ε (Referent V) :=
  match w.local? receiver name with
  | some found => I.localReferent found
  | none => do return .reference (.member (← I.value w receiver) name)

def callMember (receiver : Referent V) (name : Text) (args : Except ε (List V)) : Except ε V :=
  match w.local? receiver name with
  | some found => do
    let f ← I.localReferent found >>= I.referred w
    I.invoke f (← args)
  | none => do
    let v ← I.value w receiver
    I.method v name (← args)

/-- What a receiver refers to is passed on unless its value is null, which cuts the spine short. -/
def unlessNull (receiver : Except ε (Option (Referent V)))
    (next : Referent V → Except ε (Option (Referent V))) : Except ε (Option (Referent V)) :=
  after receiver fun x => do if ← I.isNull (← I.value w x) then return none else next x

/-- What an expression with the given spine refers to. It is a member only if the spine has no safe
accesses: a choice between null and a member is a value. -/
def settled (unguarded : Bool) (spine : Except ε (Option (Referent V))) :
    Except ε (Reference V) := do
  match ← spine with
  | some x => if unguarded then I.referred w x else return .value (← I.value w x)
  | none => return .value I.null

def valueOf (spine : Except ε (Option (Referent V))) : Except ε V := do
  match ← spine with
  | some x => I.value w x
  | none => return I.null

mutual

/-- What an expression refers to, or `none` if its spine was cut short. -/
def spine : Expr → Except ε (Option (Referent V))
  | .context _ => return some .context
  | .read _ r name => after (spine r) fun x => return some (← I.member w x name)
  | .safeRead _ r name => I.unlessNull w (spine r) fun x => return some (← I.member w x name)
  | .index _ o k => after (spine o) fun x => ending do
    let v ← I.value w x
    I.key v (← I.valueOf w (spine k))
  | .method _ r name args =>
    if Expr.isErasure r name then ending do return (← values args).headD I.null
    else after (spine r) fun x => ending (I.callMember w x name (values args))
  | .safeMethod _ r name args => I.unlessNull w (spine r) fun x =>
    if Expr.isErasure r name then ending do return (← values args).headD I.null
    else ending (I.callMember w x name (values args))
  | .call _ f args => ending do
    let f ← I.settled w f.safeReceivers.isEmpty (spine f)
    I.invoke f (← values args)
  | .conditional _ c y n => ending do
    if I.isTrue (← I.valueOf w (spine c)) then I.valueOf w (spine y) else I.valueOf w (spine n)
  | .binary _ o l r => ending do
    match sourceOperator? o with
    | some op => I.combine op (← I.valueOf w (spine l)) (I.valueOf w (spine r))
    | none => throw I.stuck
  | .not _ e => ending do I.negate (← I.valueOf w (spine e))
  | .present _ e => ending do I.present (← I.valueOf w (spine e))
  | .literal _ v => ending (.ok (I.literal v))
  | .array _ es => ending do return I.array (← values es)
  | .map _ ks es => ending do return I.map (← entries ks es)
  | .builtin _ .array es => ending do return I.array (← values es)
  | .builtin _ (.map ks) es => ending do return I.map (← entries ks es)
  | .builtin _ (.pipe slot offset) es => ending do
    return I.array (I.literal (.int slot) :: I.literal (.int offset) :: (← values es))
  | .builtin _ (.call f) es => ending do
    let f ← I.var f
    I.call f (← values es)
  | .chain .. | .write .. | .indexWrite .. | .interpolation .. | .pipe .. | .quote .. =>
    throw I.stuck

/-- The values of expressions from left to right. -/
def values : List Expr → Except ε (List V)
  | [] => return []
  | e :: es => do
    let v ← I.valueOf w (spine e)
    return v :: (← values es)

/-- The values of a map, one for each key. -/
def entries : List MapKey → List Expr → Except ε (List (MapKey × V))
  | k :: ks, e :: es => do
    let v ← I.valueOf w (spine e)
    return (k, v) :: (← entries ks es)
  | _, _ => return []

end

def meaning (e : Expr) : Except ε V := I.valueOf w (I.spine w e)

end Interpretation

end TemplateCompiler
