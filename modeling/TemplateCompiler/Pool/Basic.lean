import TemplateCompiler.Pool.Key

/-!
# Pools of constants

A `Pool` collects what one compilation declares once and uses often: literals as constants, and
functions that build a literal from the parts of it that are not constant.

* `Pool.literal` : a literal, or the constant that holds it;
* `Pool.factory` : a function that builds a collection, and the arguments to call it with;
* `Pool.uniqueName` : a name no one else gets.
-/

namespace TemplateCompiler

/-- The constants of a compilation. -/
structure Pool where
  /-- The declarations in order. -/
  statements : List Stmt := []
  /-- The literals seen so far by key, each with its constant if it has one. -/
  literals : List (Text × Term × Option Text) := []
  /-- The names of the literal factories by key. -/
  factories : List (Text × Text) := []
  /-- How often each name was asked for. -/
  claimed : List (Text × Nat) := []

namespace Pool

/-- The constants declared so far. -/
def names (pool : Pool) : Names := fun key => (pool.literals.lookup key).bind (·.2)

/-- Text literals of at least this many bytes are kept; shorter ones and other primitive values
are always written out. -/
def textThreshold : Nat := 50

/-- Whether a literal is never kept. -/
def isInline : Term → Bool
  | .lit _ (.text t) => t.length < textThreshold
  | .lit .. => true
  | .pooled .. => true
  | _ => false

/-- A name with a counter, which is left off the first time unless it is asked for. -/
def uniqueName (name : Text) (suffix : Bool) (pool : Pool) : Text × Pool :=
  let count := (pool.claimed.lookup name).getD 0
  let claimed := (name, count + 1) :: pool.claimed.filter (·.1 != name)
  (if count == 0 && !suffix then name else name ++ Text.ofNat count, { pool with claimed })

def freshName (pool : Pool) : Text × Pool := pool.uniqueName "_c" true

def addStatement (s : Stmt) (pool : Pool) : Pool :=
  { pool with statements := pool.statements ++ [s] }

/-- Declares a constant under a fresh name. -/
def declare (value : Term) (pool : Pool) : Text × Pool :=
  let (name, pool) := pool.freshName
  (name, pool.addStatement (.const name value))

def keep (key : Text) (literal : Term) (pool : Pool) : Pool :=
  { pool with literals := pool.literals ++ [(key, literal, none)] }

/-- Records the constant of a literal. -/
def share (key name : Text) (pool : Pool) : Pool :=
  { pool with
    literals := pool.literals.map fun (k, t, n) => (k, t, if k == key then some name else n) }

/-- The literal as it is used: written out, or kept. A kept literal gets a constant when it is seen
for the second time, or at once if `force` is set. -/
def literal (t : Term) (force : Bool) (pool : Pool) : Except Defect (Term × Pool) :=
  if isInline t then return (t, pool)
  else do
    let key ← t.keyOf
    match pool.literals.lookup key with
    | some (kept, some _) => return (.pooled key kept, pool)
    | some (kept, none) =>
      let (name, pool) := pool.declare t
      return (.pooled key kept, pool.share key name)
    | none =>
      let pool := pool.keep key t
      if force then
        let (name, pool) := pool.declare t
        return (.pooled key t, pool.share key name)
      else return (.pooled key t, pool)

/-! ### Literal factories -/

/-- What stands for the entries that are not constant when factories are told apart. -/
def unknownValue : Term := .ofVar "<unknown>"

/-- An entry as factories are told apart by it. -/
def keyEntry (t : Term) : Term := if t.isConstant then t else unknownValue

/-- The entries of a factory's result and its parameters, of which `count` were used before.
Constants are shared, everything else is a parameter. -/
def factoryEntries : (count : Nat) → List Term → Pool → Except Defect (List Term × List Text × Pool)
  | _, [], pool => return ([], [], pool)
  | count, t :: ts, pool => do
    if t.isConstant then
      let (shared, pool) ← pool.literal t true
      let (rest, params, pool) ← factoryEntries count ts pool
      return (shared :: rest, params, pool)
    else
      let param : Text := "a" ++ Text.ofNat count
      let (rest, params, pool) ← factoryEntries (count + 1) ts pool
      return (.ofVar param :: rest, param :: params, pool)

/-- The factory with the given key; `build` makes the collection of its entries. -/
def factoryFor (key : Text) (values : List Term) (build : List Term → Term) (pool : Pool) :
    Except Defect ((Term × List Term) × Pool) := do
  let args := values.filter fun t => !t.isConstant
  match pool.factories.lookup key with
  | some name => return ((.ofVar name, args), pool)
  | none =>
    let (entries, params, pool) ← factoryEntries 0 values pool
    let (name, pool) := pool.declare (.function {} params [.ret none (build entries)] [])
    return ((.ofVar name, args), { pool with factories := pool.factories ++ [(key, name)] })

/-- A function that builds an array or map from its entries that are not constant, and those
entries in order. -/
def factory (t : Term) (pool : Pool) : Except Defect ((Term × List Term) × Pool) :=
  match t with
  | .array _ entries => do
    let key ← (Term.ofList (entries.map keyEntry)).keyOf
    pool.factoryFor key entries Term.ofList
  | .map _ entries => do
    let key ← (Term.ofEntries (entries.map fun (k, v) => (k, keyEntry v))).keyOf
    pool.factoryFor key (entries.map (·.2)) fun values =>
      .ofEntries ((entries.map (·.1)).zip values)
  | _ => throw (.notCollection t.typeName)

end Pool

end TemplateCompiler
