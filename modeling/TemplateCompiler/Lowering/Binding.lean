import TemplateCompiler.Lowering.Basic

/-!
# Lowering bindings

* `lowerAction` : the statements of an event handler;
* `lowerProperty` : the value of a property, with the statements that compute it.

Both declare the temporaries they used, and tell the host if they used the component context.
-/

namespace TemplateCompiler

def coreModule : Text := "@angular/core"

def inlineInterpolationLimit : Int := 9

/-- Interpolations of up to `limit` expressions pass texts and values one by one, longer ones in an
array. -/
def inlineOrVariadic (limit : Int) (args : List Term) : Term :=
  if ((args.length - 2) / 2 : Nat) ≤ limit then
    .apply (.imported coreModule "ɵinlineInterpolate") args
  else .apply (.imported coreModule "ɵinterpolate") (args.take 1 ++ [.ofList (args.drop 1)])

/-- The variable that holds the event in a handler. -/
def eventName : Text := "$event"

/-- The locals without a scope: the event. -/
def eventOnly (name : Text) : Option Found :=
  if name == eventName then some (.term (.ofVar eventName)) else none

/-- A computation over the state of a host that keeps it on failure. -/
abbrev Hosted (σ : Type) := ExceptT Failure (StateM σ)

variable {σ : Type} (host : Host σ)

/-- Lowers with an empty stack of temporaries, and settles with the host. -/
def lowerBinding {α : Type} (binding : Text) (code : Lower σ α) : Hosted σ (α × TemporaryStack) :=
  fun s =>
    match code.run.run { host := s, temporaries := { binding } } with
    | (.error f, final) => (.error f, final.host)
    | (.ok a, final) =>
      if final.temporaries.depth ≠ 0 then
        (.error (.illegal (.unreleased final.temporaries.depth binding)), final.host)
      else
        let after := if final.usesContext then (host.notify.run final.host).2 else final.host
        (.ok (a, final.temporaries), after)

/-! ### Event handlers -/

/-- The code of an event handler. -/
structure ActionCode where
  statements : List Stmt
  /-- The variable that is false exactly if the value of the last statement is. -/
  preventDefault : Option Text

/-- The statements of a handler, and the temporaries they use, before its value is looked at. -/
def actionBody (action : Expr) (binding : Text) : Hosted σ (List Stmt × TemporaryStack) := do
  match action.replaceBuiltins BuiltinFactory.literal with
  | .error f => throw f
  | .ok action => lowerBinding host binding (action.lowerStatements host)

/-- Whether a value is not false, as the constant `name`. -/
def preventDefaultStmt (name : Text) (value : Term) : Stmt :=
  .const name (.operation .notIdentical (.erased value) (.ofValue (.bool false))
    { type := some .bool })

def Stmt.value? : Stmt → Option Term
  | .expr _ t => some t
  | .ret _ t => some t
  | _ => none

/-- Keeps the value of the last statement. -/
def withPreventDefault (binding : Text) (statements : List Stmt) : ActionCode :=
  match statements.getLast?.bind Stmt.value? with
  | some value =>
    let name : Text := "pd_" ++ binding
    ⟨statements.dropLast ++ [preventDefaultStmt name value], some name⟩
  | none => ⟨statements, none⟩

/-- Lowers an event handler. -/
def lowerAction (action : Expr) (binding : Text) : Hosted σ ActionCode := do
  let (body, temporaries) ← actionBody host action binding
  return withPreventDefault binding (temporaries.declarations ++ body)

/-- The statements as the body of a function: the kept value is returned. -/
def ActionCode.functionBody (code : ActionCode) : List Stmt :=
  code.statements.map fun s =>
    match s, code.preventDefault with
    | .declare _ _ name (some value), some kept => if name == kept then .ret none value else s
    | _, _ => s

/-! ### Properties -/

/-- The value of a property, and the statements before it. -/
structure PropertyCode where
  statements : List Stmt
  value : Term

/-- Lowers a property whose builtins were replaced. A `simple` one without temporaries is its bare
value; otherwise the value is kept in a variable. -/
def lowerProperty (value : Expr) (binding : Text) (simple : Bool) : Hosted σ PropertyCode := do
  let (term, temporaries) ← lowerBinding host binding (value.lower host)
  if temporaries.count = 0 ∧ simple then return ⟨[], term⟩
  else
    let name : Text := "currVal_" ++ binding
    return ⟨temporaries.declarations ++ [.const name term], .ofVar name⟩

end TemplateCompiler
