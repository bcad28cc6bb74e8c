import TemplateCompiler.Template.Unit

/-!
# Bindings in template functions

The values of bindings are lowered with the scope of their unit. Pipes live in data slots. A literal
collection of constants is shared; any other is built by a pure function, which builds it anew only
when an entry has changed.
-/

namespace TemplateCompiler

namespace Compile

/-- Puts every pipe into a data slot of its own; `types` are the known pipes. -/
def pipeFactory (types : List (Text × Term)) : BuiltinFactory Compile where
  array _ := return .array
  map keys := return .map keys
  pipe name count _ := do
    let slot ← allocateSlot
    create .pipe [.ofNat slot, .ofText name]
    if let some type := types.reverse.lookup name then
      modify fun s => { s with pipes := addDistinct s.pool.names type s.pipes }
    return .pipe slot (← allocatePureSlots (1 + count))

def collection (literal : Term) (entries : List Term) : Compile Term := do
  if Term.allConstant entries then onPool (shared literal)
  else
    let (factory, args) ← onPool do
      match (← get).factory literal with
      | .ok (r, pool) =>
        set pool
        return r
      | .error d => throw (.defect d)
    let slot ← allocatePureSlots (1 + args.length)
    return (Instruction.pureFunction args.length).call
      (.ofNat slot :: factory :: Instruction.spread Instruction.maxPureFunction args)

def completeCode : Builtin → List Term → Compile Term
  | .array, args => collection (.ofList args) args
  | .map keys, args => collection (.ofEntries (keys.zip args)) args
  | .pipe slot offset, args =>
    return (Instruction.pipeBind args.length).call
      (.ofNat slot :: .ofNat offset :: Instruction.spread Instruction.maxPipeBind args)
  | .call function, args => return .apply (.ofVar function) args

def builtinCode (kind : Builtin) (args : List Term) : Compile Term :=
  if kind.lacksValue args.length then throw (.defect (.missingValue args.length))
  else completeCode kind args

def lookup (scope : Nat) (name : Text) : StateM Assembly (Option Found) := do
  let s ← get
  let (var, scopes) := s.scopes.resolve scope name
  set { s with scopes }
  return var.map fun v => .term (.ofVar v)

def host (scope : Nat) (builtin : Builtin → List Term → Compile Term)
    (interpolate : List Term → Except Failure Term) : Host Assembly where
  context := .ofVar contextName
  lookup := lookup scope
  notify := pure ()
  builtin
  interpolate

def noInterpolation (_ : List Term) : Except Failure Term := throw (.of .unexpectedInterpolation)

/-- The value of a binding whose builtins were replaced; the statements it needs go to the
update code. -/
def loweredValue (value : Expr) (interpolate : List Term → Except Failure Term) : Compile Term := do
  let scope := (← get).unit.scope
  let binding ← nextBinding
  let code ← lowerProperty (host scope builtinCode interpolate) value binding true
  update code.statements
  return code.value

/-- The value of a binding as it is passed to instructions. -/
def boundValue (pipes : List (Text × Term)) (interpolate : List Term → Except Failure Term)
    (value : Expr) : Compile Term := do
  match ← value.replaceBuiltins (pipeFactory pipes) with
  | value@(.interpolation ..) => loweredValue value interpolate
  | value => return Instruction.bind.call [← loweredValue value noInterpolation]

def handlerBinding : Text := "b"

def handler (name : Text) (action : Expr) : Compile FunctionCode := do
  let s ← get
  let (scope, scopes) := s.scopes.nest s.unit.scope false
  set { s with scopes }
  let surroundings := host scope (fun kind args => .mk (pure (kind.write args))) noInterpolation
  let code ← lowerAction surroundings action handlerBinding
  return {
    name
    params := [eventName]
    body := (← get).scopes.declarations scope ++ code.functionBody }

end Compile

end TemplateCompiler
