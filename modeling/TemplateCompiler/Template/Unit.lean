import TemplateCompiler.Code.Equivalence
import TemplateCompiler.Template.Name
import TemplateCompiler.Template.Node
import TemplateCompiler.Template.Scope
import TemplateCompiler.Template.Query

/-!
# Template functions in the making

Every level of nesting of a template becomes a function of its own, here called a `TemplateUnit`.
It numbers its *data slots*, which hold the nodes, pipes, queries and references it creates, and its
*pure slots*, in which pipes and pure functions remember what they were last given.

The `Assembly` is the state of a whole compilation: what all units share, and the unit being
compiled.
-/

namespace TemplateCompiler

/-- The function of one level of a template. -/
structure TemplateUnit where
  level : Nat
  /-- The parameter with the variables of the template. -/
  parameter : Text
  /-- What the names of nested functions start with, or nothing. -/
  path : Text
  functionName : Text
  scope : Nat
  /-- The instruction for the current namespace. -/
  space : Instruction := .namespaceHtml
  slots : Nat := 0
  bindings : Nat := 0
  pureSlots : Nat := 0
  /-- What is done on the first run. -/
  creation : List Stmt := []
  /-- What is done with every update. -/
  update : List Stmt := []
  /-- The functions of nested templates. -/
  nested : List Stmt := []

/-- The state of a compilation. -/
structure Assembly where
  pool : Pool
  scopes : ScopeTree
  /-- The directives found, without repetition. -/
  directives : List Term := []
  /-- The types of the pipes used, without repetition. -/
  pipes : List Term := []
  unit : TemplateUnit

/-- A step of a compilation. A failure keeps the state it left. -/
abbrev Compile := ExceptT Failure (StateM Assembly)

def addDistinct (names : Names) (t : Term) (ts : List Term) : List Term :=
  if ts.any (·.equiv names t) then ts else ts ++ [t]

namespace Compile

def changeUnit (f : TemplateUnit → TemplateUnit) : Compile Unit :=
  modify fun s => { s with unit := f s.unit }

def onPool {α : Type} (step : Pooling α) : Compile α := do
  let s ← get
  let (r, pool) := step.run.run s.pool
  set { s with pool }
  match r with
  | .ok a => return a
  | .error f => throw f

/-- A failure of the input is located at a span unless it has one. -/
def locating {α : Type} (span : Option SourceSpan) (step : Compile α) : Compile α :=
  ExceptT.adapt (Failure.locate span) step

def allocateSlot : Compile Nat := do
  let slot := (← get).unit.slots
  changeUnit fun u => { u with slots := slot + 1 }
  return slot

/-- Takes a block of pure slots; the result is the first one. -/
def allocatePureSlots (count : Nat) : Compile Nat := do
  let first := (← get).unit.pureSlots
  changeUnit fun u => { u with pureSlots := first + count }
  return first

def nextBinding : Compile Text := do
  let n := (← get).unit.bindings
  changeUnit fun u => { u with bindings := n + 1 }
  return Text.ofNat n

/-- Adds an instruction to the first run. -/
def create (i : Instruction) (args : List Term) (span : Option SourceSpan := none) : Compile Unit :=
  changeUnit fun u => { u with creation := u.creation ++ [i.stmt args span] }

def update (ss : List Stmt) : Compile Unit :=
  changeUnit fun u => { u with update := u.update ++ ss }

def freshName : Compile Text := do
  let s ← get
  let (name, scopes) := s.scopes.freshName
  set { s with scopes }
  return name

def bindName (name : Text) (e : ScopeEntry) : Compile Unit := do
  let s ← get
  match s.scopes.bind s.unit.scope name e with
  | .ok scopes => set { s with scopes }
  | .error f => throw f

/-- Starts a unit inside the scope `outer`. -/
def startUnit (outer level : Nat) (parameter path functionName : Text) : Compile Unit := do
  let s ← get
  let (scope, scopes) := s.scopes.nest outer false
  set { s with scopes, unit := { level, parameter, path, functionName, scope } }

/-- The property of the parameter that a variable without a value reads. -/
def implicitValue : Text := "$implicit"

/-- Binds the variables of a template to properties of the unit's parameter. -/
def bindVariables (vars : List Named) : Compile Unit :=
  vars.forM fun v => do
    let parameter := (← get).unit.parameter
    let value := if v.value.isEmpty then implicitValue else v.value
    let var := v.name ++ (← freshName)
    bindName v.name { var, value := some (.prop {} (.ofVar parameter) value) }

/-- The function of the current unit, which starts with the statements `front`. -/
def finishUnit (front : List Stmt) : Compile FunctionCode := do
  let s ← get
  let u := s.unit
  let reserve : List Stmt :=
    if u.pureSlots = 0 then [] else [Instruction.reserveSlots.stmt [.ofNat u.pureSlots]]
  let phase (flag : Nat) (ss : List Stmt) : List Stmt := if ss.isEmpty then [] else [onFlag flag ss]
  return {
    name := u.functionName
    params := [renderFlags, u.parameter]
    body := front ++ phase createFlag (u.creation ++ reserve) ++ s.scopes.declarations u.scope
      ++ phase updateFlag u.update ++ u.nested }

end Compile

end TemplateCompiler
