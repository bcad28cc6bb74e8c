import TemplateCompiler.Pool.Basic
import TemplateCompiler.Text.Blank
import TemplateCompiler.Template.Instruction

/-!
# View queries

A query fills a property of the component with nodes of its view. It is created in a data slot and
refreshed with every update, either in the template itself or in a function of its own.
-/

namespace TemplateCompiler

/-- Which nodes a query looks for. -/
inductive Predicate where
  /-- Nodes with one of these references; a text may hold several, separated by commas. -/
  | references (texts : List Text)
  /-- Nodes with a directive or service of this type, which may not be defined yet. -/
  | type (t : Term) (deferred : Bool)
  /-- Nothing a query can look for. -/
  | unsupported

/-- A view query. -/
structure Query where
  property : Text
  /-- Whether only the first result is wanted. -/
  first : Bool
  descendants : Bool
  predicate : Predicate
  /-- The type that is read from each node found. -/
  read : Option Term

/-- A computation over a pool that keeps it on failure. -/
abbrev Pooling := ExceptT Failure (StateM Pool)

/-- The literal as it is used, shared at once. -/
def shared (t : Term) : Pooling Term := do
  match (← get).literal t true with
  | .ok (t, pool) =>
    set pool
    return t
  | .error d => throw (.defect d)

/-- The first parameter of template functions: what is to be done. -/
def renderFlags : Text := "rf"

def contextName : Text := "ctx"

/-- The variable that holds results of queries. -/
def queryTemporary : Text := "_t"

def createFlag : Nat := 1

def updateFlag : Nat := 2

def onFlag (flag : Nat) (statements : List Stmt) : Stmt :=
  .when (.operation .bitAnd (.ofVar renderFlags) (.ofNat flag)) statements

/-- A named function of the generated code. -/
structure FunctionCode where
  name : Text
  params : List Text
  body : List Stmt

namespace FunctionCode

def term (f : FunctionCode) : Term := .function {} f.params f.body f.name

def declaration (f : FunctionCode) : Stmt := .function none {} f.name f.params f.body

end FunctionCode

namespace Query

def referenceNames (texts : List Text) : List Term :=
  texts.flatMap fun t => (Text.splitOn ','.toUInt8 t).map fun part => .ofText (Text.trim part)

def predicateCode (q : Query) : Pooling Term :=
  match q.predicate with
  | .references texts => shared (.ofList (referenceNames texts))
  | .type t false => return t
  | .type t true => return Instruction.resolveForwardRef.call [t]
  | .unsupported => throw (.of (.unsupportedPredicate q.property))

def creation (q : Query) (slot : Nat) : Pooling Stmt := do
  let predicate ← q.predicateCode
  return Instruction.query.stmt
    ([.ofNat slot, predicate, .ofValue (.bool q.descendants)] ++ q.read.toList)

def refresh (q : Query) (slot : Nat) : Stmt :=
  let results : Term := .ofVar queryTemporary
  let call := Instruction.queryRefresh.call [.set results (Instruction.load.call [.ofNat slot])]
  let value := if q.first then .prop {} results "first" else results
  .ofTerm (.operation .and call (.set (.prop {} (.ofVar contextName) q.property) value))

/-- The declaration of the variable for results, if there are queries. -/
def temporaries (queries : List Query) : List Stmt :=
  if queries.isEmpty then [] else [.declare none {} queryTemporary none]

/-- The statements that create queries in slots from `slot` on. -/
def creations : (slot : Nat) → List Query → Pooling (List Stmt)
  | _, [] => return []
  | slot, q :: qs => do
    let s ← q.creation slot
    return s :: (← creations (slot + 1) qs)

/-- The statements that refresh queries in slots from `slot` on. -/
def refreshes : (slot : Nat) → List Query → List Stmt
  | _, [] => []
  | slot, q :: qs => q.refresh slot :: refreshes (slot + 1) qs

def function (queries : List Query) (component : Text) : Pooling FunctionCode := do
  let created ← creations 0 queries
  return {
    name := if component.isEmpty then [] else component ++ "_Query"
    params := [renderFlags, contextName]
    body := temporaries queries
      ++ [onFlag createFlag created, onFlag updateFlag (refreshes 0 queries)] }

end Query

end TemplateCompiler
