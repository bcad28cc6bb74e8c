import TemplateCompiler.Fixture.Node
import TemplateCompiler.Template.Compile
import TemplateCompiler.Yaml.Parser

/-!
# Fixtures

A fixture is a component template with what is needed to compile it, written as a YAML document:

    name: TodoList
    directives:
      - selector: '[ngFor][ngForOf]'
        type: NgForOf
    pipes:
      uppercase: UpperCasePipe
    template:
      - element: ul
        children:
          - bound_text: 'Hello'
-/

namespace TemplateCompiler

/-- A template read from a fixture. -/
structure Fixture where
  name : Text := []
  nodes : List Node := []
  vars : List Named := []
  directives : Matcher Term := {}
  pipes : List (Text × Term) := []
  queries : List Query := []
  /-- Whether queries have a function of their own, if the fixture says so. -/
  queryFunction : Option Bool := none

namespace Document

variable (d : Document)

def addDirective (matcher : Matcher Term) (y : Yaml) : Decoded (Matcher Term) := do
  let (selector, type) ← (← d.entries y).foldlM (fun (selector, type) (key, value) => do
    if key.text == "selector" then return (← d.scalar value, type)
    else if key.text == "type" then return (selector, ← d.scalar value)
    else d.unknownKey key "directive key" ["selector", "type"]) (([] : Text), ([] : Text))
  if selector.isEmpty || type.isEmpty then d.fail y .incompleteDirective
  else
    match parseSelectors selector with
    | .ok selectors => return matcher.add selectors (.ofVar type)
    | .error e => d.fail y (.badSelector selector e)

/-- A list of reference names, or the name of a type. -/
def predicate (y : Yaml) : Decoded Predicate :=
  match y with
  | .sequence _ items => return .references (← items.mapM d.scalar)
  | _ => return .type (.ofVar (← d.scalar y)) false

/-- What is known of a query. -/
structure QueryDraft where
  property : Text := []
  predicate : Option Predicate := none
  deferred : Bool := false
  first : Bool := false
  descendants : Bool := false
  read : Option Term := none

def queryKeys : List Text :=
  ["property", "predicate", "forward_ref", "first", "descendants", "read"]

def queryPart (q : QueryDraft) (entry : Yaml × Yaml) : Decoded QueryDraft := do
  let (key, value) := entry
  let name := key.text
  if name == "property" then return { q with property := ← d.scalar value }
  else if name == "predicate" then return { q with predicate := some (← d.predicate value) }
  else if name == "forward_ref" then return { q with deferred := ← d.boolean value }
  else if name == "first" then return { q with first := ← d.boolean value }
  else if name == "descendants" then return { q with descendants := ← d.boolean value }
  else if name == "read" then return { q with read := some (.ofVar (← d.scalar value)) }
  else d.unknownKey key "query key" queryKeys

def query (y : Yaml) : Decoded Query := do
  let q ← (← d.entries y).foldlM d.queryPart {}
  match q.property, q.predicate with
  | [], _ | _, none => d.fail y .incompleteQuery
  | property, some predicate =>
    let predicate ←
      if q.deferred then
        match predicate with
        | .type t _ => pure (Predicate.type t true)
        | _ => d.fail y .deferredReferences
      else pure predicate
    return ⟨property, q.first, q.descendants, predicate, q.read⟩

def fixtureKeys : List Text :=
  ["name", "variables", "directives", "pipes", "queries", "view_query_function", "template"]

def fixturePart (f : Fixture) (entry : Yaml × Yaml) : Decoded Fixture := do
  let (key, value) := entry
  let name := key.text
  if name == "name" then return { f with name := ← d.scalar value }
  else if name == "variables" then return { f with vars := ← d.named value }
  else if name == "directives" then
    return { f with directives := ← (← d.items value).foldlM d.addDirective f.directives }
  else if name == "pipes" then
    let pipes ← (← d.entries value).mapM fun (pipe, type) =>
      return (pipe.text, Term.ofVar (← d.scalar type))
    return { f with pipes := f.pipes ++ pipes }
  else if name == "queries" then return { f with queries := ← (← d.items value).mapM d.query }
  else if name == "view_query_function" then
    return { f with queryFunction := some (← d.boolean value) }
  else if name == "template" then return { f with nodes := ← d.nodes value }
  else d.unknownKey key "fixture key" fixtureKeys

end Document

/-- Why there is no fixture. -/
inductive FixtureFailure where
  /-- The text is no YAML document. -/
  | yaml (e : YamlError)
  | fixture (e : FixtureError)

def FixtureFailure.message : FixtureFailure → Text
  | yaml e => "failed to parse fixture: " ++ e.message
  | fixture e => e.message

namespace Fixture

def decode (file : SourceFile) (keepBlanks : Bool) : Except FixtureFailure Fixture :=
  let d : Document := ⟨file, keepBlanks⟩
  match Yaml.parse file.content with
  | .error e => throw (.yaml e)
  | .ok none => return {}
  | .ok (some y) =>
    match (do (← d.entries y).foldlM d.fixturePart {} : Decoded Fixture) with
    | .ok f => return f
    | .error e => throw (.fixture e)

/-- The settings with what the fixture has. Its name counts for more than the one in the
settings. -/
def settings (f : Fixture) (base : TemplateSettings) : TemplateSettings :=
  { base with
    name := if f.name.isEmpty then base.name else f.name
    vars := f.vars
    directives := some f.directives
    pipes := f.pipes
    queries := f.queries
    queryFunction := f.queryFunction.getD base.queryFunction }

end Fixture

end TemplateCompiler
