import TemplateCompiler.Selector.Matcher
import TemplateCompiler.Selector.Runtime
import TemplateCompiler.Template.Definition
import TemplateCompiler.Template.Value

/-!
# Compiling templates

`compileTemplate` turns a forest of nodes into a function that creates and updates a view. Nested
templates become functions inside it.

An element takes a data slot, and so does each of its references. Its creation is followed by its
listeners, its bindings and its children. The selectors of the places for content are numbered over
the whole template, nested ones included, and announced at its start.
-/

namespace TemplateCompiler

/-- What a template is compiled with. -/
structure TemplateSettings where
  /-- The name of the component. -/
  name : Text := []
  vars : List Named := []
  directives : Option (Matcher Term) := none
  /-- The types of pipes by name; the last one of a name counts. -/
  pipes : List (Text × Term) := []
  queries : List Query := []
  /-- The largest interpolation that has an instruction of its own. -/
  interpolationLimit : Int := 0
  /-- Whether all interpolations take their values in an array. -/
  variadic : Bool := false
  /-- Whether queries have a function of their own. -/
  queryFunction : Bool := false

def TemplateSettings.interpolate (s : TemplateSettings) : List Term → Except Failure Term :=
  if s.variadic then variadicInterpolation else boundedInterpolation s.interpolationLimit

/-! ### Projected content -/

def isDefaultContent (selector : Text) : Bool := selector.isEmpty || selector == "*"

/-- A selector of projected content with its parsed form. -/
structure ContentSelector where
  text : Text
  parsed : List (List RuntimeEntry)

namespace ContentSelector

/-- The entries of a parsed form as data. -/
def datum (s : ContentSelector) : Datum :=
  .list (s.parsed.map fun entries => .list (entries.map fun
    | .text t => .value (.text t)
    | .flags n => .value (.int n)))

/-- Adds a selector unless it is known or takes all content. -/
def collect (known : List ContentSelector) (found : Option SourceSpan × Text) :
    Except Failure (List ContentSelector) :=
  let (span, text) := found
  if isDefaultContent text || known.any (·.text == text) then return known
  else
    match parseRuntimeSelectors text with
    | .ok parsed => return known ++ [⟨text, parsed⟩]
    | .error e => throw ((Failure.of (.selector e.message)).locate span)

/-- The selectors found in a template, each once. -/
def collectAll (found : List (Option SourceSpan × Text)) : Except Failure (List ContentSelector) :=
  found.foldlM collect []

/-- The number of a selector: zero for all content, and otherwise its place in the list. -/
def indexOf (selectors : List Text) (selector : Text) : Nat :=
  if isDefaultContent selector then 0 else selectors.idxOf selector + 1

end ContentSelector

namespace Compile

/-- What stays the same in a compilation. -/
structure Setting where
  settings : TemplateSettings
  /-- The selectors of projected content. -/
  selectors : List Text

variable (cx : Setting)

def value (e : Expr) : Compile Term := boundValue cx.settings.pipes cx.settings.interpolate e

/-! ### Elements -/

/-- What selectors of directives are matched against: static attributes, and the names of
properties and events. -/
def matchedAttrs (parts : Parts) : List (Text × Text) :=
  (parts.attrs.filter fun a => !isI18n a.name).map (fun a => (a.name, a.value))
    ++ (parts.inputs.filter (·.type == .property)).map (fun i => (i.name, []))
    ++ parts.outputs.map fun o => (o.name, [])

def matchDirectives (name : Text) (parts : Parts) : Compile Unit :=
  match cx.settings.directives with
  | none => return ()
  | some matcher =>
    (matcher.values name (matchedAttrs parts)).forM fun type =>
      modify fun s => { s with directives := addDistinct s.pool.names type s.directives }

/-- A shared array, or null if it is empty. -/
def sharedArray (entries : List Term) : Compile Term :=
  if entries.isEmpty then return .null else onPool (shared (.ofList entries))

def literals (texts : List Text) : List Term := texts.map .ofText

/-- What separates attributes from the names that only directives are matched by. -/
def selectOnlyMarker : Nat := 1

/-- The names that only directives are matched by, after their marker. -/
def selectOnly (parts : Parts) : List Term :=
  let inputs := parts.inputs.filter (·.type == .property)
  let names := inputs.map (·.name) ++ parts.outputs.map (·.name)
  if names.isEmpty then [] else .ofNat selectOnlyMarker :: literals names

/-- Static attributes as names and values in turn. -/
def attrTexts (attrs : List Named) : List Text :=
  (attrs.filter fun a => !isI18n a.name).flatMap fun a => [a.name, a.value]

/-- Takes a data slot for each reference and binds it in the unit. -/
def bindReferences (refs : List Named) : Compile Term := do
  refs.forM fun r => do
    let slot ← allocateSlot
    let var ← freshName
    bindName r.name { var, value := some (Instruction.load.call [.ofNat slot]), owned := true }
  sharedArray (literals (refs.flatMap fun r => [r.name, r.value]))

def isNullLiteral : Term → Bool
  | .lit _ .null => true
  | _ => false

/-- The arguments up to the last that is not null. -/
def trimNulls (args : List Term) : List Term := (args.reverse.dropWhile isNullLiteral).reverse

def spaceOf (key : Text) : Instruction :=
  if key == "svg" then .namespaceSvg else if key == "math" then .namespaceMath else .namespaceHtml

/-- Changes the namespace if need be. -/
def switchSpace (key : Text) (span : Option SourceSpan) : Compile Unit := do
  let space := spaceOf key
  if (← get).unit.space ≠ space then
    changeUnit fun u => { u with space }
    create space [] span

def listen (element : Text) (o : Output) : Compile Unit :=
  locating o.span do
    if !o.phase.isEmpty then throw (.of (.unsupportedFeature "animations"))
    let event := if o.target.isEmpty then o.name else o.target ++ ":" ++ o.name
    let name := (← get).unit.functionName ++ "_" ++ sanitize element ++ "_" ++ sanitize event
      ++ "_listener"
    let f ← handler name o.handler
    create .listener [.ofText event, f.term] o.span

def inputInstruction : BindingType → Except Failure Instruction
  | .property => return .elementProperty
  | .attr => return .elementAttr
  | .cssClass => return .elementClass
  | .style => return .elementStyle
  | .animation => throw (.of (.unsupportedFeature "animations"))
  | .unknown => throw (.illegal (.unsupportedBinding BindingType.unknown.name))

def bindInput (slot : Nat) (i : Input) : Compile Unit :=
  locating i.span do
    let instruction ← inputInstruction i.type
    let value ← value cx i.value
    let unit : List Term := if i.type == .style && !i.unit.isEmpty then [.ofText i.unit] else []
    update [instruction.stmt ([.ofNat slot, .ofText i.name, value] ++ unit) i.span]

/-- How an element is written. -/
inductive ElementForm where
  /-- An element without listeners and children. -/
  | closed
  | opened
  /-- A container, which has no element of its own in the view. -/
  | container
  deriving DecidableEq

def elementForm (space name : Text) (parts : Parts) (childless : Bool) : ElementForm :=
  if space.isEmpty && name == "ng-container" then .container
  else if childless && parts.outputs.isEmpty then .closed
  else .opened

def ElementForm.start : ElementForm → Instruction
  | closed => .element
  | opened => .elementStart
  | container => .containerStart

def startElement (span : Option SourceSpan) (name : Text) (parts : Parts) (childless : Bool) :
    Compile ElementForm := do
  let slot ← allocateSlot
  let (space, name) ← splitName name
  let form := elementForm space name parts childless
  matchDirectives cx name parts
  let tag : List Term := if form = .container then [] else [.ofText name]
  let attrs ← sharedArray (literals (attrTexts parts.attrs) ++ selectOnly parts)
  let refs ← bindReferences parts.refs
  if form ≠ .container then switchSpace space span
  create form.start (trimNulls (.ofNat slot :: tag ++ [attrs, refs])) span
  parts.outputs.forM (listen name)
  parts.inputs.forM (bindInput cx slot)
  return form

/-- The instruction after the children of an element. -/
def endElement (span : Option SourceSpan) : ElementForm → Compile Unit
  | .closed => return ()
  | .opened => create .elementEnd [] span
  | .container => create .containerEnd [] span

/-! ### Texts and content -/

def compileBoundText (span : Option SourceSpan) (e : Expr) : Compile Unit :=
  locating span do
    let slot ← allocateSlot
    create .text [.ofNat slot] span
    let value ← value cx e
    update [Instruction.textBinding.stmt [.ofNat slot, value] span]

/-- The attribute that gives the selector of a place for content. -/
def selectAttr : Text := "select"

def compileContent (span : Option SourceSpan) (selector : Text) (attrs : List Named) :
    Compile Unit := do
  let slot ← allocateSlot
  let index := ContentSelector.indexOf cx.selectors selector
  let others := (attrs.filter fun a => a.name != selectAttr).flatMap fun a => [a.name, a.value]
  let more : List Term :=
    if !others.isEmpty then [.ofNat index, .ofList (literals others)]
    else if index ≠ 0 then [.ofNat index]
    else []
  create .projection (.ofNat slot :: more) span

/-! ### Templates -/

def onlyElement : List Node → Except Failure Text
  | [.element _ name _ _] => return sanitize (← splitName name).2
  | _ => return []

/-- The instructions of a template, up to the start of its own unit. The result is the unit to
return to. -/
def startTemplate (span : Option SourceSpan) (tag : Text) (parts : Parts) (children : List Node) :
    Compile TemplateUnit := do
  let slot ← allocateSlot
  let element ← onlyElement children
  let outerPath := (← get).unit.path
  let path : Text :=
    if element.isEmpty || outerPath.isEmpty then element else outerPath ++ "_" ++ element
  let front : Text := if path.isEmpty then [] else path ++ "_"
  let name : Text := front ++ "Template_" ++ Text.ofNat slot
  matchDirectives cx "ng-template" parts
  let tag : Term := if tag.isEmpty then .null else .ofText tag
  let attrs ← sharedArray (literals
    ((parts.attrs.filter fun a => !isI18n a.name).flatMap fun a => [a.name, []]))
  let refs ← bindReferences parts.refs
  create .container (trimNulls [.ofNat slot, .ofVar name, tag, attrs, refs]) span
  parts.outputs.forM (listen "ng_template")
  parts.inputs.forM (bindInput cx slot)
  let outer := (← get).unit
  startUnit outer.scope (outer.level + 1) (contextName ++ Text.ofNat outer.level) path name
  return outer

/-- Ends the unit of a template and goes back to the one around it. -/
def endTemplate (outer : TemplateUnit) : Compile Unit := do
  let f ← finishUnit []
  changeUnit fun _ => { outer with nested := outer.nested ++ [f.declaration] }

mutual

def compileNode : Node → Compile Unit
  | .text span value => do
    let slot ← allocateSlot
    create .text [.ofNat slot, .ofText value] span
  | .boundText span e => compileBoundText cx span e
  | .content span selector attrs => compileContent cx span selector attrs
  | .misplaced part => throw (.illegal (.unsupportedNode part.typeName))
  | .element span name parts children => do
    let form ← startElement cx span name parts children.isEmpty
    compileNodes children
    endElement span form
  | .template span tag parts vars children => do
    let outer ← startTemplate cx span tag parts children
    bindVariables vars
    compileNodes children
    endTemplate outer

/-- The instructions of nodes one after the other. -/
def compileNodes : List Node → Compile Unit
  | [] => return ()
  | n :: ns => do
    compileNode n
    compileNodes ns

end

/-! ### The root -/

/-- Announces the selectors of projected content, if there are places for content. -/
def announceContent (any : Bool) (selectors : List ContentSelector) : Compile Unit := do
  if any then
    if selectors.isEmpty then create .projectionDef []
    else
      let parsed ← onPool (shared (Datum.list (selectors.map ContentSelector.datum)).term)
      let texts ← onPool (shared (Datum.ofTexts (selectors.map (·.text))).term)
      create .projectionDef [parsed, texts]

/-- Puts a query into a data slot. -/
def addQuery (q : Query) : Compile Unit := do
  let slot ← allocateSlot
  let creation ← onPool (q.creation slot)
  changeUnit fun u => { u with creation := u.creation ++ [creation] }
  update [q.refresh slot]

def templateFunction (settings : TemplateSettings) (nodes : List Node) : Compile FunctionCode := do
  let front : Text := if settings.name.isEmpty then [] else settings.name ++ "_"
  startUnit 0 0 contextName settings.name (front ++ "Template")
  bindVariables settings.vars
  let contents := Node.contents nodes
  let selectors ← ContentSelector.collectAll contents
  announceContent (!contents.isEmpty) selectors
  let queries := if settings.queryFunction then [] else settings.queries
  queries.forM addQuery
  compileNodes ⟨settings, selectors.map (·.text)⟩ nodes
  finishUnit (Query.temporaries queries)

end Compile

/-- A compiled template. -/
structure CompiledTemplate where
  template : FunctionCode
  /-- The function of the queries, if they have one of their own. -/
  viewQuery : Option FunctionCode
  /-- The constants. -/
  statements : List Stmt
  directives : List Term
  pipes : List Term

namespace CompiledTemplate

/-- The fields of the component's definition. -/
def definition (c : CompiledTemplate) : Definition :=
  let list (ts : List Term) : Option Term := if ts.isEmpty then none else some (.ofList ts)
  Definition.set "template" (some c.template.term) {}
    |>.set "viewQuery" (c.viewQuery.map (·.term))
    |>.set "directives" (list c.directives)
    |>.set "pipes" (list c.pipes)

/-- All declarations: constants, the function of the queries and that of the template. -/
def declarations (c : CompiledTemplate) : List Stmt :=
  c.statements ++ (c.viewQuery.map (·.declaration)).toList ++ [c.template.declaration]

end CompiledTemplate

def compileFunctions (settings : TemplateSettings) (nodes : List Node) :
    Compile (FunctionCode × Option FunctionCode) := do
  let template ← Compile.templateFunction settings nodes
  if settings.queryFunction && !settings.queries.isEmpty then
    return (template, some (← Compile.onPool (Query.function settings.queries settings.name)))
  else return (template, none)

/-- Compiles a template with the constants of a pool. The pool keeps what was added to it even if
the compilation fails. -/
def compileTemplate (settings : TemplateSettings) (nodes : List Node) (pool : Pool) :
    Except Failure CompiledTemplate × Pool :=
  let start : Assembly :=
    { pool, scopes := .root
      unit := { level := 0, parameter := contextName, path := [], functionName := [], scope := 0 } }
  match (compileFunctions settings nodes).run.run start with
  | (.ok (template, viewQuery), s) =>
    (.ok ⟨template, viewQuery, s.pool.statements, s.directives, s.pipes⟩, s.pool)
  | (.error f, s) => (.error f, s.pool)

end TemplateCompiler
