import TemplateCompiler.Expr.Binding
import TemplateCompiler.Fixture.Document
import TemplateCompiler.Template.Node
import TemplateCompiler.Text.Blank

/-!
# Template nodes of a fixture

A node is a mapping. Its first key is the kind of the node, and the value of that key is the tag,
the text or the selector. The names of inputs and outputs are spelled as in templates without their
brackets: `title`, `attr.role`, `class.active`, `style.width.px` and `@trigger`, or with the type
in front, `kind:name`; `event`, `target:event` and `@trigger.phase`.
-/

namespace TemplateCompiler

namespace Document

variable (d : Document)

/-- The expression at a node, or its errors. -/
def expression (y : Yaml) (parsed : Parsed) : Decoded Expr :=
  match parsed with
  | .ok e => return e
  | .error errors => d.fail y (.badExpression errors)

def named (y : Yaml) : Decoded (List Named) := do
  (← d.entries y).mapM fun (key, value) => return ⟨key.text, ← d.scalar value, d.span key⟩

/-! ### Inputs and outputs -/

/-- The type, name and unit of an input. -/
def inputName (key : Yaml) : Decoded (BindingType × Text × Text) :=
  let name := key.text
  match name.cut? ":" with
  | some (kind, rest) =>
    match BindingType.ofName? kind with
    | some type => return (type, rest, [])
    | none => d.fail key (.unknownKey "binding type" kind (BindingType.all.map (·.name)))
  | none =>
    if name.head? == some '@'.toUInt8 then return (.animation, name.drop 1, [])
    else
      match name.cut? "." with
      | none => return (.property, name, [])
      | some (kind, rest) =>
        if kind == "attr" then return (.attr, rest, [])
        else if kind == "class" then return (.cssClass, rest, [])
        else if kind == "style" then
          let (property, unit) := (rest.cut? ".").getD (rest, [])
          return (.style, property, unit)
        else return (.property, name, [])

/-- The value of an input: text with interpolations, or an expression. -/
def bindingValue (y : Yaml) (source : Text) : Decoded Expr :=
  let place := (d.location y).text
  d.expression y ((parseInterpolation source place 0).getD (parseBinding source place 0))

def inputs (y : Yaml) : Decoded (List Input) := do
  (← d.entries y).mapM fun (key, value) => do
    let (type, name, unit) ← d.inputName key
    let source ← d.scalar value
    return ⟨name, type, ← d.bindingValue value source, unit, d.span key⟩

/-- The name, target and phase of an output. -/
def outputName (key : Yaml) : Decoded (Text × Text × Text) :=
  let name := key.text
  if name.head? == some '@'.toUInt8 then
    let trigger := name.drop 1
    let (event, phase) := (Text.cut? trigger ".").getD (trigger, [])
    if phase.isEmpty then d.fail key (.missingPhase name) else return (event, [], phase)
  else
    match name.cut? ":" with
    | some (target, event) => return (event, target, [])
    | none => return (name, [], [])

def outputs (y : Yaml) : Decoded (List Output) := do
  (← d.entries y).mapM fun (key, value) => do
    let source ← d.scalar value
    let handler ← d.expression value (parseAction source (d.location value).text 0)
    let (name, target, phase) ← d.outputName key
    return ⟨name, handler, target, phase, d.span key⟩

/-! ### Nodes -/

def nodeKinds : List Text := ["element", "template", "text", "bound_text", "content"]

def partKeys : List Text := ["attrs", "inputs", "outputs", "refs", "let", "children"]

/-- What is known of an element or template. -/
structure Draft where
  parts : Parts := {}
  vars : List Named := []
  children : List Node := []

/-- Nothing may follow the first key. -/
def noMore (rest : List (Yaml × Yaml)) : Decoded Unit :=
  match rest with
  | [] => return ()
  | (key, _) :: _ => d.fail key (.unexpectedKey key.text)

/-- A static text; a blank one is left out unless blanks are kept. -/
def textNode (kind : Yaml) (text : Text) (rest : List (Yaml × Yaml)) : Decoded (Option Node) := do
  d.noMore rest
  if !d.keepBlanks && Text.isBlank text then return none
  else return some (.text (d.span kind) text)

def boundTextNode (kind value : Yaml) (text : Text) (rest : List (Yaml × Yaml)) :
    Decoded (Option Node) := do
  d.noMore rest
  match parseInterpolation text (d.location kind).text 0 with
  | none => d.fail value .noInterpolation
  | some parsed => return some (.boundText (d.span kind) (← d.expression value parsed))

def contentNode (kind : Yaml) (selector : Text) (rest : List (Yaml × Yaml)) :
    Decoded (Option Node) := do
  let attrs ← rest.foldlM (fun _ (key, value) =>
    if key.text == "attrs" then d.named value
    else d.unknownKey key "content key" ["attrs"]) []
  return some (.content (d.span kind) selector attrs)

/-- Reads a key of an element or template other than its children. -/
def part (isTemplate : Bool) (key value : Yaml) (draft : Draft) : Decoded Draft := do
  let name := key.text
  if name == "attrs" then return { draft with parts.attrs := ← d.named value }
  else if name == "inputs" then return { draft with parts.inputs := ← d.inputs value }
  else if name == "outputs" then return { draft with parts.outputs := ← d.outputs value }
  else if name == "refs" then return { draft with parts.refs := ← d.named value }
  else if name == "let" then
    if isTemplate then return { draft with vars := ← d.named value }
    else d.fail key .misplacedVariables
  else d.unknownKey key "element key" partKeys

mutual

/-- Reads a node, unless it is a blank text that is left out. -/
def node : Yaml → Decoded (Option Node)
  | y@(.mapping _ []) => d.fail y .emptyNode
  | .mapping _ ((kind, value) :: rest) => do
    let text ← d.scalar value
    let name := kind.text
    if name == "text" then d.textNode kind text rest
    else if name == "bound_text" then d.boundTextNode kind value text rest
    else if name == "content" then d.contentNode kind text rest
    else if name == "element" then
      let draft ← parts false rest {}
      return some (.element (d.span kind) text draft.parts draft.children)
    else if name == "template" then
      let draft ← parts true rest {}
      return some (.template (d.span kind) text draft.parts draft.vars draft.children)
    else d.unknownKey kind "node kind" nodeKinds
  | y@(.scalar ..) => if y.isNull then d.fail y .emptyNode else d.fail y .notMapping
  | y@(.sequence ..) => d.fail y .notMapping

/-- Reads nodes one after the other. -/
def nodeList : List Yaml → Decoded (List Node)
  | [] => return []
  | y :: ys => do
    let n ← node y
    return n.toList ++ (← nodeList ys)

def parts (isTemplate : Bool) : List (Yaml × Yaml) → Draft → Decoded Draft
  | [], draft => return draft
  | (key, value) :: rest, draft => do
    if key.text == "children" then
      let children ← nodes value
      parts isTemplate rest { draft with children }
    else parts isTemplate rest (← d.part isTemplate key value draft)

def nodes : Yaml → Decoded (List Node)
  | .sequence _ items => nodeList items
  | y@(.scalar ..) => if y.isNull then return [] else d.fail y .notSequence
  | y@(.mapping ..) => d.fail y .notSequence

end

end Document

end TemplateCompiler
