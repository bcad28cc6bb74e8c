import TemplateCompiler.Expr.Printer

/-!
# Template nodes

A template is a forest of `Node`s: texts, elements, nested templates and places where content is
projected. Elements and templates have `Parts`: static attributes, inputs, outputs and references.

`Node.visits` lists everything in a tree in document order.
-/

namespace TemplateCompiler

/-- What an input is bound to. -/
inductive BindingType where
  | property
  | attr
  | cssClass
  | style
  | animation
  /-- Something that cannot be bound. -/
  | unknown
  deriving DecidableEq, Repr

namespace BindingType

/-- The types that have a name of their own. -/
def all : List BindingType := [property, attr, cssClass, style, animation]

def name : BindingType → Text
  | property => "property"
  | attr => "attribute"
  | cssClass => "class"
  | style => "style"
  | animation => "animation"
  | unknown => "unknown"

def ofName? (t : Text) : Option BindingType := all.find? (·.name == t)

end BindingType

/-- A name with a value: a static attribute, a reference or a variable. -/
structure Named where
  name : Text
  value : Text
  span : Option SourceSpan := none

/-- A bound property, attribute, class or style. -/
structure Input where
  name : Text
  type : BindingType
  value : Expr
  unit : Text
  span : Option SourceSpan := none

/-- An event with its handler. -/
structure Output where
  name : Text
  handler : Expr
  /-- The global object that sends the event, or nothing. -/
  target : Text
  /-- The phase of an animation, or nothing. -/
  phase : Text
  span : Option SourceSpan := none

/-- What elements and templates consist of besides their children. -/
structure Parts where
  attrs : List Named := []
  inputs : List Input := []
  outputs : List Output := []
  refs : List Named := []

/-- A single part. -/
inductive NodePart where
  | attr (a : Named)
  | input (i : Input)
  | output (o : Output)
  | reference (r : Named)
  | templateVariable (v : Named)

namespace NodePart

def name : NodePart → Text
  | attr a => a.name
  | input i => i.name
  | output o => o.name
  | reference r => r.name
  | templateVariable v => v.name

/-- The name of a part's kind in messages. -/
def typeName : NodePart → Text
  | attr _ => "*render3.TextAttribute"
  | input _ => "*render3.BoundAttribute"
  | output _ => "*render3.BoundEvent"
  | reference _ => "*render3.Reference"
  | templateVariable _ => "*render3.Variable"

def label : NodePart → Text
  | attr a => "attribute " ++ a.name
  | input i => "input " ++ i.type.name ++ ":" ++ i.name
  | output o => "output " ++ o.name
  | reference r => "reference " ++ r.name
  | templateVariable v => "variable " ++ v.name

end NodePart

/-- A node of a template. -/
inductive Node where
  | text (span : Option SourceSpan) (value : Text)
  | boundText (span : Option SourceSpan) (value : Expr)
  | element (span : Option SourceSpan) (name : Text) (parts : Parts) (children : List Node)
  /-- A template with its own variables. -/
  | template (span : Option SourceSpan) (tag : Text) (parts : Parts) (vars : List Named)
    (children : List Node)
  /-- A place for projected content. -/
  | content (span : Option SourceSpan) (selector : Text) (attrs : List Named)
  /-- A part that does not belong to an element or template. -/
  | misplaced (part : NodePart)

instance : Inhabited Node := ⟨.text none []⟩

/-- Something met in a tree. -/
inductive Visit where
  | node (n : Node)
  | part (p : NodePart)

def visitParts {α : Type} (kind : α → NodePart) (parts : List α) : List Visit :=
  parts.map fun a => .part (kind a)

def Parts.visits (p : Parts) : List Visit :=
  visitParts .attr p.attrs ++ visitParts .input p.inputs ++ visitParts .output p.outputs

namespace Node

mutual

/-- Everything in a tree: a node, its attributes, inputs and outputs, its children, and its
references and variables. -/
def visits : Node → List Visit
  | n@(text ..) | n@(boundText ..) => [.node n]
  | n@(element _ _ parts children) =>
    .node n :: parts.visits ++ visitsAll children ++ visitParts .reference parts.refs
  | n@(template _ _ parts vars children) =>
    .node n :: parts.visits ++ visitsAll children ++ visitParts .reference parts.refs
      ++ visitParts .templateVariable vars
  | n@(content _ _ attrs) => .node n :: visitParts .attr attrs
  | misplaced p => [.part p]

def visitsAll : List Node → List Visit
  | [] => []
  | n :: ns => n.visits ++ visitsAll ns

end

/-- Kind and name, or kind and contents. -/
def label : Node → Except Defect Text
  | text _ v => return "text " ++ v
  | boundText _ v => return "bound_text " ++ (← v.print)
  | element _ n _ _ => return "element " ++ n
  | template _ t _ _ _ => return "template " ++ t
  | content _ s _ => return "content " ++ s
  | misplaced p => return p.label

/-- The contents of a static text, or the name of a part. -/
def value? : Node → Option Text
  | text _ v => some v
  | misplaced p => some p.name
  | _ => none

/-- The selectors of the places for content in a forest, with their spans. -/
def contents (nodes : List Node) : List (Option SourceSpan × Text) :=
  (visitsAll nodes).filterMap fun
    | .node (.content span selector _) => some (span, selector)
    | _ => none

end Node

/-- Kind and name of what was met. -/
def Visit.label : Visit → Except Defect Text
  | node n => n.label
  | part p => return p.label

end TemplateCompiler
