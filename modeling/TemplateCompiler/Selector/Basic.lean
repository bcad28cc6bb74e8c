import TemplateCompiler.Text.Fold
import TemplateCompiler.Text.Blank

/-!
# Selectors

A selector says which elements a directive applies to: a `Compound` of an element name, class
names and attributes, and negations that are compounds themselves. Class names and attribute values
are kept in lower case. An empty element name stands for any element, an empty attribute value for
any value.
-/

namespace TemplateCompiler

/-- The positive part of a selector. -/
structure Compound where
  element : Text := []
  classes : List Text := []
  attrs : List (Text × Text) := []
  deriving DecidableEq, Repr

/-- A compound and the compounds that must not hold. -/
structure Selector extends Compound where
  nots : List Compound := []
  deriving DecidableEq, Repr

/-- Why a selector cannot be read. -/
inductive SelectorError where
  | nestedNot
  | listInNot
  /-- An attribute name has a dollar sign without a backslash. -/
  | bareDollar (name : Text)
  deriving DecidableEq, Repr

def SelectorError.message : SelectorError → Text
  | nestedNot => "Nesting :not is not allowed in a selector"
  | listInNot => "Multiple selectors in :not are not supported"
  | bareDollar a =>
    "Error in attribute selector \"" ++ a
      ++ "\". Unescaped \"$\" is not supported. Please escape with \"\\$\"."

/-! ### Attribute names -/

/-- Puts a backslash before backslashes and dollar signs. -/
def escapeAttribute (name : Text) : Text :=
  name.flatMap fun b =>
    if b == '\\'.toUInt8 || b == '$'.toUInt8 then ['\\'.toUInt8, b] else [b]

/-- Removes backslashes, or is `none` at a dollar sign without one. A backslash at the end is
dropped. -/
def unescapeBytes : Text → Option Text
  | [] => some []
  | b :: r =>
    if b == '\\'.toUInt8 then
      match r with
      | [] => some []
      | c :: r' => (unescapeBytes r').map (c :: ·)
    else if b == '$'.toUInt8 then none
    else (unescapeBytes r).map (b :: ·)

def unescapeAttribute (name : Text) : Except SelectorError Text :=
  match unescapeBytes name with
  | some t => .ok t
  | none => .error (.bareDollar name)

/-! ### Building selectors -/

namespace Compound

def addAttribute (c : Compound) (name value : Text) : Compound :=
  { c with attrs := c.attrs ++ [(name, value.lower)] }

def addClass (c : Compound) (name : Text) : Compound :=
  { c with classes := c.classes ++ [name.lower] }

def attributeText : Text × Text → Text
  | (name, value) =>
    if value.isEmpty then "[" ++ escapeAttribute name ++ "]"
    else "[" ++ escapeAttribute name ++ "=" ++ value ++ "]"

def text (c : Compound) : Text :=
  c.element ++ c.classes.flatMap ('.'.toUInt8 :: ·) ++ c.attrs.flatMap attributeText

/-- What an element is matched by: its name and attributes. The value of a class attribute also
gives the classes. -/
def ofElement (name : Text) (attributes : List (Text × Text)) : Compound :=
  attributes.foldl
    (fun c (n, v) =>
      let c := c.addAttribute n v
      if n.lower == "class" then (Text.words v).foldl addClass c else c)
    { element := name }

end Compound

namespace Selector

def notText (c : Compound) : Text := ":not(" ++ c.text ++ ")"

def text (s : Selector) : Text := s.toCompound.text ++ s.nots.flatMap notText

def hasElement (s : Selector) : Bool := !s.element.isEmpty

/-- Whether a selector is the name of an element and nothing else. -/
def isElement (s : Selector) : Bool :=
  s.hasElement && s.classes.isEmpty && s.attrs.isEmpty && s.nots.isEmpty

end Selector

end TemplateCompiler
