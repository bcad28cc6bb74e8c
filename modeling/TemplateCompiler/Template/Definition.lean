import TemplateCompiler.Code.Basic

/-!
# Data as code

`Datum` is nested data that becomes a literal. `Definition` is an object literal in the making.
-/

namespace TemplateCompiler

/-- Primitive values, code, and lists of them. -/
inductive Datum where
  | value (v : Primitive)
  | code (t : Term)
  | list (items : List Datum)

namespace Datum

instance : Inhabited Datum := ⟨value .null⟩

def ofTexts (texts : List Text) : Datum := list (texts.map fun t => value (.text t))

mutual

/-- The literal of some data. -/
def term : Datum → Term
  | value v => .ofValue v
  | code t => t
  | list items => .ofList (terms items)

def terms : List Datum → List Term
  | [] => []
  | d :: ds => d.term :: terms ds

end

end Datum

/-- The fields of an object in order. -/
structure Definition where
  fields : List (Text × Term) := []

namespace Definition

/-- Whether a field is always written in quotes. -/
def isUnsafe (name : Text) : Bool := name.contains '-'.toUInt8 || name.contains '.'.toUInt8

/-- Gives a field a value. A field that exists keeps its place, and without a value nothing
changes. -/
def set (name : Text) (value : Option Term) (d : Definition) : Definition :=
  match value with
  | none => d
  | some t =>
    if d.fields.any (·.1 == name) then
      ⟨d.fields.map fun (n, v) => (n, if n == name then t else v)⟩
    else ⟨d.fields ++ [(name, t)]⟩

def term (d : Definition) : Term :=
  .ofEntries (d.fields.map fun (n, v) => (⟨n, isUnsafe n⟩, v))

end Definition

end TemplateCompiler
