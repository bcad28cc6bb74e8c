import TemplateCompiler.Fault
import TemplateCompiler.Text.Point

/-!
# Names in templates
-/

namespace TemplateCompiler

/-- Whether a character is a letter or digit of ASCII or an underscore. -/
def isWordChar (c : Char) : Bool := Text.isLetter c.toNat || Text.isDigit c.toNat || c == '_'

/-- A name with an underscore for every character that cannot stand in an identifier. -/
def sanitize (name : Text) : Text :=
  name.points.flatMap fun p => if isWordChar p.toChar then p.bytes else ['_'.toUInt8]

/-- The namespace and the local name of an element. A name with a namespace is written
`:namespace:name`. -/
def splitName (name : Text) : Except Failure (Text × Text) :=
  match name with
  | [] => return ([], [])
  | b :: r =>
    if b == ':'.toUInt8 then
      match Text.cut? r ":" with
      | some parts => return parts
      | none => throw (.of (.elementName name))
    else return ([], name)

/-- Whether an attribute is about internationalization. -/
def isI18n (name : Text) : Bool := name == "i18n" || ("i18n-" : Text).isPrefixOf name

end TemplateCompiler
