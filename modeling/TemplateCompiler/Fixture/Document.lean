import TemplateCompiler.Fixture.Error
import TemplateCompiler.Yaml.Value

/-!
# Reading nodes of a fixture

A fixture is a YAML document. A `Document` is its source, in which the nodes of the document are
located. The functions here take nodes as what they should be; null stands for what is empty.
-/

namespace TemplateCompiler

/-- The source of a fixture, and how it is read. -/
structure Document where
  file : SourceFile
  /-- Whether texts of blanks only are kept. -/
  keepBlanks : Bool

/-- What was read, or an error. -/
abbrev Decoded := Except FixtureError

namespace Document

/-- The offset at which the line with the given number starts, or the last line before it. -/
def lineStart : (line : Nat) → Text → Nat
  | 0, _ => 0
  | line + 1, text =>
    let width := (text.takeWhile (· != '\n'.toUInt8)).length
    match text.drop width with
    | _ :: after => width + 1 + lineStart line after
    | [] => 0

variable (d : Document)

/-- Where a node is. Its column is counted from the start of its line as if every character had one
byte. -/
def location (y : Yaml) : Location :=
  .ofOffset (some d.file) (lineStart y.mark.line d.file.content + y.mark.column)

def span (y : Yaml) : Option SourceSpan :=
  let l := d.location y
  some ⟨l, l⟩

def fail {α : Type} (y : Yaml) (cause : FixtureCause) : Decoded α := throw ⟨d.location y, cause⟩

/-- A key that means nothing where it stands. -/
def unknownKey {α : Type} (key : Yaml) (what : Text) (accepted : List Text) : Decoded α :=
  d.fail key (.unknownKey what key.text accepted)

def entries (y : Yaml) : Decoded (List (Yaml × Yaml)) :=
  match y with
  | .mapping _ entries => return entries
  | _ => if y.isNull then return [] else d.fail y .notMapping

def items (y : Yaml) : Decoded (List Yaml) :=
  match y with
  | .sequence _ items => return items
  | _ => if y.isNull then return [] else d.fail y .notSequence

def scalar (y : Yaml) : Decoded Text :=
  match y with
  | .scalar _ t _ => if y.isNull then return [] else return t
  | _ => d.fail y .notScalar

/-- The truth value of a scalar. -/
def boolean (y : Yaml) : Decoded Bool :=
  if y.isNull then return false
  else
    match y.bool? with
    | some b => return b
    | none => d.fail y .notBoolean

end Document

end TemplateCompiler
