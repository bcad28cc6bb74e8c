import TemplateCompiler.Text.Point

/-!
# YAML documents

A document is a tree of scalars, sequences and mappings. Mappings keep the order of their entries
and may have a key twice. Each node knows where it starts, since errors are reported there.

The documents read here have no anchors, aliases, tags, directives or block scalars.
-/

namespace TemplateCompiler

/-- A place in a document, counted from zero in characters. -/
structure Mark where
  line : Nat
  column : Nat
  /-- How many characters stand before it. -/
  index : Nat
  deriving DecidableEq, Repr

namespace Mark

def start : Mark := ⟨0, 0, 0⟩

/-- The place `n` characters further on in the same line. -/
def move (n : Nat) (m : Mark) : Mark := ⟨m.line, m.column + n, m.index + n⟩

/-- The start of the next line. -/
def newline (m : Mark) : Mark := ⟨m.line + 1, 0, m.index + 1⟩

/-- The start of a line that is not before `m`: `m` itself, or the line after it. -/
def lineStart (m : Mark) : Mark := if m.column = 0 then m else ⟨m.line + 1, 0, m.index⟩

end Mark

/-- A node of a document. -/
inductive Yaml where
  /-- A scalar; `plain` says that it stands without quotes. -/
  | scalar (mark : Mark) (text : Text) (plain : Bool)
  | sequence (mark : Mark) (items : List Yaml)
  | mapping (mark : Mark) (entries : List (Yaml × Yaml))

/-- Why a text is no document. -/
inductive YamlError where
  /-- A character that no document holds, or that nothing starts with. -/
  | character
  /-- An escape sequence that means nothing. -/
  | escape
  /-- Quotes without an end. -/
  | unclosed
  /-- A key without a colon. -/
  | missingColon
  /-- An entry or key where there can be none, or wrong indentation. -/
  | misplaced
  /-- A piece of a document out of place. -/
  | unexpected
  /-- Collections inside each other beyond all measure. -/
  | depth
  deriving DecidableEq, Repr

def YamlError.message : YamlError → Text
  | character => "unexpected character"
  | escape => "unknown escape sequence"
  | unclosed => "missing closing quote"
  | missingColon => "could not find expected ':'"
  | misplaced => "entry out of place"
  | unexpected => "did not find expected node content"
  | depth => "exceeded max depth"

namespace Yaml

def mark : Yaml → Mark
  | scalar m _ _ | sequence m _ | mapping m _ => m

def missing (m : Mark) : Yaml := scalar m [] true

/-- The text of a scalar; other nodes have none. -/
def text : Yaml → Text
  | scalar _ t _ => t
  | _ => []

/-- The text of a scalar, if the node is one. -/
def scalarText? : Yaml → Option Text
  | scalar _ t _ => some t
  | _ => none

/-- Whether two nodes are the same as keys: scalars of one text, or both sequences or both
mappings. -/
def sameKey : Yaml → Yaml → Bool
  | scalar _ s _, scalar _ t _ => s == t
  | sequence .., sequence .. | mapping .., mapping .. => true
  | _, _ => false

/-- Whether a node is null: a plain scalar that is empty or says so. -/
def isNull : Yaml → Bool
  | scalar _ t true => (["", "~", "null", "Null", "NULL"].map Text.ofString).contains t
  | _ => false

/-! ### Characters -/

/-- Whether a character ends a line. -/
def isBreak (c : Char) : Bool := c == '\n' || c == '\u0085' || c == '\u2028' || c == '\u2029'

def isBlank (c : Char) : Bool := c == ' ' || c == '\t'

/-- Whether a text is over or goes on with a blank or a line break. -/
def atBlank : List Char → Bool
  | [] => true
  | c :: _ => isBlank c || isBreak c

/-- Whether a text starts with a line that separates documents. -/
def atDocumentMark : List Char → Bool
  | '-' :: '-' :: '-' :: r => atBlank r
  | '.' :: '.' :: '.' :: r => atBlank r
  | _ => false

end Yaml

end TemplateCompiler
