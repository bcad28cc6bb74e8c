import TemplateCompiler.Fault

/-!
# Printed lines

A `Page` holds the lines printed so far, the last one being written. Each line has the indentation
it was started with, and its parts remember the source they were made from, so that
`Page.spanAt` finds the source of a printed column.

Printing is done in steps (`Print`), which `Page.run` carries out. Indentations are words. A line
whose indentation cannot be written spoils the page (`Page.fault?`); what `Page.source` gives is the
text of the other pages.
-/

namespace TemplateCompiler

/-- A printed part with the source it was made from. -/
structure Part where
  text : Text
  span : Option SourceSpan
  deriving DecidableEq, Repr

/-- A printed line. -/
structure Line where
  indent : Int
  /-- What is printed on it, the latest part first. -/
  printed : List Part := []
  deriving DecidableEq, Repr

namespace Line

def parts (l : Line) : List Part := l.printed.reverse

def isEmpty (l : Line) : Bool := l.printed.isEmpty

def add (part : Part) (l : Line) : Line := { l with printed := part :: l.printed }

/-- The bytes of a line without its indentation. -/
def body (l : Line) : Text := l.parts.flatMap Part.text

/-- How far a line reaches, with its indentation. -/
def length (l : Line) : Int := Word.wrap (l.indent * 2 + l.body.length)

/-- The line as it is written; an empty line is not indented. -/
def text (l : Line) : Text :=
  if l.isEmpty then [] else List.replicate (2 * l.indent.toNat) ' '.toUInt8 ++ l.body

/-- Why a line cannot be written: it starts to the left of the page, or too far to the right. -/
def fault? (l : Line) : Option Defect :=
  if l.isEmpty then none
  else if l.indent < 0 then some .negativeIndent
  else if Word.largest < l.indent * 2 then some .endlessIndent
  else none

/-- The source of the part that covers a column counted from the first part. -/
def partAt : Int → List Part → Option SourceSpan
  | _, [] => none
  | column, p :: ps =>
    if column < p.text.length then p.span else partAt (column - p.text.length) ps

def spanAt (l : Line) (column : Int) : Option SourceSpan :=
  partAt (Word.wrap (column - l.indent * 2)) l.parts

end Line

/-- A step of printing. -/
inductive Print where
  | part (text : Text) (span : Option SourceSpan)
  | newline
  | indent
  | dedent
  deriving DecidableEq, Repr

/-- Lines in the making. -/
structure Page where
  /-- The finished lines, the latest first. -/
  finished : List Line
  current : Line
  indent : Int
  deriving DecidableEq, Repr

namespace Page

def start (indent : Int) : Page := ⟨[], ⟨indent, []⟩, indent⟩

def lines (p : Page) : List Line := (p.current :: p.finished).reverse

/-- Whether nothing was printed on the current line. -/
def lineIsEmpty (p : Page) : Bool := p.current.isEmpty

/-- Changes the indentation, also that of a current line still empty. -/
def setIndent (p : Page) (indent : Int) : Page :=
  { p with indent, current := if p.lineIsEmpty then ⟨indent, []⟩ else p.current }

/-- Carries out a step. Empty parts leave no trace. -/
def step (p : Page) : Print → Page
  | .part text span =>
    if text.isEmpty then p
    else { p with current := p.current.add ⟨text, span⟩ }
  | .newline => { p with finished := p.current :: p.finished, current := ⟨p.indent, []⟩ }
  | .indent => p.setIndent (Word.wrap (p.indent + 1))
  | .dedent => p.setIndent (Word.wrap (p.indent - 1))

def run (p : Page) (steps : List Print) : Page := steps.foldl step p

/-- Goes back to the line before if the current one is empty. -/
def removeEmptyLast (p : Page) : Page :=
  match p.lineIsEmpty, p.finished with
  | true, l :: ls => { p with finished := ls, current := l }
  | _, _ => p

/-- The lines that are written: all but a last line that is empty. -/
def shown (p : Page) : List Line := if p.lineIsEmpty then p.finished.reverse else p.lines

def source (p : Page) : Text := Text.join "\n" (p.shown.map Line.text)

/-- Why a page cannot be written. -/
def fault? (p : Page) : Option Defect := p.shown.findSome? Line.fault?

/-- The printed text, if the page can be written. -/
def written (p : Page) : Except Defect Text :=
  match p.fault? with
  | some d => throw d
  | none => return p.source

def spanAt (p : Page) (line : Nat) (column : Int) : Option SourceSpan :=
  (p.lines[line]?).bind fun l => l.spanAt column

end Page

end TemplateCompiler
