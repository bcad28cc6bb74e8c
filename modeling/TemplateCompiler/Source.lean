import TemplateCompiler.Text.Basic

/-!
# Places in source files

A `SourceSpan` is a range of bytes of a file. A location is printed as the file's address with
line and column, both counted from zero; without a file only the offset is known.
-/

namespace TemplateCompiler

/-- A named piece of source text. -/
structure SourceFile where
  url : Text
  content : Text
  deriving DecidableEq, Repr

/-- A place in a file, or a bare offset. -/
structure Location where
  file : Option SourceFile
  offset : Int
  line : Nat
  column : Nat
  deriving DecidableEq, Repr

namespace Location

/-- The location of an offset. Past the end of a file it is the end. -/
def ofOffset (file : Option SourceFile) (offset : Int) : Location :=
  match file with
  | none => ⟨none, offset, 0, 0⟩
  | some f =>
    let before : Text := f.content.take offset.toNat
    let (line, column) := before.lineColumn
    ⟨some f, before.length, line, column⟩

def text (l : Location) : Text :=
  match l.file with
  | none => "@" ++ Text.ofInt l.offset
  | some f => f.url ++ "@" ++ Text.ofNat l.line ++ ":" ++ Text.ofNat l.column

end Location

/-- The bytes of a file from `start` up to `stop`. -/
structure SourceSpan where
  start : Location
  stop : Location
  deriving DecidableEq, Repr

namespace SourceSpan

/-- The span between two offsets. -/
def of (file : Option SourceFile) (start stop : Int) : SourceSpan :=
  ⟨.ofOffset file start, .ofOffset file stop⟩

/-- The covered source text, which is empty without a file. -/
def text (s : SourceSpan) : Text :=
  match s.start.file with
  | none => []
  | some f => f.content.slice s.start.offset.toNat s.stop.offset.toNat

end SourceSpan

end TemplateCompiler
