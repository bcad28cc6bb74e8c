import TemplateCompiler.Text.Basic

/-!
# Versions

A version is written as its parts with points between them; the third part is the rest.
-/

namespace TemplateCompiler

/-- A version taken apart. -/
structure Version where
  full : Text
  major : Text
  minor : Text
  patch : Text
  deriving DecidableEq, Repr

/-- The parts of a written version; missing ones are empty. -/
def Version.ofText (full : Text) : Version :=
  let parts := Text.splitOn '.'.toUInt8 full
  ⟨full, parts.headD [], parts.getD 1 [], Text.join "." (parts.drop 2)⟩

def Version.current : Version := .ofText "0.4.0"

end TemplateCompiler
