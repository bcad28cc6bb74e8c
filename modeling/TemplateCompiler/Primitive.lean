import TemplateCompiler.Number.Format

/-!
# Primitive values

The values a literal can have, in binding expressions and in generated code alike. Whole numbers
and doubles are different values even if they print alike.
-/

namespace TemplateCompiler

/-- The value of a literal. -/
inductive Primitive where
  | null
  | bool (b : Bool)
  | text (t : Text)
  | int (n : Int)
  | double (d : Double)
  deriving DecidableEq, Repr

namespace Primitive

/-- Whether two values are equal as numbers, truth values, texts or nulls. -/
def same : Primitive → Primitive → Bool
  | double a, double b => a.same b
  | a, b => a == b

def isNaN : Primitive → Bool
  | double d => d.value == .nan
  | _ => false

end Primitive

/-- A key of a map literal, and whether it is written in quotes. -/
structure MapKey where
  name : Text
  quoted : Bool
  deriving DecidableEq, Repr

end TemplateCompiler
