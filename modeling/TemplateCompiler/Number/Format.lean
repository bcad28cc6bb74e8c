import TemplateCompiler.Number.Shortest

/-!
# Numbers as text

Two layouts of the shortest decimal, `Double.plain` and `Double.compact`.
-/

namespace TemplateCompiler

def digitText (ds : List Nat) : Text := ds.map fun d => UInt8.ofNat (48 + d)

namespace Decimal

def positional (d : Decimal) : Text :=
  if d.digits.isEmpty then "0"
  else if d.exponent ≤ 0 then
    "0." ++ List.replicate (-d.exponent).toNat '0'.toUInt8 ++ digitText d.digits
  else
    let n := d.exponent.toNat
    if d.digits.length ≤ n then
      digitText d.digits ++ List.replicate (n - d.digits.length) '0'.toUInt8
    else digitText (d.digits.take n) ++ "." ++ digitText (d.digits.drop n)

/-- Exponent notation: one digit before the point, a signed exponent of at least two digits. -/
def scientific (d : Decimal) : Text :=
  let x := d.exponent - 1
  let mark : Text := if x < 0 then "e-" else "e+"
  let size := Text.ofNat x.natAbs
  let padded : Text := if size.length < 2 then "0" ++ size else size
  let fraction : Text := if d.digits.length ≤ 1 then [] else "." ++ digitText (d.digits.drop 1)
  digitText (d.digits.take 1) ++ fraction ++ mark ++ padded

/-- Exponent notation for exponents below -4 and from 6 on, positional notation between. -/
def mixed (d : Decimal) : Text :=
  if ¬ d.digits.isEmpty ∧ (d.exponent - 1 < -4 ∨ 6 ≤ d.exponent - 1) then d.scientific
  else d.positional

end Decimal

namespace Double

/-- A double written with a layout for the digits of its magnitude. -/
def format (layout : Decimal → Text) (d : Double) : Text :=
  match d.value with
  | .nan => "NaN"
  | .infinite negative => if negative then "-Inf" else "+Inf"
  | .finite negative m q =>
    let digits := if m = 0 then ⟨[], 0⟩ else shortest m q
    if negative then "-" ++ layout digits else layout digits

/-- Positional notation however long it gets. -/
def plain (d : Double) : Text := d.format Decimal.positional

/-- Positional or exponent notation by size. -/
def compact (d : Double) : Text := d.format Decimal.mixed

end Double

end TemplateCompiler
