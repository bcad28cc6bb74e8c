import TemplateCompiler.Text.Basic

/-!
# Double precision numbers

A `Double` is its 64 bits, so two of them are equal only if no program can tell them apart.
Everything else is exact arithmetic on natural numbers:

* `Double.value` : the number the bits stand for, as `m * 2 ^ q`;
* `Double.ofRatio` : the double nearest to a fraction, ties to the even one;
* `Double.ofDecimal`, `Double.ofBinary` : the double nearest to `digits * 10 ^ exponent`, or to
  `digits * 2 ^ exponent`;
* `Double.same` : numeric equality, under which the zeros agree and a NaN agrees with nothing.
-/

namespace TemplateCompiler

/-- A double precision number, given by its bits. -/
structure Double where
  bits : UInt64
  deriving DecidableEq, Repr

namespace Double

/-- What the bits of a double stand for. -/
inductive Value where
  | nan
  | infinite (negative : Bool)
  /-- The number `mantissa * 2 ^ exponent`. -/
  | finite (negative : Bool) (mantissa : Nat) (exponent : Int)
  deriving DecidableEq, Repr

def negative (d : Double) : Bool := Nat.pow 2 63 ≤ d.bits.toNat

/-- The number the bits stand for. -/
def value (d : Double) : Value :=
  let field : Nat := d.bits.toNat / Nat.pow 2 52 % Nat.pow 2 11
  let fraction : Nat := d.bits.toNat % Nat.pow 2 52
  if field = 2047 then
    if fraction = 0 then .infinite d.negative else .nan
  else if field = 0 then .finite d.negative fraction (-1074)
  else .finite d.negative (fraction + Nat.pow 2 52) ((field : Int) - 1075)

/-- The bits of a double without its sign, with the sign put in front. -/
def ofMagnitude (negative : Bool) (bits : Nat) : Double :=
  ⟨UInt64.ofNat (if negative then bits + Nat.pow 2 63 else bits)⟩

def zero : Double := ⟨0⟩

def nan : Double := ⟨0x7FF8000000000001⟩

def infinity (negative : Bool) : Double := ofMagnitude negative (2047 * Nat.pow 2 52)

/-- The quotient rounded to the nearest number, a half to the even one. -/
def roundDiv (num den : Nat) : Nat :=
  let q := num / den
  let twice := 2 * (num % den)
  if twice < den then q else if den < twice then q + 1 else q + q % 2

/-- The double nearest to `num / den`. The unit in the last place is the power of two that gives
the quotient 53 bits, but never less than the smallest positive double. -/
def ofRatio (negative : Bool) (num den : Nat) : Double :=
  if num = 0 then ofMagnitude negative 0
  else
    let log : Int := (num.log2 : Int) - den.log2
    -- `log` is the exponent of the leading bit or one more
    let top : Int :=
      if num * Nat.pow 2 (-log).toNat < den * Nat.pow 2 log.toNat then log - 1 else log
    let unit := max (top - 52) (-1074)
    let m := roundDiv (num * Nat.pow 2 (-unit).toNat) (den * Nat.pow 2 unit.toNat)
    -- a carry out of `m` moves into the exponent field by itself
    ofMagnitude negative (min ((unit + 1074).toNat * Nat.pow 2 52 + m) (2047 * Nat.pow 2 52))

/-- The double nearest to a natural number. -/
def ofNat (n : Nat) : Double := ofRatio false n 1

/-- The double nearest to `digits * 10 ^ exponent`. Powers far outside the range of doubles are
not computed. -/
def ofDecimal (negative : Bool) (digits : Nat) (exponent : Int) : Double :=
  let size : Int := (digits.log2 : Int)
  if digits = 0 ∨ exponent * 3 + size < -1200 then ofMagnitude negative 0
  else if 400 < exponent then infinity negative
  else ofRatio negative (digits * Nat.pow 10 exponent.toNat) (Nat.pow 10 (-exponent).toNat)

/-- The double nearest to `digits * 2 ^ exponent`. Powers far outside the range of doubles are not
computed. -/
def ofBinary (negative : Bool) (digits : Nat) (exponent : Int) : Double :=
  let top : Int := (digits.log2 : Int) + exponent
  if digits = 0 ∨ top < -1100 then ofMagnitude negative 0
  else if 1100 < top then infinity negative
  else ofRatio negative (digits * Nat.pow 2 exponent.toNat) (Nat.pow 2 (-exponent).toNat)

def same (a b : Double) : Bool :=
  match a.value, b.value with
  | .nan, _ => false
  | _, .nan => false
  | .finite _ 0 _, .finite _ 0 _ => true
  | _, _ => a == b

end Double

end TemplateCompiler
