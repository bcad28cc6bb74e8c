import TemplateCompiler.Number.Double

/-!
# Shortest decimals

`Double.shortest` is the decimal with the fewest digits that reads back as the given double, and
of those the nearest one. The reals that round to `m * 2 ^ q` form an interval around it; for one,
two, … digits the two neighbours of the value on that decimal grid are tried, and the first grid
with a neighbour in the interval wins. All comparisons are between natural numbers.
-/

namespace TemplateCompiler

/-- The number `0.d₁d₂… * 10 ^ exponent`, without zeros at either end of its digits. -/
structure Decimal where
  digits : List Nat
  exponent : Int
  deriving DecidableEq, Repr

namespace Decimal

/-- The digits of a number, most significant first. -/
def digitsOf (n : Nat) : List Nat := (Nat.toDigits 10 n).map fun c => c.toNat - 48

def ofScaled (n : Nat) (shift : Int) : Decimal :=
  let ds := digitsOf n
  ⟨(ds.reverse.dropWhile (· == 0)).reverse, shift + ds.length⟩

end Decimal

namespace Double

/-- How far `num / den < 1` must be multiplied by ten to reach one, within `fuel` steps. -/
def leadingZeros (num den : Nat) : Nat → Nat
  | 0 => 0
  | fuel + 1 => if den ≤ num then 0 else leadingZeros (num * 10) den fuel + 1

/-- The exponent `k` with `10 ^ (k - 1) ≤ num / den < 10 ^ k`. -/
def decimalExponent (num den : Nat) : Int :=
  if den ≤ num then (Decimal.digitsOf (num / den)).length else 1 - (leadingZeros num den 400 : Nat)

/-- The interval of the reals that round to a double, in quarters of its last place. -/
structure Rounding where
  low : Nat
  middle : Nat
  high : Nat
  /-- Whether the ends themselves round to it. -/
  closed : Bool
  /-- The power of two that a quarter of the last place is. -/
  exponent : Int

/-- The reals that round to `m * 2 ^ q`. Below a power of two the spacing is halved. -/
def Rounding.of (m : Nat) (q : Int) : Rounding where
  low := if m = Nat.pow 2 52 ∧ -1074 < q then 4 * m - 1 else 4 * m - 2
  middle := 4 * m
  high := 4 * m + 2
  closed := m % 2 = 0
  exponent := q - 2

/-- The best decimal with at most `n` digits in the interval; `k` is the decimal exponent of its
middle. -/
def Rounding.decimal? (r : Rounding) (k : Int) (n : Nat) : Option Decimal :=
  let shift : Int := k - n
  -- a grid point `d` lies at `d * grid` and a quarter `x` at `x * quarter`
  let grid := Nat.pow 10 shift.toNat * Nat.pow 2 (-r.exponent).toNat
  let quarter := Nat.pow 2 r.exponent.toNat * Nat.pow 10 (-shift).toNat
  let inside (d : Nat) : Bool :=
    if r.closed then r.low * quarter ≤ d * grid && d * grid ≤ r.high * quarter
    else r.low * quarter < d * grid && d * grid < r.high * quarter
  let middle := r.middle * quarter
  let down := middle / grid
  let up := down + 1
  let nearer := 2 * middle < (down + up) * grid ∨ (2 * middle = (down + up) * grid ∧ down % 2 = 0)
  if inside down ∧ (¬ inside up ∨ nearer) then some (.ofScaled down shift)
  else if inside up then some (.ofScaled up shift)
  else none

/-- The shortest decimal that reads back as `m * 2 ^ q`. -/
def shortest (m : Nat) (q : Int) : Decimal :=
  let r := Rounding.of m q
  let k := decimalExponent (m * Nat.pow 2 q.toNat) (Nat.pow 2 (-q).toNat)
  ((List.range 17).findSome? fun i => r.decimal? k (i + 1)).getD (.ofScaled 0 0)

end Double

end TemplateCompiler
