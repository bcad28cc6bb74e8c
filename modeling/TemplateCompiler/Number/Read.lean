import TemplateCompiler.Number.Double

/-!
# Reading numbers

`Double.read?` reads a number: a sign, and then an infinity, `nan`, a decimal such as `1_000.5e-3`
or a number of base sixteen such as `0x1.8p3`. The result is the double nearest to what is written,
so a number that is too large is an infinity.

* `Text.digit?`, `Text.number` : digits and what a sequence of them stands for;
* `Text.separated` : underscores stand between digits only;
* `Double.readDigits?` : digits with a point and an exponent, in either base.
-/

namespace TemplateCompiler

namespace Text

/-- The value of a digit in bases up to sixteen. -/
def digit? (b : UInt8) : Option Nat :=
  let n := b.toNat
  if 48 ≤ n ∧ n ≤ 57 then some (n - 48)
  else if 97 ≤ n ∧ n ≤ 102 then some (n - 87)
  else if 65 ≤ n ∧ n ≤ 70 then some (n - 55)
  else none

def isDigitOf (base : Nat) (b : UInt8) : Bool := ((digit? b).map (decide <| · < base)).getD false

def number (base : Nat) (digits : Text) : Nat :=
  digits.foldl (fun n b => n * base + (digit? b).getD 0) 0

def lowerAscii (text : Text) : Text := text.map fun b => if 65 ≤ b && b ≤ 90 then b + 32 else b

/-- Whether a text starts with a minus sign, and what follows a sign. -/
def unsigned : Text → Bool × Text
  | [] => (false, [])
  | b :: r =>
    if b == '-'.toUInt8 then (true, r)
    else if b == '+'.toUInt8 then (false, r)
    else (false, b :: r)

/-- Whether every underscore stands between digits. What comes before the text counts as a digit if
`after` is set. -/
def separated (base : Nat) : (after : Bool) → Text → Bool
  | _, [] => true
  | after, b :: r =>
    if b == '_'.toUInt8 then
      after && ((r.head?.map (isDigitOf base)).getD false) && separated base false r
    else separated base (isDigitOf base b) r

end Text

namespace Double

/-- How numbers of a base are written and what they mean. -/
structure Base where
  base : Nat
  /-- The letter before an exponent, in lower case. -/
  mark : UInt8
  /-- Whether there must be an exponent. -/
  exponential : Bool
  /-- The double nearest to some digits with the point moved. The digits after the point are
  counted apart from the exponent. -/
  value : (negative : Bool) → (digits places : Nat) → (exponent : Int) → Double

/-- Base ten, with powers of ten. -/
def Base.decimal : Base where
  base := 10
  mark := 'e'.toUInt8
  exponential := false
  value negative digits places exponent := ofDecimal negative digits (exponent - places)

/-- Base sixteen, with powers of two. -/
def Base.hexadecimal : Base where
  base := 16
  mark := 'p'.toUInt8
  exponential := true
  value negative digits places exponent := ofBinary negative digits (exponent - 4 * places)

/-- The number of an exponent. Digits are not counted any more from ten thousand on, where every
double is zero or infinite. -/
def exponentSize (digits : Text) : Nat :=
  digits.foldl (fun n b => if n < 10000 then n * 10 + (Text.digit? b).getD 0 else n) 0

/-- The exponent of a number: a letter with an optional sign and digits. -/
def readExponent? (mark : UInt8) : Text → Option Int
  | [] => none
  | b :: r =>
    let (negative, digits) := Text.unsigned r
    if Text.lowerAscii [b] != [mark] || digits.isEmpty || !digits.all (Text.isDigitOf 10) then none
    else some (if negative then -(exponentSize digits : Int) else exponentSize digits)

/-- Digits with an optional point among or around them, then an exponent. -/
def readDigits? (b : Base) (negative : Bool) (text : Text) : Option Double :=
  let isDigit := Text.isDigitOf b.base
  let whole := text.takeWhile isDigit
  let rest := text.dropWhile isDigit
  let (fraction, tail) :=
    match rest with
    | c :: r => if c == '.'.toUInt8 then (r.takeWhile isDigit, r.dropWhile isDigit) else ([], rest)
    | [] => ([], [])
  let digits := whole ++ fraction
  if digits.isEmpty then none
  else
    let exponent? := if tail.isEmpty && !b.exponential then some 0 else readExponent? b.mark tail
    exponent?.map (b.value negative (Text.number b.base digits) fraction.length)

/-- Reads a number without its sign. -/
def readUnsigned? (negative : Bool) (body : Text) : Option Double :=
  let isHex := Text.lowerAscii (body.take 2) == "0x"
  let b := if isHex then Base.hexadecimal else Base.decimal
  let digits := if isHex then body.drop 2 else body
  if Text.separated b.base isHex digits then
    readDigits? b negative (digits.filter (· != '_'.toUInt8))
  else none

/-- Reads a number. A `nan` has no sign. -/
def read? (text : Text) : Option Double :=
  let (negative, body) := text.unsigned
  let word := body.lowerAscii
  if word == "inf" || word == "infinity" then some (infinity negative)
  else if text.lowerAscii == "nan" then some nan
  else readUnsigned? negative body

end Double

end TemplateCompiler
