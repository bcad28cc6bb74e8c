import TemplateCompiler.Number.Read
import TemplateCompiler.Number.Word
import TemplateCompiler.Yaml.Basic

/-!
# Values of scalars

What a scalar means where a truth value or a whole number is wanted.
-/

namespace TemplateCompiler.Yaml

/-- The words for true and for false, with and without quotes. -/
def boolWords : List (Text × Bool) :=
  (["y", "Y", "yes", "Yes", "YES", "on", "On", "ON"].map fun w => (Text.ofString w, true))
    ++ ["n", "N", "no", "No", "NO", "off", "Off", "OFF"].map fun w => (Text.ofString w, false)

/-- The words for true and for false that stand without quotes. -/
def plainBoolWords : List (Text × Bool) :=
  (["true", "True", "TRUE"].map fun w => (Text.ofString w, true))
    ++ ["false", "False", "FALSE"].map fun w => (Text.ofString w, false)

def bool? : Yaml → Option Bool
  | scalar _ t plain => ((if plain then plainBoolWords else []) ++ boolWords).lookup t
  | _ => none

/-! ### Whole numbers -/

/-- The number with the given digits, of which there is at least one. -/
def inBase? (base : Nat) (digits : Text) : Option Nat :=
  if digits.isEmpty || !digits.all (Text.isDigitOf base) then none else some (digits.number base)

/-- A number without a sign; a base other than ten is given by what it starts with. -/
def natural? : Text → Option Nat
  | [] => none
  | [b] => inBase? 10 [b]
  | z :: x :: r =>
    if z ≠ '0'.toUInt8 then inBase? 10 (z :: x :: r)
    else if x == 'x'.toUInt8 || x == 'X'.toUInt8 then inBase? 16 r
    else if x == 'b'.toUInt8 || x == 'B'.toUInt8 then inBase? 2 r
    else if x == 'o'.toUInt8 || x == 'O'.toUInt8 then inBase? 8 r
    else inBase? 8 (x :: r)

/-- A number with its sign, if it is a word. -/
def signed? (negative : Bool) (n : Nat) : Option Int :=
  let v : Int := if negative then -n else n
  if Word.smallest ≤ v ∧ v ≤ Word.largest then some v else none

/-- The whole part of a finite double, if it is not above all words. The smallest word stands for
the number just above the words and for all below them. -/
def truncate? (d : Double) : Option Int :=
  match d.value with
  | .nan | .infinite _ => none
  | .finite negative mantissa exponent =>
    let size : Nat :=
      if 0 ≤ exponent then mantissa * Nat.pow 2 exponent.toNat
      else mantissa / Nat.pow 2 (-exponent).toNat
    let n : Int := if negative then -size else size
    if Word.largest + 1 < n then none
    else if n < Word.smallest || n == Word.largest + 1 then some Word.smallest
    else some n

/-- Whether a text is a decimal number, with an exponent or without: digits with at most one point
among or around them. -/
def isDecimal (text : Text) : Bool :=
  let isDigit (b : UInt8) : Bool := Text.isDigit b.toNat
  let (_, t) := text.unsigned
  let whole := t.takeWhile isDigit
  let afterWhole := t.dropWhile isDigit
  let (fraction, rest) : Option Text × Text := match afterWhole with
    | b :: r =>
      if b == '.'.toUInt8 then (some (r.takeWhile isDigit), r.dropWhile isDigit)
      else (none, afterWhole)
    | [] => (none, [])
  let exponent : Bool := match rest with
    | [] => true
    | e :: r =>
      let ds := (Text.unsigned r).2
      (e == 'e'.toUInt8 || e == 'E'.toUInt8) && !ds.isEmpty && ds.all isDigit
  (!whole.isEmpty || !(fraction.getD []).isEmpty) && exponent

/-- A number of base two or eight with its sign after the letter of the base. -/
def innerSigned? (text : Text) : Option Int := do
  let base ← [(("0b" : Text), 2), (("0o" : Text), 8)].lookup (text.take 2)
  let (negative, digits) := Text.unsigned (text.drop 2)
  signed? negative (← inBase? base digits)

/-- The whole number that a number with an optional sign is cut to. -/
def numeric? (text : Text) : Option Int :=
  let (negative, digits) := text.unsigned
  let cut : Option Int := if isDecimal text then (Double.read? text).bind truncate? else none
  match natural? digits with
  | some n =>
    -- a number without a sign may be a word too large to be signed
    if digits == text && Word.largest < n && n < Word.count then none
    else (signed? negative n).or cut
  | none => cut.or (innerSigned? text)

/-- The whole number a plain text stands for; underscores are passed over. -/
def number? (text : Text) : Option Int :=
  match text with
  | [] => none
  | b :: _ =>
    if [("-.inf" : Text), "-.Inf", "-.INF"].contains text then some Word.smallest
    else if Text.isDigit b.toNat || b == '+'.toUInt8 || b == '-'.toUInt8 then
      numeric? (text.filter (· != '_'.toUInt8))
    else if b == '.'.toUInt8 then (Double.read? text).bind truncate?
    else none

def int? : Yaml → Option Int
  | scalar _ t true => number? t
  | _ => none

end TemplateCompiler.Yaml
