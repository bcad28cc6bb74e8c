/-!
# Byte text

All text the compiler reads and writes is a list of bytes: sources need not be valid UTF-8, and
every offset, column and span counts bytes.

* `Text.ofString` : the UTF-8 bytes of a string, also a coercion, so that wording is written as
  string literals;
* `Text.ofNat`, `Text.ofInt` : decimal numerals;
* `Text.find?`, `Text.cut?` : the first occurrence of one text in another;
* `Text.splitOn`, `Text.join`, `Text.replace` : pieces of a text.
-/

namespace TemplateCompiler

abbrev Text := List UInt8

instance : LawfulBEq Text := inferInstanceAs (LawfulBEq (List UInt8))

namespace Text

def ofString (s : String) : Text := s.toUTF8.data.toList

instance : Coe String Text := ⟨ofString⟩

/-- The decimal numeral of a number. -/
def ofNat (n : Nat) : Text := (Nat.toDigits 10 n).map Char.toUInt8

/-- The decimal numeral of a number, with a minus sign if it is negative. -/
def ofInt (n : Int) : Text := if n < 0 then "-" ++ ofNat n.natAbs else ofNat n.natAbs

/-- The words `true` and `false`. -/
def ofBool (b : Bool) : Text := if b then "true" else "false"

/-- The UTF-8 bytes of a code point; a number that is none stands for U+FFFD. -/
def ofCode (n : Int) : Text :=
  if 0 ≤ n ∧ n.toNat.isValidChar then String.utf8EncodeChar (Char.ofNat n.toNat)
  else String.utf8EncodeChar (Char.ofNat 0xFFFD)

/-! ### Byte classes -/

def isDigit (code : Nat) : Bool := 48 ≤ code && code ≤ 57

def isLetter (code : Nat) : Bool := (97 ≤ code && code ≤ 122) || (65 ≤ code && code ≤ 90)

/-- Tab to space and the non-breaking space. -/
def isSpace (code : Nat) : Bool := (9 ≤ code && code ≤ 32) || code == 160

/-- Whether a byte may start an identifier. -/
def isNameStart (b : UInt8) : Bool :=
  isLetter b.toNat || b == '_'.toUInt8 || b == '$'.toUInt8

/-- Whether a byte may continue an identifier. -/
def isNamePart (b : UInt8) : Bool := isNameStart b || isDigit b.toNat

/-- An identifier: a name start followed by name parts. -/
def isName : Text → Bool
  | [] => false
  | b :: r => isNameStart b && r.all isNamePart

/-! ### Searching and cutting -/

/-- The index of the first occurrence of `needle`. -/
def find? (needle : Text) : Text → Option Nat
  | [] => if needle.isEmpty then some 0 else none
  | b :: r => if needle.isPrefixOf (b :: r) then some 0 else (find? needle r).map (· + 1)

/-- The parts before and after the first occurrence of `needle`. -/
def cut? (text needle : Text) : Option (Text × Text) :=
  (find? needle text).map fun i => (text.take i, text.drop (i + needle.length))

def has (text needle : Text) : Bool := (find? needle text).isSome

/-- The pieces between occurrences of a byte; one more than it occurs. -/
def splitOn (sep : UInt8) : Text → List Text
  | [] => [[]]
  | b :: r =>
    match splitOn sep r with
    | [] => [[b]]
    | p :: ps => if b == sep then [] :: p :: ps else (b :: p) :: ps

/-- The pieces with `sep` between them. -/
def join (sep : Text) (parts : List Text) : Text := (parts.intersperse sep).flatten

/-- Puts `new` for every occurrence of the byte `old`. -/
def replace (old : UInt8) (new : Text) (text : Text) : Text :=
  text.flatMap fun b => if b == old then new else [b]

/-- How many line breaks a text has, and how many bytes follow the last one. -/
def lineColumn (text : Text) : Nat × Nat :=
  text.foldl (fun (line, col) b => if b == '\n'.toUInt8 then (line + 1, 0) else (line, col + 1))
    (0, 0)

/-- The bytes from `start` up to `stop`. -/
def slice (text : Text) (start stop : Nat) : Text := (text.drop start).take (stop - start)

end Text

end TemplateCompiler
