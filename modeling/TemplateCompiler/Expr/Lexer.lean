import TemplateCompiler.Expr.Token
import TemplateCompiler.Number.Read

/-!
# Reading tokens

`tokenize` reads a binding expression from left to right. Bytes up to the space and the byte of
the non-breaking space separate tokens. Reading stops at the first error.

`scan` reads the lexeme at the front of the remaining text and says how many bytes after the first
one it takes; `tokensFrom` walks over the text once and skips what was taken.
-/

namespace TemplateCompiler.Lexer

/-- What stands at the front of the remaining text. Positions count from its first byte. -/
inductive Scan where
  /-- A lexeme of `width + 1` bytes. -/
  | lexeme (l : Lexeme) (width : Nat)
  /-- Reading stops `stop` bytes later, for a reason found at `start`. -/
  | failed (reason : Text) (start stop : Nat)
  deriving DecidableEq, Repr

/-! ### Numbers -/

/-- The rest of a numeral. -/
inductive Numeral where
  /-- The numeral takes `width` more bytes; `simple` if they are digits only. -/
  | ends (width : Nat) (simple : Bool)
  /-- No digit follows the exponent mark; the offending byte is the one at `position`. -/
  | badExponent (position : Nat)
  deriving DecidableEq, Repr

/-- A numeral that goes on after `n` more bytes. -/
def Numeral.after (n : Nat) (plain : Bool) : Numeral → Numeral
  | ends width simple => ends (width + n) (simple && plain)
  | badExponent position => badExponent (position + n)

/-- Reads on in a numeral: digits, points and exponents in any number and order. -/
def numeral : Text → Numeral
  | [] => .ends 0 true
  | b :: r =>
    if Text.isDigit b.toNat then (numeral r).after 1 true
    else if b == '.'.toUInt8 then (numeral r).after 1 false
    else if b == 'e'.toUInt8 || b == 'E'.toUInt8 then
      match r with
      | [] => .badExponent 1
      | s :: r' =>
        if Text.isDigit s.toNat then (numeral r').after 2 false
        else if s == '-'.toUInt8 || s == '+'.toUInt8 then
          match r' with
          | [] => .badExponent 2
          | d :: r'' =>
            if Text.isDigit d.toNat then (numeral r'').after 3 false else .badExponent 2
        else .badExponent 1
    else .ends 0 true

/-- The value of a numeral. Digits alone are a whole number of at most `2 ^ 63 - 1`; what is
no decimal counts as zero. -/
def numeralValue (simple : Bool) (text : Text) : Double :=
  if simple then Double.ofNat (min (text.number 10) (Nat.pow 2 63 - 1))
  else (Double.read? text).getD Double.zero

/-- The numeral that starts with `front`, read on in `r`. -/
def scanNumber (front : Text) (simple : Bool) (r : Text) : Scan :=
  match numeral r with
  | .ends width digits =>
    .lexeme (.number (numeralValue (simple && digits) (front ++ r.take width)))
      (width + front.length - 1)
  | .badExponent position =>
    .failed "Invalid exponent" (position + front.length - 1) (position + front.length)

/-! ### Strings -/

/-- The value of hexadecimal digits, at least one. -/
def hexValue? (ds : Text) : Option Nat :=
  if ds.isEmpty then none
  else ds.foldlM (fun n b => (Text.digit? b).map fun d => n * 16 + d) 0

/-- The number that four bytes after `\u` spell; a sign may stand for the first digit. -/
def codeUnit? (ds : Text) : Option Int :=
  match ds with
  | s :: r =>
    if s == '-'.toUInt8 then (hexValue? r).map fun n => -(n : Int)
    else if s == '+'.toUInt8 then (hexValue? r).map Int.ofNat
    else (hexValue? ds).map Int.ofNat
  | [] => none

/-- The code point that a backslash and the byte `b` stand for. -/
def escaped (b : UInt8) : Nat :=
  if b == 'n'.toUInt8 then 10
  else if b == 'f'.toUInt8 then 12
  else if b == 'r'.toUInt8 then 13
  else if b == 't'.toUInt8 then 9
  else if b == 'v'.toUInt8 then 11
  else b.toNat

/-- A string literal after its opening quote. -/
inductive Quoted where
  /-- The literal takes `width` bytes with its closing quote. -/
  | closed (value : Text) (width : Nat)
  | failed (reason : Text) (position : Nat)
  deriving DecidableEq, Repr

/-- A string literal that goes on after `n` bytes for `front`. -/
def Quoted.after (n : Nat) (front : Text) : Quoted → Quoted
  | closed value width => closed (front ++ value) (width + n)
  | failed reason position => failed reason (position + n)

/-- Reads a string literal up to its closing quote. A zero byte ends the text. -/
def quoted (quote : UInt8) : Text → Quoted
  | [] => .failed "Unterminated quote" 0
  | b :: r =>
    if b == quote then .closed [] 1
    else if b == '\\'.toUInt8 then
      match r with
      -- the missing byte is read as well
      | [] => .failed "Unterminated quote" 2
      | c :: r' =>
        if c == 'u'.toUInt8 then
          match r' with
          | h₁ :: h₂ :: h₃ :: h₄ :: rest =>
            match codeUnit? [h₁, h₂, h₃, h₄] with
            | some n => (quoted quote rest).after 6 (Text.ofCode n)
            | none => .failed ("Invalid unicode escape [\\u" ++ [h₁, h₂, h₃, h₄] ++ "]") 1
          | _ => .failed "Invalid unicode escape" 1
        else (quoted quote r').after 2 (Text.ofCode (escaped c))
    else if b == 0 then .failed "Unterminated quote" 0
    else (quoted quote r).after 1 [b]

def scanString (quote : UInt8) (r : Text) : Scan :=
  match quoted quote r with
  | .closed value width => .lexeme (.string value) width
  | .failed reason position => .failed reason (position + 1) (position + 1)

/-! ### Everything else -/

/-- The identifier or keyword that starts with `b`. -/
def scanWord (b : UInt8) (r : Text) : Scan :=
  let more := r.takeWhile Text.isNamePart
  let word := b :: more
  .lexeme (if keywords.contains word then .keyword word else .identifier word) more.length

def agreement : Text → Text → Text
  | m :: ms, c :: r => if m == c then c :: agreement ms r else []
  | _, _ => []

/-- The operator `b`, with as many of the bytes `more` as the text goes on with. -/
def scanOperator (b : UInt8) (more r : Text) : Scan :=
  .lexeme (.operator (b :: agreement more r)) (agreement more r).length

/-- The bytes that are tokens by themselves. -/
def isPunctuation (b : UInt8) : Bool := ("(){}[],:;" : Text).contains b

/-- The operators of one byte that no other operator starts with. -/
def isArithmetic (b : UInt8) : Bool := ("+-*/%" : Text).contains b

/-- Reads the lexeme that starts with `b` before `r`. -/
def scan (b : UInt8) (r : Text) : Scan :=
  if Text.isNameStart b then scanWord b r
  else if Text.isDigit b.toNat then scanNumber [b] true r
  else if b == '.'.toUInt8 then
    match r with
    | d :: r' =>
      if Text.isDigit d.toNat then scanNumber [b, d] false r' else .lexeme (.character b) 0
    | [] => .lexeme (.character b) 0
  else if isPunctuation b then .lexeme (.character b) 0
  else if b == '\''.toUInt8 || b == '"'.toUInt8 then scanString b r
  else if isArithmetic b then .lexeme (.operator [b]) 0
  else if b == '?'.toUInt8 then scanOperator b "." r
  else if b == '<'.toUInt8 || b == '>'.toUInt8 then scanOperator b "=" r
  else if b == '!'.toUInt8 || b == '='.toUInt8 then scanOperator b "==" r
  else if b == '&'.toUInt8 || b == '|'.toUInt8 then scanOperator b [b] r
  else .failed ("Unexpected character [" ++ Text.ofCode b.toNat ++ "]") 1 1

/-- Whether a byte separates tokens: white space does, and so do control characters. -/
def isSeparator (b : UInt8) : Bool := b ≤ 32 || Text.isSpace b.toNat

def errorToken (input reason : Text) (start stop : Nat) : Token :=
  ⟨start, stop, .error ("Lexer Error: " ++ reason ++ " at column " ++ Text.ofNat start
    ++ " in expression [" ++ input ++ "]")⟩

/-- The tokens of the rest of `input` that starts at `position`, after `skip` bytes. -/
def tokensFrom (input : Text) (position : Nat) : (skip : Nat) → Text → List Token
  | _, [] => []
  | skip + 1, _ :: r => tokensFrom input (position + 1) skip r
  | 0, b :: r =>
    if isSeparator b then tokensFrom input (position + 1) 0 r
    else
      match scan b r with
      | .lexeme l width =>
        ⟨position, position + width + 1, l⟩ :: tokensFrom input (position + 1) width r
      | .failed reason start stop =>
        [errorToken input reason (position + start) (position + stop)]

end TemplateCompiler.Lexer

namespace TemplateCompiler

def tokenize (input : Text) : List Token := Lexer.tokensFrom input 0 0 input

end TemplateCompiler
