import TemplateCompiler.Text.Printable

/-!
# Quoted text

`Text.quoted` writes a text between double quotes in such a way that the text can be read off:
printable characters stand for themselves, all others and stray bytes are escaped.
-/

namespace TemplateCompiler

/-- The digits of a number in base sixteen, at least `width` of them. -/
def hexText (width n : Nat) : Text :=
  let ds := (Nat.toDigits 16 n).map Char.toUInt8
  List.replicate (width - ds.length) '0'.toUInt8 ++ ds

/-- The letter that a control character is written with after a backslash. -/
def controlLetter? (code : Nat) : Option Char :=
  [(7, 'a'), (8, 'b'), (9, 't'), (10, 'n'), (11, 'v'), (12, 'f'), (13, 'r')].lookup code

/-- A character as it stands between quotes of the given kind. -/
def charQuotedIn (quote c : Char) : Text :=
  if c = quote ∨ c = '\\' then "\\" ++ String.utf8EncodeChar c
  else if isPrintable c then String.utf8EncodeChar c
  else
    match controlLetter? c.toNat with
    | some l => ['\\'.toUInt8, l.toUInt8]
    | none =>
      if c.toNat < 0x80 then "\\x" ++ hexText 2 c.toNat
      else if c.toNat < 0x10000 then "\\u" ++ hexText 4 c.toNat
      else "\\U" ++ hexText 8 c.toNat

def Point.quoted : Point → Text
  | .stray b => "\\x" ++ hexText 2 b.toNat
  | .char c => charQuotedIn '"' c

/-- A character between single quotes. -/
def charQuoted (c : Char) : Text := "'" ++ charQuotedIn '\x27' c ++ "'"

def Text.quoted (text : Text) : Text := "\"" ++ text.points.flatMap Point.quoted ++ "\""

end TemplateCompiler
