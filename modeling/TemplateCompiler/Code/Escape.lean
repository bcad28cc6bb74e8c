import TemplateCompiler.Text.Point

/-!
# Names and strings in generated code

`escapeIdentifier` escapes what cannot stand between single quotes, and adds the quotes if they
are asked for or if the result is no plain name.
-/

namespace TemplateCompiler

/-- A byte as it stands between single quotes. -/
def escapeByte (dollar : Bool) (b : UInt8) : Text :=
  if b == '\''.toUInt8 || b == '\\'.toUInt8 || (dollar && b == '$'.toUInt8) then ['\\'.toUInt8, b]
  else if b == '\n'.toUInt8 then "\\n"
  else if b == '\r'.toUInt8 then "\\r"
  else [b]

/-- The letters, among them the two outside ASCII whose other case is one of ASCII, and `_`, `$`. -/
def isPlainStart (p : Point) : Bool :=
  match p with
  | .char c =>
    Text.isLetter c.toNat || c == '_' || c == '$' || c.toNat == 0x17F || c.toNat == 0x212A
  | .stray _ => false

/-- What may follow in a plain name. -/
def isPlainPart (p : Point) : Bool :=
  isPlainStart p ||
    match p with
    | .char c => Text.isDigit c.toNat
    | .stray _ => false

/-- Whether a text can stand as a key without quotes. -/
def isPlainName (text : Text) : Bool :=
  match text.points with
  | [] => false
  | p :: ps => isPlainStart p && ps.all isPlainPart

/-- The text escaped, and in quotes if they are needed or asked for. -/
def escapeIdentifier (text : Text) (dollar quote : Bool) : Text :=
  let body := text.flatMap (escapeByte dollar)
  if quote || !isPlainName body then "'" ++ body ++ "'" else body

end TemplateCompiler
