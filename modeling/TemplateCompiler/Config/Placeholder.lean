import TemplateCompiler.Text.Basic

/-!
# Placeholders for environment variables

In the text of a configuration, `${NAME}` stands for the value of an environment variable, and
`${NAME:-default}` for the default if the variable is empty or missing.

`Text.pieces` takes a text apart, `Text.expand` puts it together again with the values in place of
the placeholders. Placeholders in values stay as they are.
-/

namespace TemplateCompiler

/-- A place for the value of an environment variable. -/
structure Placeholder where
  name : Text
  /-- What counts if the variable is empty. -/
  default : Text
  deriving DecidableEq, Repr

namespace Placeholder

/-- Whether a byte may stand in the name of a variable. -/
def isNameByte (b : UInt8) : Bool := b != '\x7d'.toUInt8 && b != ':'.toUInt8

def isDefaultByte (b : UInt8) : Bool := b != '\x7d'.toUInt8

/-- The default and the end of a placeholder, given what follows the name: with the default the
number of bytes up to the end. -/
def tail? : Text → Option (Text × Nat)
  | [] => none
  | b :: r =>
    if b == '\x7d'.toUInt8 then some ([], 1)
    else
      match r with
      | [] => none
      | dash :: r =>
        if b == ':'.toUInt8 && dash == '-'.toUInt8 && (r.dropWhile isDefaultByte).length != 0 then
          let default := r.takeWhile isDefaultByte
          some (default, default.length + 3)
        else none

/-- The placeholder at the start of a text, and its length. -/
def atStart? (text : Text) : Option (Placeholder × Nat) :=
  if List.isPrefixOf ("$\x7b" : Text) text then
    let name := (text.drop 2).takeWhile isNameByte
    if name.isEmpty then none
    else (tail? ((text.drop 2).dropWhile isNameByte)).map fun (default, n) =>
      (⟨name, default⟩, name.length + 2 + n)
  else none

def value (env : Text → Text) (p : Placeholder) : Text :=
  if (env p.name).isEmpty then p.default else env p.name

end Placeholder

/-- A byte that stands for itself, or a placeholder. -/
inductive TextPiece where
  | byte (b : UInt8)
  | placeholder (p : Placeholder)
  deriving DecidableEq, Repr

/-- The pieces of a text after its first `skip` bytes. -/
def textPiecesAfter : (skip : Nat) → Text → List TextPiece
  | _, [] => []
  | skip + 1, _ :: r => textPiecesAfter skip r
  | 0, b :: r =>
    match Placeholder.atStart? (b :: r) with
    | some (p, length) => .placeholder p :: textPiecesAfter (length - 1) r
    | none => .byte b :: textPiecesAfter 0 r

def Text.pieces (text : Text) : List TextPiece := textPiecesAfter 0 text

namespace TextPiece

def value (env : Text → Text) : TextPiece → Text
  | byte b => [b]
  | placeholder p => p.value env

def name? : TextPiece → Option Text
  | byte _ => none
  | placeholder p => some p.name

end TextPiece

/-- The text with values in place of placeholders. -/
def Text.expand (env : Text → Text) (text : Text) : Text :=
  text.pieces.flatMap (TextPiece.value env)

/-- The variables that a text asks for, in order. -/
def Text.envNames (text : Text) : List Text := text.pieces.filterMap TextPiece.name?

end TemplateCompiler
