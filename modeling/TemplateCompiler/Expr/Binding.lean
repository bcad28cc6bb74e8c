import TemplateCompiler.Expr.Parser

/-!
# Reading bindings

The three kinds of text an expression comes in:

* `parseAction` : an event handler, with assignments and chains;
* `parseBinding` : the value of a property, or a quote `scheme: text`;
* `parseInterpolation` : text with expressions between double braces.

`splitInterpolation` takes a text apart at its double braces.
-/

namespace TemplateCompiler

/-! ### Interpolations -/

/-- A stretch of text and the expression in braces that ends it. -/
structure Piece where
  before : Text
  expression : Text
  /-- The index of the expression. -/
  offset : Nat
  deriving DecidableEq, Repr

/-- Text cut into pieces, and what follows the last one. -/
structure Interpolated where
  pieces : List Piece
  rest : Text
  deriving DecidableEq, Repr

def Interpolated.texts (t : Interpolated) : List Text := t.pieces.map Piece.before ++ [t.rest]

def openBraces : Text := "\x7b\x7b"

def closeBraces : Text := "\x7d\x7d"

/-- The first piece of a text that starts at `offset`, and the text after it. -/
def nextPiece? (offset : Nat) (text : Text) : Option (Piece × Text) := do
  let (before, inside) ← text.cut? openBraces
  let (expression, after) ← inside.cut? closeBraces
  return (⟨before, expression, offset + before.length + 2⟩, after)

/-- Cuts at most `n` pieces off a text that starts at `offset`. -/
def cutPieces : (n offset : Nat) → Text → Interpolated
  | 0, _, text => ⟨[], text⟩
  | n + 1, offset, text =>
    match nextPiece? offset text with
    | none => ⟨[], text⟩
    | some (piece, after) =>
      let more := cutPieces n (piece.offset + piece.expression.length + 2) after
      ⟨piece :: more.pieces, more.rest⟩

/-- The text cut at its double braces, if it has any with an end. -/
def splitInterpolation (text : Text) : Option Interpolated :=
  let t := cutPieces text.length 0 text
  if t.pieces.isEmpty then none else some t

def Interpolated.errors (t : Interpolated) (input location : Text) : List SyntaxError :=
  (t.pieces.filter fun p => Text.isBlank p.expression).map fun p =>
    ⟨.blankInterpolation, .column (p.offset - 2), input, location⟩

/-! ### Bindings -/

/-- The errors of an expression that cannot be read, or the expression. -/
abbrev Parsed := Except (List SyntaxError) Expr

/-- Reads one expression; a syntax error is the only one. -/
def parseExpression (cx : Parser.Setting) : Parsed := (Parser.parse cx).mapError ([·])

/-- Reads an event handler. -/
def parseAction (input location : Text) (absolute : Int) : Parsed :=
  parseExpression ⟨input, location, absolute, 0, true⟩

/-- A binding `scheme: text` whose scheme is an identifier. -/
def parseQuote? (input location : Text) (absolute : Int) : Option Expr := do
  let (front, text) ← input.cut? ":"
  let scheme := Text.trim front
  if Text.isName scheme then
    return .quote (Place.shifted absolute ⟨0, input.length⟩) scheme text location
  else none

/-- Reads the value of a property. -/
def parseBinding (input location : Text) (absolute : Int) : Parsed :=
  match parseQuote? input location absolute with
  | some q => .ok q
  | none =>
    match splitInterpolation input with
    | none => parseExpression ⟨input, location, absolute, 0, false⟩
    | some t =>
      .error (t.errors input location
        ++ [⟨.interpolation, .column (t.texts.headD []).length, input, location⟩])

/-- Reads text with interpolations, if it has any. -/
def parseInterpolation (input location : Text) (absolute : Int) : Option Parsed :=
  (splitInterpolation input).map fun t =>
    match t.errors input location with
    | [] => do
      let es ← t.pieces.mapM fun p =>
        parseExpression ⟨p.expression, location, absolute, p.offset, false⟩
      return .interpolation (Place.shifted absolute ⟨0, input.length⟩) t.texts es
    | errors => .error errors

end TemplateCompiler
