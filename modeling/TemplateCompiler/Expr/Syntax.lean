import TemplateCompiler.Expr.Lexer
import TemplateCompiler.Text.Blank

/-!
# Syntax errors

A `SyntaxError` is a cause, the place it was found at, and the expression it was found in. The
wording is in `SyntaxError.message` and `SyntaxError.text`.
-/

namespace TemplateCompiler

/-- Why an expression cannot be read. -/
inductive SyntaxCause where
  | lexical (message : Text)
  | blank
  | blankInterpolation
  | interpolation
  | missing (byte : UInt8)
  | noName (token : Text)
  | noKey (token : Text)
  | chained
  | trailing (token : Text)
  | pipeInAction
  | incompleteConditional (source : Text)
  | endOfExpression (input : Text)
  | unexpected (token : Text)
  | safeAssignment
  | assignment
  deriving DecidableEq, Repr

def SyntaxCause.message : SyntaxCause → Text
  | lexical m => m
  | blank => "Blank expressions are not allowed"
  | blankInterpolation => "Blank expressions are not allowed in interpolated strings"
  | interpolation => "Got interpolation (\x7b\x7b\x7d\x7d) where expression was expected"
  | missing b => "Missing expected " ++ [b]
  | noName t => "Unexpected token " ++ t ++ ", expected identifier or keyword"
  | noKey t => "Unexpected token " ++ t ++ ", expected identifier, keyword, or string"
  | chained => "Binding expression cannot contain chained expression"
  | trailing t => "Unexpected token '" ++ t ++ "'"
  | pipeInAction => "Cannot have a pipe in an action expression"
  | incompleteConditional s => "Conditional expression " ++ s ++ " requires all 3 expressions"
  | endOfExpression input => "Unexpected end of expression: " ++ input
  | unexpected t => "Unexpected token " ++ t
  | safeAssignment => "The '?.' operator cannot be used in the assignment"
  | assignment => "Bindings cannot contain assignments"

/-- Where in an expression an error was found. -/
inductive SyntaxPlace where
  | unknown
  | atEnd
  | column (n : Nat)
  deriving DecidableEq, Repr

def SyntaxPlace.text : SyntaxPlace → Text
  | unknown => []
  | atEnd => "at the end of the expression"
  | column n => "at column " ++ Text.ofNat n ++ " in"

/-- A syntax error in the expression `input` of the binding at `location`. -/
structure SyntaxError where
  cause : SyntaxCause
  place : SyntaxPlace
  input : Text
  location : Text
  deriving DecidableEq, Repr

def SyntaxError.text (e : SyntaxError) : Text :=
  let core : Text :=
    "Parser Error: " ++ e.cause.message ++ " " ++ e.place.text ++ " [" ++ e.input ++ "]"
  if e.location.isEmpty then core else core ++ " in " ++ e.location

end TemplateCompiler
