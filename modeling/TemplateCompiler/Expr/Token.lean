import TemplateCompiler.Number.Format

/-!
# Tokens of binding expressions

A `Token` is a `Lexeme` with the range of bytes it was read from. Only the last token of an
expression can be an error.
-/

namespace TemplateCompiler

def keywords : List Text :=
  ["var", "let", "as", "null", "undefined", "true", "false", "if", "else", "this"]

/-- What a token stands for. -/
inductive Lexeme where
  /-- One of `. ( ) { } [ ] , : ;`. -/
  | character (byte : UInt8)
  | identifier (name : Text)
  | keyword (word : Text)
  /-- A string literal with its escapes undone. -/
  | string (value : Text)
  | operator (symbol : Text)
  | number (value : Double)
  /-- The text cannot be read on; the message says why. -/
  | error (message : Text)
  deriving DecidableEq, Repr

def Lexeme.text : Lexeme → Text
  | character b => [b]
  | identifier t => t
  | keyword t => t
  | string t => t
  | operator t => t
  | number d => d.plain
  | error t => t

/-- A lexeme and the bytes `[start, stop)` it was read from. -/
structure Token where
  start : Nat
  stop : Nat
  lexeme : Lexeme
  deriving DecidableEq, Repr

end TemplateCompiler
