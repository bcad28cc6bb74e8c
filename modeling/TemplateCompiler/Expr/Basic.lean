import TemplateCompiler.Number.Word
import TemplateCompiler.Primitive

/-!
# Binding expressions

`Expr` is the tree of a binding expression. Each node carries its `Place`: the bytes it covers in
the text of the binding and in the file the binding stands in.

Pipes and literal collections are *builtins*: before an expression becomes code they are replaced
by `Expr.builtin` nodes, whose `Builtin` says what to build from the arguments.
-/

namespace TemplateCompiler

/-- The bytes from `start` up to `stop`. -/
structure Span where
  start : Int
  stop : Int
  deriving DecidableEq, Repr

/-- The span moved `n` bytes to the right. -/
def Span.shift (n : Int) (s : Span) : Span := ⟨Word.wrap (n + s.start), Word.wrap (n + s.stop)⟩

/-- Where a node was read: in the text of its binding, and in the file of the binding. -/
structure Place where
  span : Option Span
  source : Option Span
  deriving DecidableEq, Repr

namespace Place

/-- The place of a node; a missing source range is that of a binding at the start of its file. -/
def of (span source : Option Span) : Place := ⟨span, source.or (span.map (Span.shift 0))⟩

/-- The place of a span in a binding that starts `absolute` bytes into its file. -/
def shifted (absolute : Int) (s : Span) : Place := ⟨some s, some (s.shift absolute)⟩

end Place

/-- What a builtin builds from its arguments. The host of a lowering makes the code, with what it was given
when the builtin was chosen. -/
inductive Builtin where
  | array
  | map (keys : List MapKey)
  /-- The pipe in a data slot, with its first binding slot. -/
  | pipe (slot offset : Nat)
  /-- A call of a function in scope. -/
  | call (function : Text)
  deriving DecidableEq, Repr

/-- A binding expression. -/
inductive Expr where
  /-- The component context, which bare names belong to. -/
  | context (place : Place)
  /-- Expressions separated by semicolons. -/
  | chain (place : Place) (items : List Expr)
  | conditional (place : Place) (condition yes no : Expr)
  | read (place : Place) (receiver : Expr) (name : Text)
  | write (place : Place) (receiver : Expr) (name : Text) (value : Expr)
  /-- The read `receiver?.name`. -/
  | safeRead (place : Place) (receiver : Expr) (name : Text)
  | index (place : Place) (object key : Expr)
  | indexWrite (place : Place) (object key value : Expr)
  | method (place : Place) (receiver : Expr) (name : Text) (args : List Expr)
  /-- The call `receiver?.name(args)`. -/
  | safeMethod (place : Place) (receiver : Expr) (name : Text) (args : List Expr)
  | call (place : Place) (target : Expr) (args : List Expr)
  | binary (place : Place) (operator : Text) (left right : Expr)
  | not (place : Place) (operand : Expr)
  /-- The assertion `operand!` that a value is not null. -/
  | present (place : Place) (operand : Expr)
  | literal (place : Place) (value : Primitive)
  | array (place : Place) (items : List Expr)
  | map (place : Place) (keys : List MapKey) (values : List Expr)
  /-- Texts with expressions between them. -/
  | interpolation (place : Place) (texts : List Text) (items : List Expr)
  /-- The pipe `operand | name:arg₁:arg₂`. -/
  | pipe (place : Place) (operand : Expr) (name : Text) (args : List Expr)
  /-- The escape hatch `scheme: text`, which the compiler rejects. -/
  | quote (place : Place) (scheme text location : Text)
  | builtin (place : Place) (kind : Builtin) (args : List Expr)

namespace Expr

def place : Expr → Place
  | context p | chain p _ | conditional p _ _ _ | read p _ _ | write p _ _ _ | safeRead p _ _
  | index p _ _ | indexWrite p _ _ _ | method p _ _ _ | safeMethod p _ _ _ | call p _ _
  | binary p _ _ _ | not p _ | present p _ | literal p _ | array p _ | map p _ _
  | interpolation p _ _ | pipe p _ _ _ | quote p _ _ _ | builtin p _ _ => p

/-- The bytes a node covers in the text of its binding. -/
def span (e : Expr) : Option Span := e.place.span

/-- The name of a node's kind. -/
def kind : Expr → Text
  | context .. => "ImplicitReceiver"
  | chain .. => "Chain"
  | conditional .. => "Conditional"
  | read .. => "PropertyRead"
  | write .. => "PropertyWrite"
  | safeRead .. => "SafePropertyRead"
  | index .. => "KeyedRead"
  | indexWrite .. => "KeyedWrite"
  | method .. => "MethodCall"
  | safeMethod .. => "SafeMethodCall"
  | call .. => "FunctionCall"
  | binary .. => "Binary"
  | not .. => "PrefixNot"
  | present .. => "NonNullAssert"
  | literal .. => "LiteralPrimitive"
  | array .. => "LiteralArray"
  | map .. => "LiteralMap"
  | interpolation .. => "Interpolation"
  | pipe .. => "BindingPipe"
  | quote .. => "Quote"
  | builtin .. => "BuiltinFunctionCall"

end Expr

end TemplateCompiler
