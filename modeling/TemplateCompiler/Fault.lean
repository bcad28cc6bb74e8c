import TemplateCompiler.Source
import TemplateCompiler.Expr.Basic
import TemplateCompiler.Text.Quoted

/-!
# Failures of a compilation

A `CompileError` is a `Cause` with the places that became known on the way out: the span of the
node being compiled and the range within its binding expression. Causes that break an invariant of
the compiler itself are *internal*, and no place is attached to them.

A `Defect` is a request that no compilation should make at all.
-/

namespace TemplateCompiler

/-- Why a compilation is given up. -/
inductive Cause where
  -- lowering of expressions
  | notStatement (source : Text)
  | notExpression (source : Text)
  | unsupportedOperator (operator : Text)
  | unconvertedPipe (name : Text)
  | unconvertedArray
  | unconvertedMap
  | interpolationShape (expressions texts : Nat)
  | pipeInAction (name : Text)
  | anyArguments (count : Nat)
  | readOnly (value name : Text)
  | quote (text location : Text)
  | usedAfterRelease (name : Text)
  | releasedOutOfOrder (name : Text)
  | unreleased (count : Nat) (binding : Text)
  -- names and templates
  | elementName (name : Text)
  | defined (name existing : Text)
  | unexpectedInterpolation
  | interpolationLength (n : Nat)
  | unsupportedFeature (feature : Text)
  | unsupportedNode (node : Text)
  | unsupportedBinding (type : Text)
  | unsupportedPredicate (property : Text)
  | selector (message : Text)
  | other (message : Text)
  deriving DecidableEq, Repr

namespace Cause

def message : Cause → Text
  | notStatement s => "Expected a statement, but saw " ++ s
  | notExpression s => "Expected an expression, but saw " ++ s
  | unsupportedOperator o => "Unsupported operation " ++ o
  | unconvertedPipe n =>
    "Illegal state: Pipes should have been converted into functions. Pipe: " ++ n
  | unconvertedArray => "Illegal State: literal arrays should have been converted into functions"
  | unconvertedMap => "Illegal State: literal maps should have been converted into functions"
  | interpolationShape e t =>
    "Interpolation of " ++ Text.ofNat e ++ " expressions has " ++ Text.ofNat t ++ " strings"
  | pipeInAction n => "Illegal State: Actions are not allowed to contain pipes. Pipe: " ++ n
  | anyArguments n =>
    "Invalid call to $any, expected 1 argument but received "
      ++ if n = 0 then ("none" : Text) else Text.ofNat n
  | readOnly v n =>
    "Cannot assign value " ++ v.quoted ++ " to template variable " ++ n.quoted
      ++ ". Template variables are read-only."
  | quote t l =>
    "Quotes are not supported for evaluation!\nStatement: " ++ t ++ " located at " ++ l
  | usedAfterRelease n => "Temporary " ++ n ++ " used after release"
  | releasedOutOfOrder n => "Temporary " ++ n ++ " released out of order"
  | unreleased n b => Text.ofNat n ++ " temporaries of binding " ++ b ++ " were not released"
  | elementName n => "Unsupported format " ++ n.quoted ++ " expecting \":namespace:name\""
  | defined n e => "The name " ++ n ++ " is already defined in scope to be " ++ e
  | unexpectedInterpolation => "Unexpected interpolation"
  | interpolationLength n => "Invalid interpolation argument length " ++ Text.ofNat n
  | unsupportedFeature f => "Feature " ++ f ++ " is not supported yet"
  | unsupportedNode n => "Invalid state: Visitor TemplateDefinitionBuilder doesn't handle " ++ n
  | unsupportedBinding t => "Unsupported binding type " ++ t
  | unsupportedPredicate p => "Unsupported predicate for query " ++ p
  | selector m => m
  | other m => m

end Cause

/-- A compilation that was given up. -/
structure CompileError where
  cause : Cause
  /-- Whether an invariant of the compiler itself is broken. -/
  internal : Bool := false
  /-- The node that was being compiled. -/
  span : Option SourceSpan := none
  /-- The range within the binding expression. -/
  range : Option Span := none
  deriving DecidableEq, Repr

namespace CompileError

def message (e : CompileError) : Text :=
  let core : Text := if e.internal then "Internal Error: " ++ e.cause.message else e.cause.message
  let ranged : Text :=
    match e.range with
    | some r => core ++ " at column " ++ Text.ofInt r.start
    | none => core
  match e.span with
  | some s => ranged ++ " (" ++ s.start.text ++ ")"
  | none => ranged

/-- Attaches the span of a node to an error that has none. -/
def locate (span : Option SourceSpan) (e : CompileError) : CompileError :=
  if e.internal then e else { e with span := e.span.or span }

/-- Attaches the range of a node to an error that has none. -/
def locateRange (range : Option Span) (e : CompileError) : CompileError :=
  if e.internal then e else { e with range := e.range.or range }

end CompileError

/-- A request that makes no sense to the component it was put to. -/
inductive Defect where
  /-- A whole number where only doubles are numbers. -/
  | wholeNumber
  /-- A map literal with more keys than its `count` values. -/
  | missingValue (count : Nat)
  /-- An expression without a key. -/
  | unkeyable (type : Text)
  /-- A literal factory of something else than a collection. -/
  | notCollection (type : Text)
  | unknownOperator
  /-- A line that starts to the left of the page. -/
  | negativeIndent
  /-- A line that starts too far to the right. -/
  | endlessIndent
  | other (message : Text)
  deriving DecidableEq, Repr

def Defect.message : Defect → Text
  | wholeNumber => "Unsupported primitive type: int"
  | missingValue n =>
    "runtime error: index out of range [" ++ Text.ofNat n ++ "] with length " ++ Text.ofNat n
  | unkeyable t => "KeyOf does not handle expressions of type " ++ t
  | notCollection t => "GetLiteralFactory only supports literal arrays and maps, got " ++ t
  | unknownOperator => "Unknown operator 99"
  | negativeIndent => "strings: negative Repeat count"
  | endlessIndent => "strings: Repeat output length overflow"
  | other m => m

/-- How a compilation can fail. -/
inductive Failure where
  | error (e : CompileError)
  | defect (d : Defect)
  deriving DecidableEq, Repr

namespace Failure

def message : Failure → Text
  | error e => e.message
  | defect d => d.message

/-- Attaches the span of a node to an error that has none. -/
def locate (span : Option SourceSpan) : Failure → Failure
  | error e => error (e.locate span)
  | defect d => defect d

/-- Attaches the range of a node to an error that has none. -/
def locateRange (range : Option Span) : Failure → Failure
  | error e => error (e.locateRange range)
  | defect d => defect d

def of (cause : Cause) : Failure := error { cause }

def inRange (range : Option Span) (cause : Cause) : Failure := error { cause, range }

def illegal (cause : Cause) : Failure := error { cause, internal := true }

end Failure

end TemplateCompiler
