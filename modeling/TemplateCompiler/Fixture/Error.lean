import TemplateCompiler.Expr.Syntax
import TemplateCompiler.Selector.Basic
import TemplateCompiler.Source
import TemplateCompiler.Text.Quoted
import TemplateCompiler.Text.Similar

/-!
# Errors in fixtures
-/

namespace TemplateCompiler

/-- What is wrong with a fixture. -/
inductive FixtureCause where
  | notMapping
  | notSequence
  | notScalar
  | notBoolean
  /-- A key that means nothing where it stands, with what it should be and the keys that would
  do. -/
  | unknownKey (what key : Text) (accepted : List Text)
  | unexpectedKey (key : Text)
  | incompleteDirective
  | badSelector (selector : Text) (error : SelectorError)
  | incompleteQuery
  | deferredReferences
  | emptyNode
  | noInterpolation
  | badExpression (errors : List SyntaxError)
  | misplacedVariables
  | missingPhase (listener : Text)

namespace FixtureCause

def message : FixtureCause → Text
  | notMapping => "expected a mapping"
  | notSequence => "expected a sequence"
  | notScalar => "expected a scalar"
  | notBoolean => "expected a boolean"
  | unknownKey what key accepted =>
    let hint : Text :=
      match Text.closest? key accepted with
      | some name => ", did you mean " ++ name.quoted ++ "?"
      | none => " (expected one of " ++ Text.join ", " accepted ++ ")"
    "unknown " ++ what ++ " " ++ key.quoted ++ hint
  | unexpectedKey key => "unexpected key " ++ key.quoted
  | incompleteDirective => "a directive needs a selector and a type"
  | badSelector selector e => "invalid selector " ++ selector.quoted ++ ": " ++ e.message
  | incompleteQuery => "a query needs a property and a predicate"
  | deferredReferences => "forward_ref needs a type predicate"
  | emptyNode => "empty template node"
  | noInterpolation => "bound_text without interpolation"
  | badExpression errors => Text.join "\n" (errors.map SyntaxError.text)
  | misplacedVariables => "let is only allowed on templates"
  | missingPhase listener => "animation listener " ++ listener.quoted ++ " needs a phase"

end FixtureCause

/-- An error and where it is. -/
structure FixtureError where
  location : Location
  cause : FixtureCause

def FixtureError.message (e : FixtureError) : Text := e.location.text ++ ": " ++ e.cause.message

end TemplateCompiler
