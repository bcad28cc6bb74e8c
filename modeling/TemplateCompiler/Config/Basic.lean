import TemplateCompiler.Config.Placeholder
import TemplateCompiler.Template.Compile
import TemplateCompiler.Yaml.Parser
import TemplateCompiler.Yaml.Value

/-!
# Configurations

A `Config` is what can be chosen about a compilation apart from the template. It is read from a
YAML mapping whose keys are all optional:

    template_name: App
    inline_interpolation_limit: 4
    use_variadic_interpolation: false
    preserve_whitespaces: true
    view_query_function: false

Every key that is set is a `Setting`; settings are applied in order.
-/

namespace TemplateCompiler

/-- The largest interpolation that has an instruction of its own. -/
def maxInterpolation : Int := 8

/-- The choices of a compilation. -/
structure Config where
  /-- The name of the component, used if the template has none. -/
  templateName : Text := []
  /-- The largest interpolation that takes its values one by one. -/
  interpolationLimit : Int := maxInterpolation
  /-- Whether all interpolations take their values in an array. -/
  variadic : Bool := false
  /-- Whether texts of blanks only are kept. -/
  keepBlanks : Bool := false
  /-- Whether queries have a function of their own. -/
  queryFunction : Bool := false
  deriving DecidableEq, Repr

/-- A single choice. -/
inductive Setting where
  | templateName (name : Text)
  | interpolationLimit (limit : Int)
  | variadic (on : Bool)
  | keepBlanks (on : Bool)
  | queryFunction (on : Bool)
  deriving DecidableEq, Repr

/-- Why there is no configuration. -/
inductive ConfigError where
  | yaml (e : YamlError)
  /-- The document is no mapping. -/
  | notMapping
  /-- A key is there twice. -/
  | duplicate (key : Text)
  /-- A key or a value is not of the type it should have. -/
  | mistyped (key : Text)
  | limit (n : Int)
  deriving DecidableEq, Repr

namespace ConfigError

def message : ConfigError → Text
  | yaml e => "failed to parse config: " ++ e.message
  | notMapping => "failed to parse config: expected a mapping"
  | duplicate key => "failed to parse config: " ++ key ++ " is there twice"
  | mistyped key => "failed to parse config: wrong type at " ++ key
  | limit n =>
    "invalid inline_interpolation_limit: " ++ Text.ofInt n ++ " (must be 1-"
      ++ Text.ofInt maxInterpolation ++ ")"

end ConfigError

namespace Config

def set (c : Config) : Setting → Config
  | .templateName name => { c with templateName := name }
  | .interpolationLimit limit => { c with interpolationLimit := limit }
  | .variadic on => { c with variadic := on }
  | .keepBlanks on => { c with keepBlanks := on }
  | .queryFunction on => { c with queryFunction := on }

/-- The configuration with choices made one after the other. -/
def setAll (c : Config) (settings : List Setting) : Config := settings.foldl set c

/-- The settings of a template before its own are known. -/
def templateSettings (c : Config) : TemplateSettings where
  name := c.templateName
  interpolationLimit := c.interpolationLimit
  variadic := c.variadic
  queryFunction := c.queryFunction

/-- Accepts a configuration whose limit has instructions. -/
def validate (c : Config) : Except ConfigError Config :=
  if 1 ≤ c.interpolationLimit ∧ c.interpolationLimit ≤ maxInterpolation then return c
  else throw (.limit c.interpolationLimit)

/-! ### Reading -/

/-- The choice that an entry of the document makes; null chooses nothing, and so does an unknown
key. -/
def setting? (key value : Yaml) : Except ConfigError (Option Setting) :=
  match key with
  | .scalar _ name _ =>
    let typed {α : Type} (read : Option α) (setting : α → Setting) :
        Except ConfigError (Option Setting) :=
      if value.isNull then return none
      else
        match read with
        | some a => return some (setting a)
        | none => throw (.mistyped name)
    if name == "template_name" then typed value.scalarText? .templateName
    else if name == "inline_interpolation_limit" then typed value.int? .interpolationLimit
    else if name == "use_variadic_interpolation" then typed value.bool? .variadic
    else if name == "preserve_whitespaces" then typed value.bool? .keepBlanks
    else if name == "view_query_function" then typed value.bool? .queryFunction
    else return none
  | _ => throw (.mistyped [])

def duplicate? : List (Yaml × Yaml) → Option Yaml
  | [] => none
  | (key, _) :: r => if r.any fun e => key.sameKey e.1 then some key else duplicate? r

def settings : Option Yaml → Except ConfigError (List Setting)
  | none => return []
  | some (.mapping _ entries) => do
    if let some key := duplicate? entries then throw (.duplicate key.text)
    return (← entries.mapM fun (key, value) => setting? key value).filterMap id
  | some y => if y.isNull then return [] else throw .notMapping

/-- Reads a configuration after the placeholders in its text were filled in. -/
def parse (env : Text → Text) (text : Text) : Except ConfigError Config := do
  let document ← (Yaml.parse (text.expand env)).mapError .yaml
  validate (Config.setAll {} (← settings document))

end Config

end TemplateCompiler
