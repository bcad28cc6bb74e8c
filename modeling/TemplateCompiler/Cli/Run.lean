import TemplateCompiler.Cli.Folder
import TemplateCompiler.Cli.Request
import TemplateCompiler.Code.Emit
import TemplateCompiler.Fixture.Basic
import TemplateCompiler.Version

/-!
# Running requests

What a command prints depends on its words, on the files it reads and on the environment. A
`Surroundings` holds the latter two.

* `compileFile` : the declarations of a template, or its definition;
* `lowerSource` : the code of a single expression;
* `Request.run` : what a request prints.
-/

namespace TemplateCompiler

/-- What lies outside the program. -/
structure Surroundings where
  /-- The content of a file. -/
  file : Text → Except FileError Text
  /-- The value of an environment variable, empty if there is none. -/
  env : Text → Text

/-- Why a request fails. -/
inductive CliError where
  | usage (e : UsageError)
  /-- A file that cannot be read. -/
  | noConfig (path : Text) (e : FileError)
  | noFixture (path : Text) (e : FileError)
  | config (e : ConfigError)
  | fixture (e : FixtureFailure)
  | unreadable (errors : List SyntaxError)
  /-- A template that does not compile. -/
  | template (path : Text) (f : Failure)
  | lowering (f : Failure)

namespace CliError

def message : CliError → Text
  | usage e => e.message
  | noConfig path e => "failed to read config: " ++ e.message path
  | noFixture path e => "failed to read fixture: " ++ e.message path
  | config e => e.message
  | fixture e => e.message
  | unreadable errors => Text.join "\n" (errors.map SyntaxError.text)
  | template path f => path ++ ": " ++ f.message
  | lowering f => f.message

end CliError

/-- The configuration in a file, or else the default one, with the choices of the flags. -/
def SharedOptions.config (o : SharedOptions) (s : Surroundings) : Except CliError Config := do
  let base ←
    if o.configPath.isEmpty then pure {}
    else
      let text ← (s.file o.configPath).mapError (.noConfig o.configPath)
      (Config.parse s.env text).mapError .config
  return base.setAll o.settings

/-! ### Templates -/

/-- The text of a compiled template: its declarations, or its constants and its definition. -/
def CompiledTemplate.text (c : CompiledTemplate) (names : Names) (definition : Bool) :
    Except Defect Text := do
  if definition then
    let constants ← Stmt.text c.statements names
    let gap : Text := if c.statements.isEmpty then [] else "\n"
    return constants ++ gap ++ (← c.definition.term.text names) ++ "\n"
  else return (← Stmt.text c.declarations names) ++ "\n"

def compileFile (s : Surroundings) (c : Config) (definition : Bool) (path : Text) :
    Except CliError Text := do
  let content ← (s.file path).mapError (.noFixture path)
  let fixture ← (Fixture.decode ⟨path, content⟩ c.keepBlanks).mapError .fixture
  match compileTemplate (fixture.settings c.templateSettings) fixture.nodes {} with
  | (.error f, _) => throw (.template path f)
  | (.ok template, pool) =>
    (template.text pool.names definition).mapError fun d => .template path (.defect d)

/-! ### Expressions -/

/-- The host of an expression that stands alone: only the event is local. -/
def aloneHost (c : Config) : Host Unit where
  context := .ofVar contextName
  lookup name := return eventOnly name
  notify := return ()
  builtin kind args := return kind.written args
  interpolate args := return inlineOrVariadic (if c.variadic then 0 else c.interpolationLimit) args

def lowerHandler (c : Config) (binding : Text) (e : Expr) : Except Failure (List Stmt) := do
  let code ← ((lowerAction (aloneHost c) e binding).run.run ()).1
  return code.statements

/-- Lowers the value of a property to statements that return it. -/
def lowerValue (c : Config) (binding : Text) (e : Expr) : Except Failure (List Stmt) := do
  let e ← e.replaceBuiltins BuiltinFactory.literal
  let code ← ((lowerProperty (aloneHost c) e binding true).run.run ()).1
  return code.statements ++ [.ret none code.value]

/-- Reads and lowers an expression. -/
def lowerSource (c : Config) (action : Bool) (binding source : Text) : Except CliError Text := do
  let location : Text := "expr"
  let parsed :=
    if action then parseAction source location 0
    else (parseInterpolation source location 0).getD (parseBinding source location 0)
  let e ← parsed.mapError .unreadable
  let statements ←
    (if action then lowerHandler c binding e else lowerValue c binding e).mapError .lowering
  let text ← (Stmt.text statements).mapError fun d => .lowering (.defect d)
  return text ++ "\n"

/-! ### Requests -/

def usageText : Text :=
  "Usage:\n  " ++ programName ++ " compile <fixture.yaml>\n  " ++ programName
    ++ " expr <expression>\n"

namespace Request

def paths : Request → List Text
  | version | usage => []
  | compile o _ path => [o.configPath, path]
  | expr o _ _ _ => [o.configPath]

def run (s : Surroundings) : Request → Except CliError Text
  | version => return programName ++ " version " ++ Version.current.full ++ "\n"
  | usage => return usageText
  | compile o definition path => do compileFile s (← o.config s) definition path
  | expr o action binding source => do lowerSource (← o.config s) action binding source

end Request

def runWords (s : Surroundings) (words : List Text) : Except CliError Text := do
  (← (Request.ofWords words).mapError CliError.usage).run s

end TemplateCompiler
