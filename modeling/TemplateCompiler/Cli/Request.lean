import TemplateCompiler.Cli.Flag
import TemplateCompiler.Config.Basic
import TemplateCompiler.Text.Similar

/-!
# Requests

A command line names a command, with flags before and after it, and a word the command is about.
`Request.ofWords` says what is asked for.
-/

namespace TemplateCompiler

def programName : Text := "ngc-lower"

/-- What can be asked for by name. -/
inductive Command where
  | compile
  | expr
  deriving DecidableEq, Repr

namespace Command

def sharedFlags : List Flag := [.config, .name, .preserveWhitespaces, .variadic]

/-- The flags of a command, or of the program if no command is named. -/
def flags : Option Command → List Flag
  | none => [.version, .help] ++ sharedFlags
  | some compile => [.definition, .help] ++ sharedFlags
  | some expr => [.action, .id, .help] ++ sharedFlags

def ofName? (name : Text) : Option Command :=
  if name == "compile" then some compile
  else if name == "expr" then some expr
  else none

/-- The names that are suggested in place of unknown ones. -/
def suggestedNames : List Text := ["compile", "expr", "watch", "completion"]

/-- The distance between two texts, byte by byte. -/
def distance (s t : Text) : Nat :=
  let chars (text : Text) : List Char := text.map fun b => Char.ofNat b.toNat
  Text.editDistance (chars s) (chars t)

/-- The names that an unknown one may stand for: it is the start of them, or has at most two
letters wrong. -/
def suggestions (name : Text) : List Text :=
  suggestedNames.filter fun n => distance name.lower n ≤ 2 || name.lower.isPrefixOf n

end Command

/-- What is wrong with a command line. -/
inductive UsageError where
  | unknownCommand (name : Text)
  | flag (e : FlagError)
  /-- More or fewer words than the one that a command takes. -/
  | wordCount (n : Nat)
  deriving DecidableEq, Repr

namespace UsageError

def message : UsageError → Text
  | unknownCommand name =>
    let names := Command.suggestions name
    let line (n : Text) : Text := "\t" ++ n ++ "\n"
    let hint : Text :=
      if names.isEmpty then [] else "\n\nDid you mean this?\n" ++ names.flatMap line
    "unknown command " ++ name.quoted ++ " for " ++ programName.quoted ++ hint
  | flag e => e.message
  | wordCount n => "accepts 1 arg(s), received " ++ Text.ofNat n

end UsageError

/-- What the flags of all commands choose. -/
structure SharedOptions where
  /-- The file with the configuration, or nothing. -/
  configPath : Text := []
  /-- Choices that count for more than the file. -/
  settings : List Setting := []
  deriving DecidableEq, Repr

/-- What a command line asks for. -/
inductive Request where
  | version
  | usage
  | compile (options : SharedOptions) (definition : Bool) (path : Text)
  | expr (options : SharedOptions) (action : Bool) (binding : Text) (source : Text)
  deriving DecidableEq, Repr

namespace Request

/-- Whether a word before the command is followed by its value. Only the switches of all commands
are known there; any other flag without `=` has a value. -/
def takesNext (word : Text) : Bool :=
  let isKnown (f : Flag) : Bool := f.isSwitch && word == "--" ++ f.long
  !word.contains '='.toUInt8
    && ((List.isPrefixOf ("--" : Text) word && !Command.sharedFlags.any isKnown)
      || (List.isPrefixOf ("-" : Text) word && word.length == 2))

/-- Takes the name of the command out of a list of words: the first word that is no flag, no value
of one and not empty. A flag with a value ends the search unless two words follow it. -/
def splitCommand? : List Text → Option (Text × List Text)
  | [] => none
  | word :: rest =>
    if word == "--" then none
    else if takesNext word then
      match rest with
      | value :: next :: more =>
        (splitCommand? (next :: more)).map fun (name, words) => (name, word :: value :: words)
      | _ => none
    else if word.isEmpty || word.head? == some '-'.toUInt8 then
      (splitCommand? rest).map fun (name, words) => (name, word :: words)
    else some (word, rest)

/-- The choices in the flags of all commands. -/
def sharedOptions (a : Arguments) : SharedOptions where
  configPath := (a.value? .config).getD []
  settings :=
    ((a.value? .name).map Setting.templateName).toList
      ++ ((a.switch? .preserveWhitespaces).map Setting.keepBlanks).toList
      ++ ((a.switch? .variadic).map Setting.variadic).toList

/-- The request of a command whose command line was taken apart. -/
def ofArguments (command : Option Command) (a : Arguments) : Except UsageError Request :=
  if a.isOn .help then return usage
  else
    match command, a.words with
    | none, _ => return if a.isOn .version then version else usage
    | some .compile, [path] => return compile (sharedOptions a) (a.isOn .definition) path
    | some .expr, [source] =>
      return expr (sharedOptions a) (a.isOn .action) ((a.value? .id).getD "0") source
    | _, words => throw (.wordCount words.length)

def ofWords (words : List Text) : Except UsageError Request := do
  let (command, words) ←
    match splitCommand? words with
    | none => pure (none, words)
    | some (name, words) =>
      match Command.ofName? name with
      | some command => pure (some command, words)
      | none => throw (.unknownCommand name)
  ofArguments command (← (Arguments.parse (Command.flags command) words).mapError .flag)

end Request

end TemplateCompiler
