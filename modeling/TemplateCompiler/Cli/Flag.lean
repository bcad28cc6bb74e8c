import TemplateCompiler.Text.Quoted

/-!
# Flags

A flag is given by its name after two dashes or by its letter after one; letters may share a dash.
Its value follows after `=` or as the next word. A *switch* takes no word: without `=` it is on.
Flags and other words may stand in any order; after the word `--` there are no flags.

* `Arguments.parse` : the flags in a list of words, in order, and the other words.
-/

namespace TemplateCompiler

/-- The flags of all commands. -/
inductive Flag where
  | config
  | name
  | preserveWhitespaces
  | variadic
  | definition
  | action
  | id
  | version
  | help
  deriving DecidableEq, Repr

namespace Flag

def long : Flag → Text
  | config => "config"
  | name => "name"
  | preserveWhitespaces => "preserve-whitespaces"
  | variadic => "variadic"
  | definition => "definition"
  | action => "action"
  | id => "id"
  | version => "version"
  | help => "help"

def letter? : Flag → Option UInt8
  | config => some 'c'.toUInt8
  | version => some 'v'.toUInt8
  | help => some 'h'.toUInt8
  | _ => none

def isSwitch : Flag → Bool
  | config | name | id => false
  | _ => true

def label (f : Flag) : Text :=
  match f.letter? with
  | some b => "-" ++ ([b] : Text) ++ ", --" ++ f.long
  | none => "--" ++ f.long

end Flag

def switchWords : List (Text × Bool) :=
  (["1", "t", "T", "TRUE", "true", "True"].map fun w => (Text.ofString w, true))
    ++ ["0", "f", "F", "FALSE", "false", "False"].map fun w => (Text.ofString w, false)

/-- What is wrong with a flag. -/
inductive FlagError where
  | malformed (word : Text)
  | unknown (name : Text)
  /-- A letter that is no flag, with the letters from there on. -/
  | unknownLetter (letter : UInt8) (letters : Text)
  | missingValue (name : Text)
  | missingLetterValue (letter : UInt8) (letters : Text)
  | notBoolean (flag : Flag) (value : Text)
  deriving DecidableEq, Repr

namespace FlagError

/-- The character shown for a byte: it has the first byte of the byte's own encoding as its code,
which for ASCII is the byte itself. -/
def shown (b : UInt8) : Char :=
  Char.ofNat ((String.utf8EncodeChar (Char.ofNat b.toNat)).headD 0).toNat

def message : FlagError → Text
  | malformed word => "bad flag syntax: " ++ word
  | unknown name => "unknown flag: --" ++ name
  | unknownLetter b letters =>
    "unknown shorthand flag: " ++ charQuoted (shown b) ++ " in -" ++ letters
  | missingValue name => "flag needs an argument: --" ++ name
  | missingLetterValue b letters =>
    "flag needs an argument: " ++ charQuoted (shown b) ++ " in -" ++ letters
  | notBoolean flag value =>
    "invalid argument " ++ value.quoted ++ " for " ++ flag.label.quoted
      ++ " flag: strconv.ParseBool: parsing " ++ value.quoted ++ ": invalid syntax"

end FlagError

abbrev GivenFlag := Flag × Text

namespace GivenFlag

/-- Gives a flag a value. Switches take words for on and off only. -/
def of (flag : Flag) (value : Text) : Except FlagError GivenFlag :=
  if flag.isSwitch && (switchWords.lookup value).isNone then throw (.notBoolean flag value)
  else return (flag, value)

end GivenFlag

/-- The flags in one word. -/
structure FlagWord where
  given : List GivenFlag
  /-- The flag that takes the next word, and the error if there is none. -/
  pending : Option (Flag × FlagError) := none

namespace FlagWord

variable (flags : List Flag)

/-- The flag in a word that starts with two dashes, which are left out. -/
def ofName (text : Text) : Except FlagError FlagWord := do
  if text.head? == some '-'.toUInt8 || text.head? == some '='.toUInt8 then
    throw (.malformed ("--" ++ text))
  let (name, value) := match text.cut? "=" with
    | some (name, value) => (name, some value)
    | none => (text, none)
  match flags.find? (·.long == name), value with
  | none, _ => throw (.unknown name)
  | some flag, some value => return ⟨[← GivenFlag.of flag value], none⟩
  | some flag, none =>
    if flag.isSwitch then return ⟨[(flag, "true")], none⟩
    else return ⟨[], some (flag, .missingValue name)⟩

/-- The flags in a word that starts with one dash, which is left out. What starts with `test.` is
meant for a test runner and gives no flags. -/
def ofLetters : Text → Except FlagError FlagWord
  | [] => return ⟨[], none⟩
  | b :: rest => do
    if List.isPrefixOf ("test." : Text) (b :: rest) then return ⟨[], none⟩
    match flags.find? (·.letter? == some b) with
    | none => throw (.unknownLetter b (b :: rest))
    | some flag =>
      if rest.head? == some '='.toUInt8 && rest.length > 1 then
        return ⟨[← GivenFlag.of flag (rest.drop 1)], none⟩
      else if flag.isSwitch then
        let more ← ofLetters rest
        return { more with given := (flag, "true") :: more.given }
      else if rest.isEmpty then return ⟨[], some (flag, .missingLetterValue b [b])⟩
      else return ⟨[(flag, rest)], none⟩

/-- The flags in a word, if it is one of flags: it starts with a dash and goes on. -/
def parse? : Text → Option (Except FlagError FlagWord)
  | a :: b :: rest =>
    if a != '-'.toUInt8 then none
    else if b == '-'.toUInt8 then some (ofName flags rest)
    else some (ofLetters flags (b :: rest))
  | _ => none

end FlagWord

/-- A command line taken apart. -/
structure Arguments where
  given : List GivenFlag := []
  words : List Text := []

namespace Arguments

/-- Takes a list of words apart, where the flags are known. -/
def parse (flags : List Flag) : List Text → Except FlagError Arguments
  | [] => return {}
  | word :: rest =>
    if word == "--" then return { words := rest }
    else
      match FlagWord.parse? flags word with
      | none => do
        let a ← parse flags rest
        return { a with words := word :: a.words }
      | some (.error e) => throw e
      | some (.ok ⟨given, none⟩) => do
        let a ← parse flags rest
        return { a with given := given ++ a.given }
      | some (.ok ⟨given, some (flag, missing)⟩) =>
        match rest with
        | [] => throw missing
        | value :: rest => do
          let a ← parse flags rest
          return { a with given := given ++ (flag, value) :: a.given }

/-- The value a flag was given last. -/
def value? (a : Arguments) (flag : Flag) : Option Text := a.given.reverse.lookup flag

/-- The state a switch was given last. -/
def switch? (a : Arguments) (flag : Flag) : Option Bool :=
  (a.value? flag).bind fun w => switchWords.lookup w

def isOn (a : Arguments) (flag : Flag) : Bool := (a.switch? flag).getD false

end Arguments

end TemplateCompiler
