import TemplateCompiler.Yaml.Comment
import TemplateCompiler.Yaml.Scalar

/-!
# Tokens of YAML

Indentation is made explicit: a block of entries or items is put between a token that opens it and
`blockEnd`. What a line starts with may turn out to be a key when a colon follows, so the place of
a *possible key* is remembered, and the tokens before it are put in then.

A text is only read as far as its first document goes, token by token. A token is *settled* when two
more are found and it is not awaited whether it is a key. So where no more tokens can be found, the
settled ones are still there; and nothing is put in before them.
-/

namespace TemplateCompiler.Yaml

/-- The kinds of tokens. -/
inductive Symbol where
  | documentStart
  | documentEnd
  | blockSequence
  | blockMapping
  | blockEnd
  | openList
  | closeList
  | openMap
  | closeMap
  | dash
  | comma
  | key
  | colon
  | scalar (text : Text) (plain : Bool)
  | streamEnd
  deriving DecidableEq, Repr

/-- A token and where it stands. -/
structure Token where
  symbol : Symbol
  start : Mark
  stop : Mark

/-- A scalar or collection that may be a key. -/
structure PossibleKey where
  /-- Whether it must be a key, because it stands where keys of its block do. -/
  required : Bool
  /-- How many tokens stand before it. -/
  position : Nat
  mark : Mark
  /-- Whether it is settled only when it is known to be a key or none. -/
  awaited : Bool := true

/-- What is known about keys in a pair of brackets, or outside of all. -/
structure KeyLevel where
  possible : Option PossibleKey := none
  /-- How many tokens stand before what was last a possible key, or else before the bracket. -/
  position : Nat := 0

/-- The state of finding tokens. -/
structure Scanner where
  rest : List Char
  mark : Mark := .start
  /-- The tokens found so far, the last of them first, -/
  tokens : List Token := []
  /-- and how many they are. -/
  size : Nat := 0
  /-- How many of them are settled. -/
  settled : Nat := 0
  /-- The columns of the open blocks, the innermost first. -/
  indents : List Nat := []
  /-- Whether a key may start here. -/
  keyAllowed : Bool := true
  /-- The keys in the innermost brackets. -/
  level : KeyLevel := {}
  /-- The keys around the open brackets, the innermost first. -/
  outer : List KeyLevel := []

namespace Scanner

def flow (s : Scanner) : Bool := !s.outer.isEmpty

def add (t : Token) (s : Scanner) : Scanner :=
  { s with tokens := t :: s.tokens, size := s.size + 1 }

/-- Puts a token in before the others from `position` on, or after all if those are settled. -/
def insert (t : Token) (position : Nat) (s : Scanner) : Scanner :=
  let later := if position < s.settled then 0 else s.size - position
  { s with tokens := s.tokens.take later ++ t :: s.tokens.drop later, size := s.size + 1 }

/-- Adds a token of `width` characters. -/
def push (symbol : Symbol) (width : Nat) (s : Scanner) : Scanner :=
  let stop := s.mark.move width
  { s.add ⟨symbol, s.mark, stop⟩ with mark := stop, rest := s.rest.drop width }

def toToken (s : Scanner) : Scanner :=
  let stop := passGap s.flow .space s.keyAllowed s.mark s.rest
  { s with keyAllowed := stop.keyAllowed, mark := stop.mark, rest := stop.rest }

/-- The tokens after which a comment belongs to what follows. -/
def uncommented : List Symbol := [.dash, .documentStart, .documentEnd]

/-- Passes over a comment in the line where the last token ends. -/
def passLineComment (s : Scanner) : Scanner :=
  let blanks := (s.rest.takeWhile isBlank).length
  let sameLine : Bool := match s.tokens.head? with
    | some t => t.stop.line == s.mark.line && !uncommented.contains t.symbol
    | none => false
  if sameLine && blanks ≤ commentReach && (s.rest.drop blanks).head? == some '#' then
    let width := (s.rest.takeWhile fun c => !isBreak c).length
    { s with mark := s.mark.move width, rest := s.rest.drop width }
  else s

def endBlocks (ends : Nat → Bool) (mark : Mark) (s : Scanner) : Scanner :=
  if s.flow then s
  else
    (s.indents.takeWhile ends).foldl (fun s _ => s.add ⟨.blockEnd, mark, mark⟩)
      { s with indents := s.indents.dropWhile ends }

/-- How many brackets or blocks may be open. -/
def maxDepth : Nat := 10000

/-- Opens a block at a column unless it is open, before the tokens from `position` on. -/
def openBlock (symbol : Symbol) (mark : Mark) (position : Nat) (s : Scanner) :
    Except YamlError Scanner :=
  let deeper := match s.indents.head? with
    | some column => column < mark.column
    | none => true
  if s.flow || !deeper then return s
  else if maxDepth ≤ s.indents.length then throw .depth
  else
    return { s.insert ⟨symbol, mark, mark⟩ position with indents := mark.column :: s.indents }

/-- Gives up the possible key. -/
def dropKey (s : Scanner) : Except YamlError Scanner :=
  match s.level.possible with
  | some { required := true, .. } => throw .missingColon
  | _ => return { s with level.possible := none }

/-- Remembers that a key may start here. -/
def saveKey (s : Scanner) : Except YamlError Scanner :=
  if s.keyAllowed then do
    let s ← s.dropKey
    let required := !s.flow && s.indents.head? == some s.mark.column
    return { s with level := ⟨some { required, position := s.size, mark := s.mark }, s.size⟩ }
  else return s

def keyLimit : Nat := 1024

/-- Whether a possible key is in the same line and not too long. -/
def isNear (s : Scanner) (k : PossibleKey) : Bool :=
  k.mark.line == s.mark.line && s.mark.index ≤ k.mark.index + keyLimit

def validKey (s : Scanner) : Except YamlError (Option PossibleKey) :=
  match s.level.possible with
  | none => return none
  | some k =>
    if s.isNear k then return some k
    else if k.required then throw .missingColon
    else return none

/-! ### The kinds of tokens -/

def documentMark (symbol : Symbol) (s : Scanner) : Except YamlError Scanner := do
  let s ← (s.endBlocks (fun _ => true) s.mark).dropKey
  return { s.push symbol 3 with keyAllowed := false }

def openBracket (symbol : Symbol) (s : Scanner) : Except YamlError Scanner := do
  let s ← s.saveKey
  if maxDepth ≤ s.outer.length then throw .depth
  return { s.push symbol 1 with
    keyAllowed := true, outer := s.level :: s.outer, level := { position := s.size } }

/-- A closing bracket. Brackets without anything that could be a key are not awaited to be one. -/
def closeBracket (symbol : Symbol) (s : Scanner) : Except YamlError Scanner := do
  let s ← s.dropKey
  let t := { s.push symbol 1 with keyAllowed := false }
  match s.outer with
  | [] => return t
  | level :: outer =>
    let awaited (k : PossibleKey) : Bool := k.awaited && k.position != s.level.position
    let possible := level.possible.map fun k => { k with awaited := awaited k }
    return { t with outer, level := { level with possible } }

def comma (s : Scanner) : Except YamlError Scanner := do
  let s ← s.dropKey
  return { s.push .comma 1 with keyAllowed := true }

/-- The dash of an item, or the mark of an explicit key. -/
def indicator (block symbol : Symbol) (allowedAfter : Bool) (s : Scanner) :
    Except YamlError Scanner := do
  if !s.flow && !s.keyAllowed then throw .misplaced
  let s ← (← s.openBlock block s.mark s.size).dropKey
  return { s.push symbol 1 with keyAllowed := allowedAfter }

/-- A colon: what was a possible key is one now. -/
def colon (s : Scanner) : Except YamlError Scanner := do
  match ← s.validKey with
  | some k =>
    let s := { s.insert ⟨.key, k.mark, k.mark⟩ k.position with
      level.possible := none, keyAllowed := false }
    return (← s.openBlock .blockMapping k.mark k.position).push .colon 1
  | none =>
    if !s.flow && !s.keyAllowed then throw .misplaced
    let s ← s.openBlock .blockMapping s.mark s.size
    return { s.push .colon 1 with level.possible := none, keyAllowed := !s.flow }

def scalar (plain : Bool) (read : Scanner → Except YamlError ScalarRead) (s : Scanner) :
    Except YamlError Scanner := do
  let s ← s.saveKey
  let r ← read s
  return { s.add ⟨.scalar r.text plain, s.mark, r.stop⟩ with
    mark := r.mark
    rest := r.rest
    keyAllowed := r.broken }

/-- The characters that no plain scalar starts with. -/
def indicators : List Char :=
  ['-', '?', ':', ',', '[', ']', '{', '}', '#', '&', '*', '!', '|', '>', '\'', '"', '%', '@',
    '\x60']

/-- Whether a plain scalar starts with `c`, which `r` follows. -/
def startsPlain (flow : Bool) (c : Char) (r : List Char) : Bool :=
  !(isBlank c || indicators.contains c) || (c == '-' && !atBlank r)
    || (!flow && (c == '?' || c == ':') && !atBlank r)

/-- Finds the token that starts with `c` before `r`. -/
def token (c : Char) (r : List Char) (s : Scanner) : Except YamlError Scanner :=
  if s.mark.column == 0 && atDocumentMark (c :: r) then
    s.documentMark (if c == '-' then .documentStart else .documentEnd)
  else if c == '[' then s.openBracket .openList
  else if c == '{' then s.openBracket .openMap
  else if c == ']' then s.closeBracket .closeList
  else if c == '}' then s.closeBracket .closeMap
  else if c == ',' then s.comma
  else if c == '-' && atBlank r then s.indicator .blockSequence .dash true
  else if c == '?' && (s.flow || atBlank r) then s.indicator .blockMapping .key (!s.flow)
  else if c == ':' && (s.flow || atBlank r) then s.colon
  else if c == '\'' then s.scalar false fun s => readSingle [] {} (s.mark.move 1) r
  else if c == '"' then s.scalar false fun s => readDouble 0 [] {} (s.mark.move 1) r
  else if startsPlain s.flow c r then
    s.scalar true fun s =>
      readPlain s.flow ((s.indents.head?.map (· + 1)).getD 0) [] s.mark {} s.mark (c :: r)
  else throw .character

/-- The end of the text. It is the start of a line. -/
def finish (s : Scanner) : Except YamlError Scanner := do
  let mark := s.mark.lineStart
  let s ← (s.endBlocks (fun _ => true) mark).dropKey
  return s.add ⟨.streamEnd, mark, mark⟩

/-- Finds the next token, and the ends of the blocks before it. -/
def step (s : Scanner) : Except YamlError Scanner := do
  let t := s.toToken
  let t := t.endBlocks (t.mark.column < ·) s.mark
  match t.rest with
  | [] => t.finish
  | c :: r => return (← t.token c r).passLineComment

def awaits (s : Scanner) (position : Nat) : Bool :=
  (s.level :: s.outer).any fun l =>
    match l.possible with
    | some k => k.awaited && k.position == position && (k.required || s.isNear k)
    | none => false

/-- Settles at most `n` further tokens. -/
def settle : (n : Nat) → Scanner → Scanner
  | 0, s => s
  | n + 1, s =>
    if s.settled + 2 < s.size && !s.awaits s.settled then
      settle n { s with settled := s.settled + 1 }
    else s

def settledTokens (s : Scanner) : List Token := s.tokens.reverse.take s.settled

end Scanner

/-- The tokens of a text, or those before an error. -/
structure TokenRun where
  tokens : List Token
  error : Option YamlError := none

/-- Finds all tokens in at most `n` steps. -/
def Scanner.run : (n : Nat) → Scanner → TokenRun
  | 0, s => ⟨s.settledTokens, some .unexpected⟩
  | n + 1, s =>
    let s := s.settle s.size
    match s.step with
    | .error e => ⟨s.settledTokens, some e⟩
    | .ok t =>
      if (t.tokens.head?.map (·.symbol)) == some .streamEnd then ⟨t.tokens.reverse, none⟩
      else run n t

/-- The tokens of a text. Every step takes at least one character. -/
def tokens (cs : List Char) : TokenRun := Scanner.run (cs.length + 1) { rest := cs }

end TemplateCompiler.Yaml
