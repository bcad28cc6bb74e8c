import TemplateCompiler.Yaml.Encoding
import TemplateCompiler.Yaml.Token

/-!
# Reading documents

`Yaml.parse` reads the first document of a text. A value that is left out is null; it stands where
it would be written, or at the colon if it is a value in a list in brackets.
-/

namespace TemplateCompiler.Yaml

/-- Where the next token after `t` starts. -/
def nextMark (t : Token) (r : List Token) : Mark := (r.head?.map (·.start)).getD t.stop

/-- What was read, and the tokens after it. -/
abbrev Read (α : Type) := α × List Token

/-- What ends an item or value of a block. -/
def blockStops : List Symbol := [.key, .colon, .blockEnd]

mutual

/-- Reads a node. Where `dashes` is set, a sequence need not be indented. -/
def node : (n : Nat) → (dashes : Bool) → List Token → Except YamlError (Read Yaml)
  | 0, _, _ => throw .unexpected
  | _, _, [] => throw .unexpected
  | n + 1, dashes, t :: r => do
    match t.symbol with
    | .scalar text plain => return (.scalar t.start text plain, r)
    | .openList =>
      let (items, r) ← listItems n true r
      return (.sequence t.start items, r)
    | .openMap =>
      let (entries, r) ← mapEntries n true r
      return (.mapping t.start entries, r)
    | .blockSequence =>
      let (items, r) ← blockItems n r
      return (.sequence t.start items, r)
    | .blockMapping =>
      let (entries, r) ← blockEntries n r
      return (.mapping t.start entries, r)
    | .dash =>
      if dashes then
        let (items, r) ← dashItems n (t :: r)
        return (.sequence t.start items, r)
      else throw .unexpected
    | _ => throw .unexpected

def nodeUnless :
    (n : Nat) → List Symbol → (dashes : Bool) → Mark → List Token → Except YamlError (Read Yaml)
  | 0, _, _, _, _ => throw .unexpected
  | _, _, _, _, [] => throw .unexpected
  | n + 1, stops, dashes, m, t :: r =>
    if stops.contains t.symbol then return (missing m, t :: r) else node n dashes (t :: r)

def blockItems : (n : Nat) → List Token → Except YamlError (Read (List Yaml))
  | 0, _ => throw .unexpected
  | _, [] => throw .unexpected
  | n + 1, t :: r => do
    match t.symbol with
    | .dash =>
      let (item, r) ← nodeUnless n [.dash, .blockEnd] false t.stop r
      let (items, r) ← blockItems n r
      return (item :: items, r)
    | .blockEnd => return ([], r)
    | _ => throw .unexpected

def dashItems : (n : Nat) → List Token → Except YamlError (Read (List Yaml))
  | 0, _ => throw .unexpected
  | _, [] => throw .unexpected
  | n + 1, t :: r => do
    if t.symbol = .dash then
      let (item, r) ← nodeUnless n (.dash :: blockStops) false t.stop r
      let (items, r) ← dashItems n r
      return (item :: items, r)
    else return ([], t :: r)

def blockEntries : (n : Nat) → List Token → Except YamlError (Read (List (Yaml × Yaml)))
  | 0, _ => throw .unexpected
  | _, [] => throw .unexpected
  | n + 1, t :: r => do
    match t.symbol with
    | .key =>
      let (key, r) ← nodeUnless n blockStops true t.stop r
      let (value, r) ← blockValue n r
      let (entries, r) ← blockEntries n r
      return ((key, value) :: entries, r)
    | .blockEnd => return ([], r)
    | _ => throw .unexpected

def blockValue : (n : Nat) → List Token → Except YamlError (Read Yaml)
  | 0, _ => throw .unexpected
  | _, [] => throw .unexpected
  | n + 1, t :: r =>
    if t.symbol = .colon then nodeUnless n blockStops true t.stop r
    else return (missing t.start, t :: r)

def listItems : (n : Nat) → (first : Bool) → List Token → Except YamlError (Read (List Yaml))
  | 0, _, _ => throw .unexpected
  | _, _, [] => throw .unexpected
  | n + 1, first, t :: r => do
    if t.symbol = .closeList then return ([], r)
    else
      let ts ← if first then pure (t :: r) else if t.symbol = .comma then pure r
        else throw .unexpected
      match ts with
      | [] => throw .unexpected
      | t :: r =>
        if t.symbol = .closeList then return ([], r)
        else if t.symbol = .key then
          let (key, r) ← listKey n r
          let (value, r) ← flowValue n .closeList r
          let (items, r) ← listItems n false r
          return (.mapping t.start [(key, value)] :: items, r)
        else
          let (item, r) ← node n false (t :: r)
          let (items, r) ← listItems n false r
          return (item :: items, r)

def listKey : (n : Nat) → List Token → Except YamlError (Read Yaml)
  | 0, _ => throw .unexpected
  | _, [] => throw .unexpected
  | n + 1, t :: r =>
    if [.colon, .comma, .closeList].contains t.symbol then return (missing t.stop, r)
    else node n false (t :: r)

def flowValue : (n : Nat) → (close : Symbol) → List Token → Except YamlError (Read Yaml)
  | 0, _, _ => throw .unexpected
  | _, _, [] => throw .unexpected
  | n + 1, close, t :: r =>
    if t.symbol = .colon then
      let m := if close = .closeList then t.start else nextMark t r
      nodeUnless n [.comma, close] false m r
    else return (missing t.start, t :: r)

def mapEntries :
    (n : Nat) → (first : Bool) → List Token → Except YamlError (Read (List (Yaml × Yaml)))
  | 0, _, _ => throw .unexpected
  | _, _, [] => throw .unexpected
  | n + 1, first, t :: r => do
    if t.symbol = .closeMap then return ([], r)
    else
      let ts ← if first then pure (t :: r) else if t.symbol = .comma then pure r
        else throw .unexpected
      match ts with
      | [] => throw .unexpected
      | t :: r =>
        if t.symbol = .closeMap then return ([], r)
        else if t.symbol = .key then
          let (key, r) ← nodeUnless n [.colon, .comma, .closeMap] false (nextMark t r) r
          let (value, r) ← flowValue n .closeMap r
          let (entries, r) ← mapEntries n false r
          return ((key, value) :: entries, r)
        else
          let (key, r) ← node n false (t :: r)
          let (entries, r') ← mapEntries n false r
          return ((key, missing (nextMark t r)) :: entries, r')

end

/-- Reads the first document, if there is one. It ends before a further token. Between two steps
that take a token there are at most two that take none. -/
def document (ts : List Token) : Except YamlError (Option Yaml) := do
  let n := 3 * ts.length + 3
  match ts with
  | [] => throw .unexpected
  | t :: r =>
    if t.symbol = .streamEnd then return none
    let (y, rest) ←
      if t.symbol = .documentStart then
        nodeUnless n [.documentStart, .documentEnd, .streamEnd] false (nextMark t r) r
      else node n false ts
    if rest.isEmpty then throw .unexpected
    return some y

/-- Reads the first document of a text, if it has one. -/
def parse (text : Text) : Except YamlError (Option Yaml) := do
  let found := tokens (← characters text)
  (document found.tokens).mapError (found.error.getD ·)

end TemplateCompiler.Yaml
