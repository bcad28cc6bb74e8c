import TemplateCompiler.Selector.Basic

/-!
# Reading selectors

`scanSelector` finds the pieces of a selector list: names, attributes in brackets, the ends of
negations and commas. Everything between pieces is passed over. `parseSelectors` puts the pieces
together.
-/

namespace TemplateCompiler

/-- A piece of a selector list. -/
inductive SelectorPiece where
  /-- The start of a negation. -/
  | openNot
  | element (name : Text)
  | className (name : Text)
  | id (name : Text)
  /-- An attribute as written, and its value or nothing. -/
  | attr (name value : Text)
  /-- A closing parenthesis. -/
  | close
  | comma
  deriving DecidableEq, Repr

namespace SelectorPiece

/-- Whether a byte is a letter, digit, underscore or hyphen. -/
def isNameByte (b : UInt8) : Bool :=
  Text.isLetter b.toNat || Text.isDigit b.toNat || b == '_'.toUInt8 || b == '-'.toUInt8

/-- Whether a byte may stand in the name of an attribute. -/
def isAttributeByte (b : UInt8) : Bool :=
  isNameByte b || b == '.'.toUInt8 || b == '*'.toUInt8 || b == '\\'.toUInt8 || b == '$'.toUInt8

/-- Tab, line feed, form feed, carriage return and space. -/
def isBlankByte (b : UInt8) : Bool := [9, 10, 12, 13, 32].contains b

/-- The value between quotes, if the bracket closes right behind it. -/
def quotedValue? (quote : UInt8) (r : Text) : Option (Text × Nat) :=
  let stops (b : UInt8) : Bool := b == ']'.toUInt8 || b == quote
  let value := r.takeWhile (!stops ·)
  match r.dropWhile (!stops ·) with
  | q :: b :: _ =>
    if q == quote && b == ']'.toUInt8 then some (value, value.length + 2) else none
  | _ => none

/-- The value without quotes, which is not empty and holds no blanks. -/
def bareValue? (r : Text) : Option (Text × Nat) :=
  let inside (b : UInt8) : Bool := b != ']'.toUInt8 && !isBlankByte b
  let value := r.takeWhile inside
  match r.dropWhile inside with
  | b :: _ => if !value.isEmpty && b == ']'.toUInt8 then some (value, value.length + 1) else none
  | [] => none

/-- The value after an equals sign, with the number of bytes up to the end of the bracket. -/
def value? (r : Text) : Option (Text × Nat) :=
  let quoted : Option (Text × Nat) :=
    match r with
    | q :: r' =>
      if q == '"'.toUInt8 || q == '\''.toUInt8 then (quotedValue? q r').map fun (v, n) => (v, n + 1)
      else none
    | [] => none
  quoted.or (bareValue? r)

/-- The attribute after an opening bracket. -/
def attr? (r : Text) : Option (SelectorPiece × Nat) :=
  let name := r.takeWhile isAttributeByte
  if name.isEmpty then none
  else
    match r.dropWhile isAttributeByte with
    | b :: r' =>
      if b == ']'.toUInt8 then some (attr name [], name.length + 1)
      else if b == '='.toUInt8 then
        (value? r').map fun (v, n) => (attr name v, name.length + 1 + n)
      else none
    | [] => none

/-- The comma after `blanks` bytes of blanks, if there is one, with the blanks behind it. -/
def comma? (r : Text) : Option (SelectorPiece × Nat) :=
  let blanks := r.takeWhile isBlankByte
  match r.dropWhile isBlankByte with
  | b :: r' =>
    if b == ','.toUInt8 then
      some (comma, blanks.length + (r'.takeWhile isBlankByte).length)
    else none
  | [] => none

/-- A name after the byte `b` that says what it is the name of. -/
def marked? (piece : Text → SelectorPiece) (r : Text) : Option (SelectorPiece × Nat) :=
  let name := r.takeWhile isNameByte
  if name.isEmpty then none else some (piece name, name.length)

/-- The piece that starts with the byte `b` before `r`, with the number of bytes of `r` in it. -/
def next? (b : UInt8) (r : Text) : Option (SelectorPiece × Nat) :=
  if isNameByte b then
    let more := r.takeWhile isNameByte
    some (element (b :: more), more.length)
  else if b == '.'.toUInt8 then marked? className r
  else if b == '#'.toUInt8 then marked? id r
  else if b == '['.toUInt8 then attr? r
  else if b == ')'.toUInt8 then some (close, 0)
  else if b == ':'.toUInt8 then
    if ("not(" : Text).isPrefixOf r then some (openNot, 4) else none
  else comma? (b :: r)

/-- The pieces of a text after its first `skip` bytes. -/
def scanFrom : (skip : Nat) → Text → List SelectorPiece
  | _, [] => []
  | skip + 1, _ :: r => scanFrom skip r
  | 0, b :: r =>
    match next? b r with
    | some (piece, width) => piece :: scanFrom width r
    | none => scanFrom 0 r

end SelectorPiece

def scanSelector (text : Text) : List SelectorPiece := SelectorPiece.scanFrom 0 text

/-- A selector list in the making. -/
structure SelectorDraft where
  finished : List Selector := []
  current : Selector := {}
  /-- The negation being read. -/
  negated : Option Compound := none

namespace SelectorDraft

def change (d : SelectorDraft) (f : Compound → Compound) : SelectorDraft :=
  match d.negated with
  | some c => { d with negated := some (f c) }
  | none => { d with current := { d.current with toCompound := f d.current.toCompound } }

/-- Ends the negation being read, if there is one. -/
def endNot (d : SelectorDraft) : SelectorDraft :=
  match d.negated with
  | some c =>
    { d with current := { d.current with nots := d.current.nots ++ [c] }, negated := none }
  | none => d

/-- A selector of negations only holds for any element. -/
def completed (s : Selector) : Selector :=
  if !s.nots.isEmpty && s.element.isEmpty && s.classes.isEmpty && s.attrs.isEmpty then
    { s with element := "*" }
  else s

def add (d : SelectorDraft) : SelectorPiece → Except SelectorError SelectorDraft
  | .openNot => if d.negated.isSome then throw .nestedNot else return { d with negated := some {} }
  | .element n => return d.change ({ · with element := n })
  | .className n => return d.change (·.addClass n)
  | .id n => return d.change (·.addAttribute "id" n)
  | .attr n v => do
    let name ← unescapeAttribute n
    return d.change (·.addAttribute name v)
  | .close => return d.endNot
  | .comma =>
    if d.negated.isSome then throw .listInNot
    else return { finished := d.finished ++ [completed d.current] }

def selectors (d : SelectorDraft) : List Selector :=
  d.finished ++ [completed d.endNot.current]

end SelectorDraft

/-- The selectors of a list separated by commas, at least one. -/
def parseSelectors (text : Text) : Except SelectorError (List Selector) :=
  return (← (scanSelector text).foldlM SelectorDraft.add {}).selectors

end TemplateCompiler
