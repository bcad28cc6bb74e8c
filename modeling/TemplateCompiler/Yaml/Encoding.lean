import TemplateCompiler.Yaml.Basic

/-!
# Encodings of YAML

A document is a text in UTF-8, or in UTF-16 if it starts with a byte order mark of that encoding.
`Yaml.characters` gives the characters of a document without the mark. A line ends with a line feed,
a carriage return or both; they all become line feeds.
-/

namespace TemplateCompiler.Yaml

/-- Whether a document may hold a character. -/
def isAllowed (c : Char) : Bool :=
  let n := c.toNat
  n == 9 || n == 10 || n == 13 || (0x20 ≤ n && n ≤ 0x7E) || n == 0x85
    || (0xA0 ≤ n && n ≤ 0xFFFD) || 0x10000 ≤ n

/-- The text with a line feed for every carriage return, also for one before a line feed. -/
def normalizeBreaks : List Char → List Char
  | '\r' :: '\n' :: r => '\n' :: normalizeBreaks r
  | c :: r => (if c == '\r' then '\n' else c) :: normalizeBreaks r
  | [] => []

/-- The units of 16 bits of a text, the low byte of each of them first if `little` is set. -/
def units? (little : Bool) : Text → Option (List Nat)
  | [] => some []
  | [_] => none
  | a :: b :: r =>
    let unit := if little then a.toNat + 256 * b.toNat else 256 * a.toNat + b.toNat
    (units? little r).map (unit :: ·)

/-- The characters of a sequence of units. A pair of surrogates is one character; no other
surrogates occur. -/
def ofUnits? : List Nat → Option (List Char)
  | [] => some []
  | u :: r =>
    if 0xD800 ≤ u ∧ u < 0xDC00 then
      match r with
      | [] => none
      | v :: r =>
        if 0xDC00 ≤ v ∧ v < 0xE000 then
          (ofUnits? r).map (Char.ofNat (0x10000 + (u - 0xD800) * 0x400 + (v - 0xDC00)) :: ·)
        else none
    else if 0xDC00 ≤ u ∧ u < 0xE000 then none
    else (ofUnits? r).map (Char.ofNat u :: ·)

/-- The characters of a text in the encoding that its byte order mark tells. -/
def decode? : Text → Option (List Char)
  | 0xFF :: 0xFE :: r => (units? true r).bind ofUnits?
  | 0xFE :: 0xFF :: r => (units? false r).bind ofUnits?
  | 0xEF :: 0xBB :: 0xBF :: r => (Text.points r).mapM Point.toChar?
  | text => text.points.mapM Point.toChar?

def characters (text : Text) : Except YamlError (List Char) :=
  match decode? text with
  | some cs => if cs.all isAllowed then return normalizeBreaks cs else throw .character
  | none => throw .character

end TemplateCompiler.Yaml
