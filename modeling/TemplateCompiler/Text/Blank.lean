import TemplateCompiler.Text.Point

/-!
# Blank characters

`Point.isBlank` is the Unicode property White_Space. `Text.trim` drops blanks at both ends of a
text and `Text.words` takes it apart at them.
-/

namespace TemplateCompiler

/-- The code points with the property White_Space. -/
def blankCodes : List Nat :=
  [9, 10, 11, 12, 13, 32, 0x85, 0xA0, 0x1680, 0x2000, 0x2001, 0x2002, 0x2003, 0x2004, 0x2005,
    0x2006, 0x2007, 0x2008, 0x2009, 0x200A, 0x2028, 0x2029, 0x202F, 0x205F, 0x3000]

def Point.isBlank : Point → Bool
  | char c => blankCodes.contains c.toNat
  | stray _ => false

namespace Text

/-- The text without the blanks at its ends. -/
def trim (text : Text) : Text :=
  ofPoints ((text.points.dropWhile Point.isBlank).reverse.dropWhile Point.isBlank).reverse

def isBlank (text : Text) : Bool := text.points.all Point.isBlank

/-- The longest pieces without blanks, none of them empty. -/
def words (text : Text) : List Text :=
  let step (p : Point) : Text × List Text → Text × List Text
    | (word, done) =>
      if p.isBlank then ([], if word.isEmpty then done else word :: done)
      else (p.bytes ++ word, done)
  let (word, done) := text.points.foldr step ([], [])
  if word.isEmpty then done else word :: done

end Text

end TemplateCompiler
