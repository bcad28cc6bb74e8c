import TemplateCompiler.Yaml.Basic

/-!
# Reading scalars

Scalars are plain or between single or double quotes. Where one goes over several lines, a line
break between words becomes a space, and empty lines become line breaks.
-/

namespace TemplateCompiler.Yaml

/-- Blanks and line breaks between the words of a scalar. -/
structure Gap where
  blanks : List Char := []
  /-- Whether there is a line break. -/
  broken : Bool := false
  /-- The first line break, unless it is escaped. -/
  first : Option Char := none
  more : List Char := []

namespace Gap

/-- Adds a blank or a line break. Blanks around line breaks are dropped. A next line counts as a
line feed. -/
def add (c : Char) (g : Gap) : Gap :=
  if isBreak c then
    let c := if c == '\u0085' then '\n' else c
    if g.broken then { g with more := g.more ++ [c] } else { broken := true, first := some c }
  else if g.broken then g
  else { g with blanks := g.blanks ++ [c] }

/-- The gap after an escaped line break. -/
def escaped : Gap := { broken := true }

def isEmpty (g : Gap) : Bool := !g.broken && g.blanks.isEmpty

/-- What stands for a gap in the value of the scalar. -/
def text (g : Gap) : List Char :=
  if g.broken then
    match g.first with
    | some '\n' => if g.more.isEmpty then [' '] else g.more
    | some c => c :: g.more
    | none => g.more
  else g.blanks

end Gap

/-- A scalar that was read, and where reading goes on. -/
structure ScalarRead where
  text : Text
  /-- Where the scalar ends. -/
  stop : Mark
  mark : Mark
  rest : List Char

namespace ScalarRead

/-- The scalar with the given characters, the last of which comes first. -/
def of (reversed : List Char) (stop mark : Mark) (rest : List Char) : ScalarRead :=
  ⟨reversed.reverse.flatMap String.utf8EncodeChar, stop, mark, rest⟩

/-- Whether the scalar was followed by a line break. -/
def broken (r : ScalarRead) : Bool := r.stop.line != r.mark.line

end ScalarRead

/-! ### Plain scalars -/

/-- Whether a plain scalar ends before `c`, which `r` follows. Inside brackets there are more
characters that end it. -/
def endsPlain (flow : Bool) (c : Char) (r : List Char) : Bool :=
  (c == ':' && atBlank r) || (flow && [',', '?', '[', ']', '{', '}'].contains c)

/-- Reads a plain scalar, which ends at `stop` unless it goes on. Outside of brackets its lines are
not indented less than `margin`. -/
def readPlain (flow : Bool) (margin : Nat) :
    (reversed : List Char) → (stop : Mark) → Gap → Mark → List Char → Except YamlError ScalarRead
  | reversed, stop, _, m, [] => return .of reversed stop m []
  | reversed, stop, gap, m, c :: r =>
    if isBreak c then readPlain flow margin reversed stop (gap.add c) m.newline r
    else if isBlank c then
      if gap.broken && c == '\t' && m.column < margin then throw .misplaced
      else readPlain flow margin reversed stop (gap.add c) (m.move 1) r
    else if (gap.broken && !flow && m.column < margin) || (!gap.isEmpty && c == '#')
        || (m.column == 0 && atDocumentMark (c :: r)) || endsPlain flow c r then
      return .of reversed stop m (c :: r)
    else readPlain flow margin (c :: (gap.text.reverse ++ reversed)) (m.move 1) {} (m.move 1) r

/-! ### Quoted scalars -/

/-- Reads the rest of a scalar in single quotes, in which a quote is written twice. -/
def readSingle : (reversed : List Char) → Gap → Mark → List Char → Except YamlError ScalarRead
  | _, _, _, [] => throw .unclosed
  | reversed, gap, m, '\'' :: '\'' :: r =>
    readSingle ('\'' :: (gap.text.reverse ++ reversed)) {} (m.move 2) r
  | reversed, gap, m, c :: r =>
    if isBreak c then readSingle reversed (gap.add c) m.newline r
    else if isBlank c then readSingle reversed (gap.add c) (m.move 1) r
    else if c == '\'' then return .of (gap.text.reverse ++ reversed) (m.move 1) (m.move 1) r
    else if m.column == 0 && atDocumentMark (c :: r) then throw .unexpected
    else readSingle (c :: (gap.text.reverse ++ reversed)) {} (m.move 1) r

/-- The characters that are written as one letter after a backslash. -/
def escapeLetters : List (Char × Char) :=
  [('0', '\x00'), ('a', '\x07'), ('b', '\x08'), ('t', '\t'), ('\t', '\t'), ('n', '\n'),
    ('v', '\x0b'), ('f', '\x0c'), ('r', '\r'), ('e', '\x1b'), (' ', ' '), ('"', '"'),
    ('\'', '\''), ('\\', '\\'), ('N', '\u0085'), ('_', '\u00a0'),
    ('L', '\u2028'), ('P', '\u2029')]

/-- The value of a digit of base sixteen. -/
def hexDigit? (c : Char) : Option Nat :=
  if '0' ≤ c && c ≤ '9' then some (c.toNat - 48)
  else if 'a' ≤ c && c ≤ 'f' then some (c.toNat - 87)
  else if 'A' ≤ c && c ≤ 'F' then some (c.toNat - 55)
  else none

/-- The character with the code that the first `n` digits give. -/
def hexChar? (n : Nat) (digits : List Char) : Option Char := do
  let ds ← (digits.take n).mapM hexDigit?
  let code := ds.foldl (fun k d => k * 16 + d) 0
  if ds.length = n ∧ code.isValidChar then return Char.ofNat code else none

/-- The character that an escape stands for, and how many characters follow the backslash. -/
def escape? : List Char → Option (Char × Nat)
  | [] => none
  | 'x' :: r => (hexChar? 2 r).map (·, 3)
  | 'u' :: r => (hexChar? 4 r).map (·, 5)
  | 'U' :: r => (hexChar? 8 r).map (·, 9)
  | c :: _ => (escapeLetters.lookup c).map (·, 1)

/-- Reads the rest of a scalar in double quotes, of which `skip` characters are read already. -/
def readDouble :
    (skip : Nat) → (reversed : List Char) → Gap → Mark → List Char → Except YamlError ScalarRead
  | _, _, _, _, [] => throw .unclosed
  | skip + 1, reversed, gap, m, _ :: r => readDouble skip reversed gap m r
  | 0, reversed, gap, m, c :: r =>
    if isBreak c then readDouble 0 reversed (gap.add c) m.newline r
    else if isBlank c then readDouble 0 reversed (gap.add c) (m.move 1) r
    else
      let before := gap.text.reverse ++ reversed
      if c == '"' then return .of before (m.move 1) (m.move 1) r
      else if m.column == 0 && atDocumentMark (c :: r) then throw .unexpected
      else if c == '\\' then
        if (r.head?.map isBreak).getD false then readDouble 1 before .escaped (m.move 1).newline r
        else
          match escape? r with
          | some (e, n) => readDouble n (e :: before) {} (m.move (n + 1)) r
          | none => throw .escape
      else readDouble 0 (c :: before) {} (m.move 1) r

end TemplateCompiler.Yaml
