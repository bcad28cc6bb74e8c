import TemplateCompiler.Yaml.Basic

/-!
# Comments of YAML

Between two tokens there are blanks, line breaks and comments. A tab does not indent: at the start
of a line that may start a key it is passed over only before a comment that follows another one.

* `commentAhead` : whether the next thing after a comment is a comment;
* `passGap` : passes over everything up to the next token.
-/

namespace TemplateCompiler.Yaml

def commentReach : Nat := 511

/-- Whether there is a comment within `n` characters, after blanks and line feeds only. -/
def commentAhead : (n : Nat) → List Char → Bool
  | n + 1, c :: r => c == '#' || ((isBlank c || c == '\n') && commentAhead n r)
  | _, _ => false

/-- What is being passed over. -/
inductive GapPart where
  /-- Blanks and line breaks. -/
  | space
  | comment
  /-- Blanks and line feeds between two comments. -/
  | bridge
  deriving DecidableEq, Repr

/-- Where a gap ends. -/
structure GapEnd where
  /-- Whether a key may start there. -/
  keyAllowed : Bool
  mark : Mark
  rest : List Char

/-- Passes over a gap, inside brackets if `flow` is set. Outside of them a new line may start a
key. -/
def passGap (flow : Bool) : GapPart → (keyAllowed : Bool) → Mark → List Char → GapEnd
  | _, keyAllowed, m, [] => ⟨keyAllowed, m, []⟩
  | .space, keyAllowed, m, c :: r =>
    if isBreak c then passGap flow .space (keyAllowed || !flow) m.newline r
    else if c == '#' then passGap flow .comment keyAllowed (m.move 1) r
    else if c == ' ' || (c == '\t' && (flow || !keyAllowed)) then
      passGap flow .space keyAllowed (m.move 1) r
    else ⟨keyAllowed, m, c :: r⟩
  | .comment, keyAllowed, m, c :: r =>
    if !isBreak c then passGap flow .comment keyAllowed (m.move 1) r
    else if c == '\n' && commentAhead commentReach r then
      passGap flow .bridge keyAllowed m.newline r
    else passGap flow .space (keyAllowed || !flow) m.newline r
  | .bridge, keyAllowed, m, c :: r =>
    if c == '#' then passGap flow .comment keyAllowed (m.move 1) r
    else passGap flow .bridge keyAllowed (if c == '\n' then m.newline else m.move 1) r

end TemplateCompiler.Yaml
