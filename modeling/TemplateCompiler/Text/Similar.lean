import TemplateCompiler.Text.Fold

/-!
# Similar names

`Text.closest?` finds the name someone may have meant: among the names that have all characters of
the given one in the same order, whatever their case, the one with the fewest changes.
-/

namespace TemplateCompiler.Text

def chars (text : Text) : List Char := text.points.map Point.toChar

/-- One row of the table of edit distances. `diagonal` and `left` are the entries before, in the
row above and in this row. -/
def editRow (a : Char) : (diagonal left : Nat) → List Char → (above : List Nat) → List Nat
  | diagonal, left, b :: bs, up :: above =>
    let here := if a == b then diagonal else 1 + min diagonal (min left up)
    here :: editRow a up here bs above
  | _, _, _, _ => []

/-- How many characters have to be put in, taken out or replaced to turn one list into another. -/
def editDistance (source target : List Char) : Nat :=
  let next (row : List Nat) (a : Char) : List Nat :=
    match row with
    | first :: above => (first + 1) :: editRow a first (first + 1) target above
    | [] => []
  ((source.foldl next (List.range (target.length + 1))).getLast?).getD 0

/-- Whether a name has all characters of a text in the same order, whatever their case. -/
def suggests (source name : Text) : Bool :=
  let source := source.lower
  let name := name.lower
  source.length ≤ name.length && (chars source).isSublist (chars name)

/-- The nearest of the names that a text suggests, the first of several. -/
def closest? (source : Text) (names : List Text) : Option Text :=
  let distance (name : Text) := editDistance (chars source) (chars name)
  (names.filter (suggests source)).foldl
    (fun best name =>
      match best with
      | none => some name
      | some b => if distance name < distance b then some name else some b)
    none

end TemplateCompiler.Text
