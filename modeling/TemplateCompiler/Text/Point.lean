import TemplateCompiler.Text.Basic

/-!
# Code points of a text

`Text.points` reads a text as UTF-8. A byte that is no part of a well-formed character stands for
itself, so nothing is lost: `Point.bytes` writes each point back as the bytes it was read from.
-/

namespace TemplateCompiler

/-- A character, or a byte that belongs to none. -/
inductive Point where
  | char (c : Char)
  | stray (b : UInt8)
  deriving DecidableEq, Repr

namespace Point

def bytes : Point → Text
  | char c => String.utf8EncodeChar c
  | stray b => [b]

/-- The character of a point, if it is one. -/
def toChar? : Point → Option Char
  | char c => some c
  | stray _ => none

/-- The character of a point; a stray byte counts as U+FFFD. -/
def toChar : Point → Char
  | char c => c
  | stray _ => Char.ofNat 0xFFFD

end Point

namespace Text

/-- For the first byte of a character of several bytes: how many follow, the range of the second
one, and the bits the first one gives. -/
def lead? (b : UInt8) : Option (Nat × UInt8 × UInt8 × Nat) :=
  if b < 0xC2 then none
  else if b < 0xE0 then some (1, 0x80, 0xBF, b.toNat % 32)
  else if b == 0xE0 then some (2, 0xA0, 0xBF, 0)
  else if b == 0xED then some (2, 0x80, 0x9F, 13)
  else if b < 0xF0 then some (2, 0x80, 0xBF, b.toNat % 16)
  else if b == 0xF0 then some (3, 0x90, 0xBF, 0)
  else if b < 0xF4 then some (3, 0x80, 0xBF, b.toNat % 8)
  else if b == 0xF4 then some (3, 0x80, 0x8F, 4)
  else none

/-- The point that starts with byte `b` before `r`, and how many bytes of `r` belong to it. -/
def point (b : UInt8) (r : Text) : Point × Nat :=
  if b < 0x80 then (.char (Char.ofNat b.toNat), 0)
  else
    match lead? b, r with
    | some (more, lo, hi, bits), second :: _ =>
      let tail := r.take more
      if tail.length == more && lo ≤ second && second ≤ hi
          && tail.all (fun t => 0x80 ≤ t && t ≤ 0xBF) then
        (.char (Char.ofNat (tail.foldl (fun n t => n * 64 + t.toNat % 64) bits)), more)
      else (.stray b, 0)
    | _, _ => (.stray b, 0)

/-- The points of a text after the first `skip` bytes. -/
def pointsAfter : Nat → Text → List Point
  | _, [] => []
  | skip + 1, _ :: r => pointsAfter skip r
  | 0, b :: r => (point b r).1 :: pointsAfter (point b r).2 r

def points (text : Text) : List Point := pointsAfter 0 text

/-- The text as a string, if it is valid UTF-8. -/
def toString? (text : Text) : Option String := (text.points.mapM Point.toChar?).map String.ofList

def ofPoints (ps : List Point) : Text := ps.flatMap Point.bytes

end Text

end TemplateCompiler
