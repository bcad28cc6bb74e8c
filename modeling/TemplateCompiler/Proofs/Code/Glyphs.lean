import TemplateCompiler.Code.Emit

/-!
# Glyphs of printed terms

The text of a term is a row of `Glyph`s: words, quoted texts, brackets, operators. A glyph can be read
off the front of a text (`Glyph.scan`), and what was written is read back (`Glyph.scan_text`), if a name
is not followed by another name byte.
-/

namespace TemplateCompiler

/-! ### Quoted texts -/

/-- Reads a quoted text behind its opening quote: the text, and what follows the closing quote. -/
def unquote : Text → Option (Text × Text)
  | [] => none
  | b :: r =>
    if b == '\''.toUInt8 then some ([], r)
    else if b == '\\'.toUInt8 then
      match r with
      | [] => none
      | c :: r' =>
        let byte := if c == 'n'.toUInt8 then '\n'.toUInt8 else if c == 'r'.toUInt8 then '\r'.toUInt8 else c
        (unquote r').map fun (t, rest) => (byte :: t, rest)
    else (unquote r).map fun (t, rest) => (b :: t, rest)

theorem unquote_escapeByte (b : UInt8) (r : Text) :
    unquote (escapeByte false b ++ r) = (unquote r).map fun (t, rest) => (b :: t, rest) := by
  unfold escapeByte
  split
  · next h =>
      have hb : b = '\''.toUInt8 ∨ b = '\\'.toUInt8 := by simpa using h
      rcases hb with rfl | rfl <;> rfl
  · next h =>
      have hb : ¬ b = '\''.toUInt8 ∧ ¬ b = '\\'.toUInt8 := by simpa using h
      split
      · next hn =>
          obtain rfl : b = '\n'.toUInt8 := by simpa using hn
          rfl
      · split
        · next hr =>
            obtain rfl : b = '\r'.toUInt8 := by simpa using hr
            rfl
        · rw [List.singleton_append, unquote.eq_def]
          simp [hb]

theorem unquote_flatMap_escapeByte (t rest : Text) :
    unquote (t.flatMap (escapeByte false) ++ ('\''.toUInt8 :: rest)) = some (t, rest) := by
  induction t with
  | nil => simp [unquote.eq_def]
  | cons b t ih =>
      rw [List.flatMap_cons, List.append_assoc, unquote_escapeByte, ih]
      rfl

/-! ### Glyphs -/

/-- A piece of the text of a term. -/
inductive Glyph where
  /-- A name, or a literal that is a word. -/
  | word (t : Text)
  | quoted (t : Text)
  /-- A point and a name. -/
  | member (name : Text)
  | openBracket
  | closeBracket
  | openParen
  | closeParen
  | bang
  | comma
  | operator (o : Operator)
  | question
  | colon
  deriving DecidableEq

namespace Glyph

def text : Glyph → Text
  | word t => t
  | quoted t => escapeIdentifier t false true
  | member name => "." ++ name
  | openBracket => "["
  | closeBracket => "]"
  | openParen => "("
  | closeParen => ")"
  | bang => "!"
  | comma => ", "
  | operator o => " " ++ o.text?.getD [] ++ " "
  | question => " ? "
  | colon => " : "

/-- Words are names, and operators can be written. -/
def Valid : Glyph → Prop
  | word t | member t => Text.isName t = true
  | operator o => o ≠ .unknown
  | _ => True

def endsInName : Glyph → Bool
  | word _ | member _ => true
  | _ => false

/-- What stands between two blanks. -/
def between? (t : Text) : Option Glyph :=
  if t = "?" then some question
  else if t = ":" then some colon
  else (Operator.ofText? t).map operator

/-- The glyph at the front of a text, and the text after it. -/
def scan : Text → Option (Glyph × Text)
  | [] => none
  | b :: r =>
    if Text.isNameStart b then some (word (b :: r.takeWhile Text.isNamePart), r.dropWhile Text.isNamePart)
    else if b == '\''.toUInt8 then (unquote r).map fun (t, rest) => (quoted t, rest)
    else if b == '.'.toUInt8 then some (member (r.takeWhile Text.isNamePart), r.dropWhile Text.isNamePart)
    else if b == '['.toUInt8 then some (openBracket, r)
    else if b == ']'.toUInt8 then some (closeBracket, r)
    else if b == '('.toUInt8 then some (openParen, r)
    else if b == ')'.toUInt8 then some (closeParen, r)
    else if b == '!'.toUInt8 then some (bang, r)
    else if b == ','.toUInt8 then some (comma, r.drop 1)
    else if b == ' '.toUInt8 then
      (between? (r.takeWhile (· != ' '.toUInt8))).map fun m => (m, (r.dropWhile (· != ' '.toUInt8)).drop 1)
    else none

/-- A name ends where the bytes of names end. -/
theorem takeWhile_isNamePart_append {name rest : Text} (h : ∀ b ∈ name, Text.isNamePart b = true)
    (hrest : ∀ b, rest.head? = some b → Text.isNamePart b = false) :
    (name ++ rest).takeWhile Text.isNamePart = name ∧ (name ++ rest).dropWhile Text.isNamePart = rest := by
  have hstop : rest.takeWhile Text.isNamePart = [] ∧ rest.dropWhile Text.isNamePart = rest := by
    cases rest with
    | nil => exact ⟨rfl, rfl⟩
    | cons b r => simp [hrest b rfl]
  rw [List.takeWhile_append_of_pos h, List.dropWhile_append_of_pos h, hstop.1, hstop.2]
  exact ⟨List.append_nil name, rfl⟩

/-- What stands between two blanks is read back. -/
theorem scan_between {t rest : Text} {m : Glyph} (ht : ' '.toUInt8 ∉ t) (hm : between? t = some m) :
    scan (" " ++ t ++ " " ++ rest) = some (m, rest) := by
  have hne : ∀ b ∈ t, (b != ' '.toUInt8) = true := by
    intro b hb
    refine bne_iff_ne.mpr ?_
    rintro rfl
    exact ht hb
  have htake : (t ++ ' '.toUInt8 :: rest).takeWhile (· != ' '.toUInt8) = t := by
    rw [List.takeWhile_append_of_pos hne]
    simp
  have hdrop : (t ++ ' '.toUInt8 :: rest).dropWhile (· != ' '.toUInt8) = ' '.toUInt8 :: rest := by
    rw [List.dropWhile_append_of_pos hne]
    simp
  change scan (' '.toUInt8 :: (t ++ " " ++ rest)) = _
  rw [List.append_assoc, show (" " : Text) ++ rest = ' '.toUInt8 :: rest from rfl]
  have hscan : ∀ r, scan (' '.toUInt8 :: r) =
      (between? (r.takeWhile (· != ' '.toUInt8))).map fun m =>
        (m, (r.dropWhile (· != ' '.toUInt8)).drop 1) := fun _ => rfl
  rw [hscan, htake, hdrop, hm]
  rfl

/-- A glyph that was written is read back, if no name goes on behind it. -/
theorem scan_text {m : Glyph} {rest : Text} (hm : m.Valid)
    (hrest : m.endsInName = true → ∀ b, rest.head? = some b → Text.isNamePart b = false) :
    scan (m.text ++ rest) = some (m, rest) := by
  cases m with
  | word t =>
      cases t with
      | nil => cases hm
      | cons b t =>
          have hname : Text.isNameStart b = true ∧ t.all Text.isNamePart = true := by
            simpa [Valid, Text.isName] using hm
          obtain ⟨htake, hdrop⟩ := takeWhile_isNamePart_append (List.all_eq_true.mp hname.2) (hrest rfl)
          change scan (b :: (t ++ rest)) = _
          rw [scan, if_pos hname.1, htake, hdrop]
  | quoted t =>
      have htext : (quoted t).text ++ rest =
          '\''.toUInt8 :: (t.flatMap (escapeByte false) ++ ('\''.toUInt8 :: rest)) := by
        simp only [text, escapeIdentifier, Bool.true_or, if_true, List.append_assoc]
        rfl
      rw [htext]
      change (unquote _).map _ = _
      rw [unquote_flatMap_escapeByte]
      rfl
  | member name =>
      cases name with
      | nil => cases hm
      | cons b t =>
          have hname : Text.isNameStart b = true ∧ t.all Text.isNamePart = true := by
            simpa [Valid, Text.isName] using hm
          have hall : ∀ c ∈ b :: t, Text.isNamePart c = true := by
            refine List.forall_mem_cons.mpr ⟨?_, List.all_eq_true.mp hname.2⟩
            rw [Text.isNamePart, hname.1, Bool.true_or]
          obtain ⟨htake, hdrop⟩ := takeWhile_isNamePart_append hall (hrest rfl)
          change some (member ((b :: t ++ rest).takeWhile Text.isNamePart),
            (b :: t ++ rest).dropWhile Text.isNamePart) = _
          rw [htake, hdrop]
  | openBracket => rfl
  | closeBracket => rfl
  | openParen => rfl
  | closeParen => rfl
  | bang => rfl
  | comma => rfl
  | operator o =>
      refine scan_between ?_ ?_
      · cases o <;> decide
      · cases o <;> first | exact absurd rfl hm | decide
  | question => exact scan_between (t := "?") (by decide) rfl
  | colon => exact scan_between (t := ":") (by decide) rfl

theorem text_ne_nil {m : Glyph} (hm : m.Valid) : m.text ≠ [] := by
  cases m with
  | word t =>
      rintro rfl
      cases hm
  | _ => exact List.cons_ne_nil _ _

end Glyph

def Glyph.textAll (ms : List Glyph) : Text := ms.flatMap Glyph.text

end TemplateCompiler
