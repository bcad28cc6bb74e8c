import TemplateCompiler.Proofs.Run
import TemplateCompiler.Proofs.Text.Numeral
import TemplateCompiler.Selector.Parser

/-!
# Attribute names in selectors

A selector has a backslash before every backslash and dollar sign of an attribute's name, and the name
is read without them. A run of backslashes before a dollar sign is read in pairs, so it must be written
in pairs too: escaping doubles the backslashes first, and then marks the dollar signs
(`escapeAttribute_eq_replace`).

* `unescapeBytes_escapeAttribute_append` : an escaped name is read as the name, whatever follows it;
* `scanSelector_attribute` : attribute bytes in brackets are one piece of a selector;
* `escapeAttribute_reads_back` : so a selector can ask for any name that is made of such bytes.
-/

namespace TemplateCompiler

/-! ### Escaping -/

theorem escapeAttribute_cons (b : UInt8) (s : Text) :
    escapeAttribute (b :: s) =
      (if b == '\\'.toUInt8 || b == '$'.toUInt8 then ['\\'.toUInt8, b] else [b]) ++ escapeAttribute s :=
  List.flatMap_cons

/-- Escaping is to double the backslashes and then to put one before each dollar sign. -/
theorem escapeAttribute_eq_replace (s : Text) :
    escapeAttribute s = Text.replace '$'.toUInt8 "\\$" (Text.replace '\\'.toUInt8 "\\\\" s) := by
  rw [Text.replace, Text.replace, List.flatMap_assoc, escapeAttribute]
  congr 1
  funext b
  by_cases hslash : b = '\\'.toUInt8
  · subst hslash
    rfl
  · by_cases hdollar : b = '$'.toUInt8
    · subst hdollar
      rfl
    · simp [hslash, hdollar]

/-- A byte behind a backslash is read as it is. -/
theorem unescapeBytes_marked (b : UInt8) (r : Text) :
    unescapeBytes ('\\'.toUInt8 :: b :: r) = (unescapeBytes r).map (b :: ·) := rfl

theorem unescapeBytes_plain {b : UInt8} (hslash : b ≠ '\\'.toUInt8) (hdollar : b ≠ '$'.toUInt8) (r : Text) :
    unescapeBytes (b :: r) = (unescapeBytes r).map (b :: ·) := by
  cases r <;> simp [unescapeBytes, hslash, hdollar]

/-- An escaped name is read as the name, whatever follows it. -/
theorem unescapeBytes_escapeAttribute_append (s r : Text) :
    unescapeBytes (escapeAttribute s ++ r) = (unescapeBytes r).map (s ++ ·) := by
  induction s with
  | nil => simp [escapeAttribute]
  | cons b s ih =>
      have hstep : unescapeBytes (escapeAttribute (b :: s) ++ r) =
          (unescapeBytes (escapeAttribute s ++ r)).map (b :: ·) := by
        rw [escapeAttribute_cons]
        split
        · exact unescapeBytes_marked b (escapeAttribute s ++ r)
        · next hb =>
            simp only [Bool.or_eq_true, beq_iff_eq, not_or] at hb
            exact unescapeBytes_plain hb.1 hb.2 (escapeAttribute s ++ r)
      rw [hstep, ih, Option.map_map]
      rfl

theorem unescapeAttribute_escapeAttribute (s : Text) :
    unescapeAttribute (escapeAttribute s) = .ok s := by
  have h := unescapeBytes_escapeAttribute_append s []
  simp only [List.append_nil, unescapeBytes, Option.map_some] at h
  rw [unescapeAttribute, h]

theorem escapeAttribute_ne_nil {s : Text} (h : s ≠ []) : escapeAttribute s ≠ [] := by
  cases s with
  | nil => exact absurd rfl h
  | cons b s =>
      rw [escapeAttribute_cons]
      split <;> simp

/-! ### Brackets -/

namespace SelectorPiece

/-- The bytes of attribute names: letters, digits and six marks. -/
theorem isAttributeByte_iff (b : UInt8) : isAttributeByte b = true ↔
    Text.isLetter b.toNat = true ∨ Text.isDigit b.toNat = true ∨ b ∈ ("_-.*\\$" : Text) := by
  have hmarks : ("_-.*\\$" : Text) =
      ['_'.toUInt8, '-'.toUInt8, '.'.toUInt8, '*'.toUInt8, '\\'.toUInt8, '$'.toUInt8] := rfl
  rw [hmarks]
  simp only [isAttributeByte, isNameByte, Bool.or_eq_true, beq_iff_eq, List.mem_cons, List.not_mem_nil,
    or_false, or_assoc]

/-- Escaping adds nothing but backslashes, which are attribute bytes. -/
theorem isAttributeByte_of_mem_escapeAttribute {s : Text} (h : ∀ b ∈ s, isAttributeByte b = true) :
    ∀ b ∈ escapeAttribute s, isAttributeByte b = true := by
  intro b hb
  obtain ⟨c, hc, hb⟩ := List.mem_flatMap.mp hb
  split at hb
  · rcases List.mem_cons.mp hb with rfl | hb
    · decide
    · rw [List.mem_singleton.mp hb]
      exact h c hc
  · rw [List.mem_singleton.mp hb]
    exact h c hc

variable {name : Text}

theorem attr?_name (hne : name ≠ []) (hname : ∀ b ∈ name, isAttributeByte b = true) (r : Text) :
    attr? (name ++ ']'.toUInt8 :: r) = some (attr name [], name.length + 1) := by
  have hbracket : isAttributeByte ']'.toUInt8 = false := by decide
  have htake : (name ++ ']'.toUInt8 :: r).takeWhile isAttributeByte = name := by
    rw [List.takeWhile_append_of_pos hname, List.takeWhile_cons_of_neg (by simp [hbracket]), List.append_nil]
  have hdrop : (name ++ ']'.toUInt8 :: r).dropWhile isAttributeByte = ']'.toUInt8 :: r := by
    rw [List.dropWhile_append_of_pos hname, List.dropWhile_cons_of_neg (by simp [hbracket])]
  rw [attr?, htake, hdrop]
  simp [hne]

/-- The bytes of a piece are passed over. -/
theorem scanFrom_eq_drop (skip : Nat) (text : Text) : scanFrom skip text = scanFrom 0 (text.drop skip) := by
  induction skip generalizing text with
  | zero => rfl
  | succ skip ih =>
      cases text with
      | nil => rfl
      | cons b r => exact ih r

/-- Attribute bytes in brackets are one piece, whatever follows it. -/
theorem scanSelector_attribute (hne : name ≠ []) (hname : ∀ b ∈ name, isAttributeByte b = true) (r : Text) :
    scanSelector ('['.toUInt8 :: (name ++ ']'.toUInt8 :: r)) = attr name [] :: scanSelector r := by
  have hnext : next? '['.toUInt8 (name ++ ']'.toUInt8 :: r) = some (attr name [], name.length + 1) :=
    attr?_name hne hname r
  have hrest : (name ++ ']'.toUInt8 :: r).drop (name.length + 1) = r := by
    simp [List.drop_append]
  rw [scanSelector, scanFrom, hnext]
  dsimp only
  rw [scanFrom_eq_drop, hrest]
  rfl

end SelectorPiece

/-- A name in brackets is read as an attribute without a value. -/
theorem parseSelectors_attribute {name : Text} (hne : name ≠ [])
    (hname : ∀ b ∈ name, SelectorPiece.isAttributeByte b = true) :
    parseSelectors ("[" ++ name ++ "]") = (unescapeAttribute name).map fun t => [{ attrs := [(t, [])] }] := by
  have hscan : scanSelector ("[" ++ name ++ "]") = [.attr name []] :=
    SelectorPiece.scanSelector_attribute hne hname []
  rw [parseSelectors, hscan, List.foldlM_cons, SelectorDraft.add]
  cases unescapeAttribute name with
  | error e => rfl
  | ok t => rfl

/-- An escaped name is read as the name, and in brackets as a selector for the one attribute. -/
theorem escapeAttribute_reads_back :
    (∀ s : Text, unescapeAttribute (escapeAttribute s) = .ok s) ∧
      ∀ s : Text, s ≠ [] →
        (∀ b ∈ s, Text.isLetter b.toNat = true ∨ Text.isDigit b.toNat = true ∨ b ∈ ("_-.*\\$" : Text)) →
          parseSelectors ("[" ++ escapeAttribute s ++ "]") = .ok [{ attrs := [(s, [])] }] := by
  refine ⟨unescapeAttribute_escapeAttribute, fun s hne hs => ?_⟩
  have hbytes : ∀ b ∈ s, SelectorPiece.isAttributeByte b = true := fun b hb =>
    (SelectorPiece.isAttributeByte_iff b).mpr (hs b hb)
  rw [parseSelectors_attribute (escapeAttribute_ne_nil hne)
    (SelectorPiece.isAttributeByte_of_mem_escapeAttribute hbytes), unescapeAttribute_escapeAttribute]
  rfl

namespace Sample

/-- A dollar sign behind two backslashes. -/
theorem escapeAttribute_reads_back_dollar :
    unescapeAttribute "a\\\\\\\\\\$" = .ok "a\\\\$" ∧
      parseSelectors "[a\\\\\\\\\\$]" = .ok [{ attrs := [("a\\\\$", [])] }] :=
  ⟨escapeAttribute_reads_back.1 "a\\\\$",
    escapeAttribute_reads_back.2 "a\\\\$" (by decide) (Text.forall_mem_of_all rfl)⟩

end Sample

end TemplateCompiler
