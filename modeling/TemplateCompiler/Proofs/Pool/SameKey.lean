import TemplateCompiler.Proofs.Pool.Expansion

/-!
# Keys are complete

The key of a constant is one flat text, put together from separators, brackets and the keys of the
parts, and a quoted part may contain every separator. It is read in one way only:

* `MapKey.legible_of_isName`, `Text.close_not_mem_of_isName` : keys of maps and variables that are named
  by identifiers, as everything the compiler names is, can be told from what follows them;
* `Term.keyOf_written` : a key says nothing of types and spans, nor of what is pooled;
* `Term.keyOf_eq_iff_written_eq` : two constants have the same key exactly if they are written alike.
-/

namespace TemplateCompiler

/-! ### Identifiers -/

/-- An identifier has letters and digits, `_` and `$` only. -/
theorem Text.isNamePart_of_isName {n : Text} (h : isName n = true) : ∀ b ∈ n, isNamePart b = true := by
  cases n with
  | nil => cases h
  | cons b r =>
      rw [isName, Bool.and_eq_true, List.all_eq_true] at h
      refine List.forall_mem_cons.mpr ⟨?_, h.2⟩
      rw [isNamePart, h.1, Bool.true_or]

theorem Text.not_mem_of_isName {n : Text} (h : isName n = true) {b : UInt8} (hb : isNamePart b = false) :
    b ∉ n := by
  intro hmem
  rw [isNamePart_of_isName h b hmem] at hb
  cases hb

/-- An identifier does not close the key of a variable. -/
theorem Text.close_not_mem_of_isName {n : Text} (h : isName n = true) : ')'.toUInt8 ∉ n :=
  not_mem_of_isName h (by decide)

theorem MapKey.legible_of_isName {k : MapKey} (h : k.quoted = false → Text.isName k.name = true) :
    k.Legible := by
  intro hquoted b hb
  have hn := h hquoted
  have hne : ∀ {c : UInt8}, Text.isNamePart c = false → b ≠ c := fun hc hbc =>
    Text.not_mem_of_isName hn hc (hbc ▸ hb)
  exact ⟨hne (by decide), hne (by decide), hne (by decide)⟩

/-! ### What a key does not say -/

namespace Term

mutual

theorem keyOf_written : ∀ t : Term, t.written.keyOf = t.keyOf
  | .lit _ v => congrArg Except.ok (Primitive.keyOf_plain v)
  | .array _ es => by rw [keyOf, ← keysOf_written es]; rfl
  | .map _ es => by rw [keyOf, ← keysOfEntries_written es]; rfl
  | .pooled _ t => keyOf_written t
  | .cond _ _ _ none | .cond _ _ _ (some _) => rfl
  | .var .. | .prop .. | .key .. | .call .. | .binary .. | .not .. | .present .. | .cast ..
  | .external .. | .function .. => rfl

theorem keysOf_written : ∀ ts : List Term,
    keysOf (expandAll Names.empty (fun _ => none) ts) = keysOf ts
  | [] => rfl
  | t :: ts => by rw [keysOf, ← keyOf_written t, ← keysOf_written ts]; rfl

theorem keysOfEntries_written : ∀ es : List (MapKey × Term),
    keysOfEntries (expandEntries Names.empty (fun _ => none) es) = keysOfEntries es
  | [] => rfl
  | (_, t) :: es => by rw [keysOfEntries, ← keyOf_written t, ← keysOfEntries_written es]; rfl

end

/-- Constants have keys, and the key tells which constant it is: with every pooled literal replaced by
the literal itself, and without types, spans and the difference between a whole number and a double
that is written alike, constants with the same key are the same. -/
theorem keyOf_eq_iff_written_eq {a b : Term} (ha : a.Keyable) (hb : b.Keyable) :
    (∃ k, a.keyOf = .ok k) ∧ (a.keyOf = b.keyOf ↔ a.written = b.written) := by
  obtain ⟨k, hk⟩ := exists_keyOf a ha
  refine ⟨⟨k, hk⟩, fun h => written_eq_of_keyOf_eq ha hb hk (h.symm.trans hk), fun h => ?_⟩
  rw [← keyOf_written a, h, keyOf_written b]

end Term

namespace Sample

/-- Two texts and a variable, the texts pooled as a literal of their own. -/
def separate : Term := .map {} [(⟨"k", false⟩, .pooled "" (.ofList [.ofText "a", .ofText "b"])),
  (⟨"\x7d", true⟩, .ofVar "_c0")]

/-- The same but for one text, which has in it what stands between the two texts. -/
def joined : Term := .map {} [(⟨"k", false⟩, .ofList [.ofText "a\",\"b"]), (⟨"\x7d", true⟩, .ofVar "_c0")]

theorem keyOf_eq_iff_joined : separate.Keyable ∧ joined.Keyable ∧
    (separate.keyOf = joined.keyOf ↔ separate.written = joined.written) ∧
      separate.keyOf ≠ joined.keyOf := by
  have hk : (⟨"k", false⟩ : MapKey).Legible := MapKey.legible_of_isName fun _ => by decide
  have hclose : (⟨"\x7d", true⟩ : MapKey).Legible := MapKey.legible_of_isName fun h => nomatch h
  have hvar : ')'.toUInt8 ∉ ("_c0" : Text) := Text.close_not_mem_of_isName (by decide)
  have hseparate : separate.Keyable :=
    ⟨hk, ⟨trivial, trivial, trivial⟩, hclose, hvar, trivial⟩
  have hjoined : joined.Keyable :=
    ⟨hk, ⟨trivial, trivial⟩, hclose, hvar, trivial⟩
  refine ⟨hseparate, hjoined, (Term.keyOf_eq_iff_written_eq hseparate hjoined).2, fun h => ?_⟩
  exact absurd (Except.ok.inj h) (by decide)

end Sample

end TemplateCompiler
