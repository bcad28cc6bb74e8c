import TemplateCompiler.Proofs.Text.Quoted

/-!
# Valid UTF-8

`t.IsUtf8` : a text is the encoding of some characters.

A text may be cut where a character ends: behind characters (`isUtf8_append_iff`) and at every byte of
ASCII (`isUtf8_append_cons`), but not before a byte that goes on with a character (`not_isUtf8_cons`).
-/

namespace TemplateCompiler.Text

def IsUtf8 (t : Text) : Prop := (List.toByteArray t).IsValidUTF8

instance (t : Text) : Decidable t.IsUtf8 := inferInstanceAs (Decidable (ByteArray.IsValidUTF8 _))

def IsAscii (t : Text) : Prop := ∀ b ∈ t, b < 0x80

instance (t : Text) : Decidable t.IsAscii := List.decidableBAll _ t

theorem isUtf8_iff {t : Text} : t.IsUtf8 ↔ ∃ cs : List Char, t = cs.flatMap String.utf8EncodeChar := by
  constructor
  · rintro ⟨cs, hcs⟩
    rw [List.utf8Encode] at hcs
    exact ⟨cs, List.toByteArray_inj.mp hcs⟩
  · rintro ⟨cs, rfl⟩
    exact ⟨cs, List.utf8Encode.eq_1 cs ▸ rfl⟩

theorem isUtf8_nil : IsUtf8 [] := isUtf8_iff.mpr ⟨[], rfl⟩

theorem IsUtf8.append {t u : Text} (ht : t.IsUtf8) (hu : u.IsUtf8) : IsUtf8 (t ++ u) := by
  rw [IsUtf8, List.toByteArray_append]
  exact ByteArray.IsValidUTF8.append ht hu

theorem isUtf8_encodeChar (c : Char) : IsUtf8 (String.utf8EncodeChar c) :=
  Char.isValidUTF8_toByteArray_utf8EncodeChar

theorem isUtf8_ofCode (n : Int) : IsUtf8 (ofCode n) := by
  unfold ofCode
  split
  · exact isUtf8_encodeChar _
  · exact isUtf8_encodeChar _

theorem isUtf8_encodeChar_append {c : Char} {t : Text} :
    IsUtf8 (String.utf8EncodeChar c ++ t) ↔ t.IsUtf8 := by
  rw [IsUtf8, List.toByteArray_append, ← List.utf8Encode_singleton]
  exact ByteArray.isValidUTF8_utf8Encode_singleton_append_iff

/-- Behind characters, a text is valid if what follows is. -/
theorem isUtf8_append_iff {t u : Text} (ht : t.IsUtf8) : IsUtf8 (t ++ u) ↔ u.IsUtf8 := by
  obtain ⟨cs, rfl⟩ := isUtf8_iff.mp ht
  clear ht
  induction cs with
  | nil => exact Iff.rfl
  | cons c cs ih => rw [List.flatMap_cons, List.append_assoc, isUtf8_encodeChar_append, ih]

theorem encode_ofByte {b : UInt8} (hb : b < 0x80) :
    String.utf8EncodeChar (Char.ofNat b.toNat) = [b] :=
  encode_one (UInt8.lt_iff_toNat_lt.mp hb)

theorem isUtf8_cons {b : UInt8} (hb : b < 0x80) {t : Text} : IsUtf8 (b :: t) ↔ t.IsUtf8 := by
  rw [← List.singleton_append, ← encode_ofByte hb]
  exact isUtf8_encodeChar_append

theorem IsAscii.isUtf8 {t : Text} (h : t.IsAscii) : t.IsUtf8 := by
  induction t with
  | nil => exact isUtf8_nil
  | cons b t ih =>
      obtain ⟨hb, ht⟩ := List.forall_mem_cons.mp h
      exact (isUtf8_cons hb).mpr (ih ht)

/-- Before a byte of ASCII and behind it no character is cut in two. -/
theorem isUtf8_append_cons {b : UInt8} (hb : b < 0x80) {t u : Text} :
    IsUtf8 (t ++ b :: u) ↔ t.IsUtf8 ∧ u.IsUtf8 := by
  constructor
  · intro h
    obtain ⟨cs, hcs⟩ := isUtf8_iff.mp h
    have hsplit : t.IsUtf8 := by
      clear h
      induction cs generalizing t with
      | nil => exact absurd hcs (by simp)
      | cons c cs ih =>
          -- the first character lies in `t`, unless `t` is empty or ends inside of it
          rw [List.flatMap_cons] at hcs
          rcases List.append_eq_append_iff.mp hcs with ⟨m, hc, hrest⟩ | ⟨m, rfl, hrest⟩
          · cases m with
            | nil =>
                rw [List.append_nil] at hc
                exact hc ▸ isUtf8_encodeChar c
            | cons d m =>
                obtain ⟨rfl, -⟩ := List.cons.inj hrest
                have hmem : b ∈ String.utf8EncodeChar c := hc ▸ by simp
                by_cases hascii : c.toNat < 0x80
                · rw [encode_ascii hascii] at hc
                  obtain ⟨rfl, -⟩ | ⟨t', rfl, hnil⟩ := List.singleton_eq_append_iff.mp hc
                  · exact isUtf8_nil
                · have hle := le_of_mem_encode hascii hmem
                  have hlt := UInt8.lt_iff_toNat_lt.mp hb
                  exact absurd hle (Nat.not_le.mpr hlt)
          · exact isUtf8_encodeChar_append.mpr (ih hrest.symm)
    exact ⟨hsplit, (isUtf8_cons hb).mp ((isUtf8_append_iff hsplit).mp h)⟩
  · rintro ⟨ht, hu⟩
    exact ht.append ((isUtf8_cons hb).mpr hu)

/-- A character of several bytes starts with a byte of its own kind. -/
theorem encode_long {c : Char} (h : ¬ c.toNat < 0x80) : ∃ b d r, String.utf8EncodeChar c = b :: d :: r ∧
    0xC0 ≤ b.toNat ∧ 0x80 ≤ d.toNat ∧ d.toNat < 0xC0 := by
  have hv : ¬ c.val.toNat ≤ 127 := fun hv => h (Nat.lt_succ_of_le hv)
  rw [String.utf8EncodeChar, if_neg hv]
  split
  · refine ⟨_, _, _, rfl, ?_, ?_, ?_⟩ <;> rw [UInt8.toNat_ofNat'] <;> omega
  · split
    · refine ⟨_, _, _, rfl, ?_, ?_, ?_⟩ <;> rw [UInt8.toNat_ofNat'] <;> omega
    · refine ⟨_, _, _, rfl, ?_, ?_, ?_⟩ <;> rw [UInt8.toNat_ofNat'] <;> omega

/-- The first byte of a text starts a character: one of ASCII, or one that goes on with another byte. -/
theorem IsUtf8.head {b : UInt8} {t : Text} (h : IsUtf8 (b :: t)) :
    b < 0x80 ∨ 0xC0 ≤ b ∧ ∃ d r, t = d :: r ∧ 0x80 ≤ d ∧ d < 0xC0 := by
  obtain ⟨cs, hcs⟩ := isUtf8_iff.mp h
  cases cs with
  | nil => cases hcs
  | cons c cs =>
      rw [List.flatMap_cons] at hcs
      by_cases hc : c.toNat < 0x80
      · rw [encode_ascii hc] at hcs
        obtain ⟨rfl, -⟩ := List.cons.inj hcs
        refine .inl (UInt8.lt_iff_toNat_lt.mpr ?_)
        rw [UInt8.toNat_ofNat']
        exact Nat.lt_of_le_of_lt (Nat.mod_le _ _) hc
      · obtain ⟨b', d, r, hencode, hb, hd, hd'⟩ := encode_long hc
        rw [hencode] at hcs
        obtain ⟨rfl, rfl⟩ := List.cons.inj hcs
        exact .inr ⟨UInt8.le_iff_toNat_le.mpr hb, d, _, rfl, UInt8.le_iff_toNat_le.mpr hd,
          UInt8.lt_iff_toNat_lt.mpr hd'⟩

/-- No text starts inside a character. -/
theorem not_isUtf8_cons {b : UInt8} (hb : 0x80 ≤ b) (hb' : b < 0xC0) (t : Text) : ¬ IsUtf8 (b :: t) := by
  intro h
  rcases h.head with hlt | ⟨hle, -⟩
  · exact absurd hb (UInt8.not_le.mpr hlt)
  · exact absurd hle (UInt8.not_le.mpr hb')

end TemplateCompiler.Text
