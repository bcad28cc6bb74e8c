import TemplateCompiler.Text.Point

/-!
# Reading a text as characters loses nothing

The points of a text, written back one after the other, are the text (`Text.ofPoints_points`): a
character is encoded as the bytes it was read from, and a stray byte stands for itself.
-/

namespace TemplateCompiler.Text

/-! ### Encoding what was read -/

theorem toNat_val_ofNat {n : Nat} (h : n.isValidChar) : (Char.ofNat n).val.toNat = n := by
  rw [Char.ofNat, dif_pos h]
  rfl

theorem ofNat_eq_of_toNat {b : UInt8} {n : Nat} (h : b.toNat = n) : UInt8.ofNat n = b := by
  rw [← h, UInt8.ofNat_toNat]

theorem encode_one {b : UInt8} (hb : b.toNat < 0x80) :
    String.utf8EncodeChar (Char.ofNat b.toNat) = [b] := by
  rw [String.utf8EncodeChar, toNat_val_ofNat (.inl (by omega)), if_pos (by omega), UInt8.ofNat_toNat]

theorem encode_two {b s : UInt8} {bits : Nat} (hb : b.toNat = 192 + bits) (hbits : 2 ≤ bits)
    (hbits' : bits < 32) (hs : 0x80 ≤ s.toNat ∧ s.toNat ≤ 0xBF) :
    String.utf8EncodeChar (Char.ofNat (bits * 64 + s.toNat % 64)) = [b, s] := by
  rw [String.utf8EncodeChar, toNat_val_ofNat (.inl (by omega)), if_neg (by omega), if_pos (by omega),
    ofNat_eq_of_toNat (b := b) (by omega), ofNat_eq_of_toNat (b := s) (by omega)]

theorem encode_three {b s t : UInt8} {bits : Nat} (hb : b.toNat = 224 + bits) (hbits : bits < 16)
    (hs : 0x80 ≤ s.toNat ∧ s.toNat ≤ 0xBF) (ht : 0x80 ≤ t.toNat ∧ t.toNat ≤ 0xBF)
    (hlong : bits = 0 → 0xA0 ≤ s.toNat) (hsurrogate : bits = 13 → s.toNat ≤ 0x9F) :
    String.utf8EncodeChar (Char.ofNat ((bits * 64 + s.toNat % 64) * 64 + t.toNat % 64)) = [b, s, t] := by
  have hvalid : ((bits * 64 + s.toNat % 64) * 64 + t.toNat % 64).isValidChar := by
    by_cases h : bits ≤ 13
    · exact .inl (by omega)
    · exact .inr (by omega)
  rw [String.utf8EncodeChar, toNat_val_ofNat hvalid, if_neg (by omega), if_neg (by omega),
    if_pos (by omega), ofNat_eq_of_toNat (b := b) (by omega), ofNat_eq_of_toNat (b := s) (by omega),
    ofNat_eq_of_toNat (b := t) (by omega)]

theorem encode_four {b s t u : UInt8} {bits : Nat} (hb : b.toNat = 240 + bits) (hbits : bits < 5)
    (hs : 0x80 ≤ s.toNat ∧ s.toNat ≤ 0xBF) (ht : 0x80 ≤ t.toNat ∧ t.toNat ≤ 0xBF)
    (hu : 0x80 ≤ u.toNat ∧ u.toNat ≤ 0xBF) (hlong : bits = 0 → 0x90 ≤ s.toNat)
    (hlast : bits = 4 → s.toNat ≤ 0x8F) :
    String.utf8EncodeChar
      (Char.ofNat (((bits * 64 + s.toNat % 64) * 64 + t.toNat % 64) * 64 + u.toNat % 64)) =
        [b, s, t, u] := by
  rw [String.utf8EncodeChar, toNat_val_ofNat (.inr (by omega)), if_neg (by omega), if_neg (by omega),
    if_neg (by omega), ofNat_eq_of_toNat (b := b) (by omega), ofNat_eq_of_toNat (b := s) (by omega),
    ofNat_eq_of_toNat (b := t) (by omega), ofNat_eq_of_toNat (b := u) (by omega)]

/-- What a first byte tells about the character it starts. -/
def Leads (b : UInt8) : Nat × UInt8 × UInt8 × Nat → Prop
  | (more, lo, hi, bits) => 0x80 ≤ lo.toNat ∧ hi.toNat ≤ 0xBF ∧
      ((more = 1 ∧ b.toNat = 192 + bits ∧ 2 ≤ bits ∧ bits < 32) ∨
        (more = 2 ∧ b.toNat = 224 + bits ∧ bits < 16 ∧ (bits = 0 → 0xA0 ≤ lo.toNat) ∧
          (bits = 13 → hi.toNat ≤ 0x9F)) ∨
        (more = 3 ∧ b.toNat = 240 + bits ∧ bits < 5 ∧ (bits = 0 → 0x90 ≤ lo.toNat) ∧
          (bits = 4 → hi.toNat ≤ 0x8F)))

instance (b : UInt8) : DecidablePred (Leads b) := fun (_, _, _, _) =>
  inferInstanceAs (Decidable (_ ∧ _ ∧ (_ ∨ _ ∨ _)))

theorem leads_of_lead? {b : UInt8} {l : Nat × UInt8 × UInt8 × Nat} (h : lead? b = some l) :
    Leads b l := by
  have hall : ∀ n < 256, ∀ l ∈ lead? (UInt8.ofNat n), Leads (UInt8.ofNat n) l := by
    decide +kernel
  have hb := hall b.toNat b.toNat_lt
  rw [UInt8.ofNat_toNat] at hb
  exact hb l h

/-- A point is encoded as the bytes it was read from. -/
theorem bytes_point (b : UInt8) (r : Text) :
    (point b r).1.bytes = b :: r.take (point b r).2 := by
  unfold point
  split
  · next hb => exact encode_one (UInt8.lt_iff_toNat_lt.mp hb)
  · split
    · next more lo hi bits second rest hlead =>
        dsimp only
        split
        · next hwhole =>
            simp only [Bool.and_eq_true, beq_iff_eq, decide_eq_true_eq, List.all_eq_true,
              UInt8.le_iff_toNat_le] at hwhole
            obtain ⟨⟨⟨hlength, hlo⟩, hhi⟩, htail⟩ := hwhole
            obtain ⟨hlo', hhi', hmore⟩ := leads_of_lead? hlead
            rcases hmore with ⟨rfl, hb, h⟩ | ⟨rfl, hb, h⟩ | ⟨rfl, hb, h⟩
            · exact encode_two hb h.1 h.2 (by omega)
            · obtain _ | ⟨t, rest⟩ := rest
              · cases hlength
              · have ht := htail t (by simp)
                exact encode_three hb h.1 (by omega) ht (by omega) (by omega)
            · obtain _ | ⟨t, _ | ⟨u, rest⟩⟩ := rest
              · cases hlength
              · cases hlength
              · have ht := htail t (by simp)
                have hu := htail u (by simp)
                exact encode_four hb h.1 (by omega) ht hu (by omega) (by omega)
        · rfl
    · rfl

theorem ofPoints_pointsAfter (skip : Nat) (t : Text) : ofPoints (pointsAfter skip t) = t.drop skip := by
  fun_induction pointsAfter skip t with
  | case1 skip => exact List.drop_nil.symm
  | case2 skip b r ih => exact ih
  | case3 b r ih =>
      rw [ofPoints] at ih ⊢
      rw [List.flatMap_cons, ih, bytes_point, List.cons_append, List.take_append_drop]
      rfl

theorem ofPoints_points (t : Text) : ofPoints t.points = t := ofPoints_pointsAfter 0 t

end TemplateCompiler.Text
