import TemplateCompiler.Text.Basic

/-!
# Numerals

A decimal numeral tells its number, and can be told apart from what stands before it unless that ends
with a digit (`Text.append_ofNat_inj`). Most names the compiler makes up end with a numeral, so this is
what keeps them apart.
-/

namespace TemplateCompiler.Text

/-- What a test finds of the bytes of a text holds of each. -/
theorem forall_mem_of_all {P : UInt8 → Prop} [DecidablePred P] {t : Text}
    (h : (t.all fun b => decide (P b)) = true) : ∀ b ∈ t, P b :=
  fun b hb => of_decide_eq_true (List.all_eq_true.mp h b hb)

theorem toNat_toUInt8_of_isDigit {c : Char} (h : c.isDigit) :
    c.toUInt8.toNat = c.toNat ∧ 48 ≤ c.toNat ∧ c.toNat ≤ 57 := by
  obtain ⟨hlo, hhi⟩ := Char.isDigit_iff_toNat.mp h
  have hlo : 48 ≤ c.toNat := hlo
  have hhi : c.toNat ≤ 57 := hhi
  refine ⟨?_, hlo, hhi⟩
  change c.val.toUInt8.toNat = c.val.toNat
  rw [UInt32.toNat_toUInt8]
  exact Nat.mod_eq_of_lt (Nat.lt_of_le_of_lt hhi (by decide))

theorem isDigit_of_mem_toDigits {n : Nat} {c : Char} (h : c ∈ Nat.toDigits 10 n) : c.isDigit :=
  Nat.isDigit_of_mem_toDigits (by decide) (by decide) h

theorem isDigit_of_mem_ofNat {n : Nat} {b : UInt8} (h : b ∈ ofNat n) : isDigit b.toNat = true := by
  obtain ⟨c, hc, rfl⟩ := List.mem_map.mp h
  obtain ⟨hb, hlo, hhi⟩ := toNat_toUInt8_of_isDigit (isDigit_of_mem_toDigits hc)
  rw [isDigit, hb, decide_eq_true hlo, decide_eq_true hhi]
  rfl

theorem ofNat_ne_nil (n : Nat) : ofNat n ≠ [] := by
  rw [ofNat, Ne, List.map_eq_nil_iff]
  exact Nat.toDigits_ne_nil

theorem ofNat_inj {n m : Nat} (h : ofNat n = ofNat m) : n = m := by
  have hbytes : ∀ {cs cs' : List Char}, (∀ c ∈ cs, c.isDigit) → (∀ c ∈ cs', c.isDigit) →
      cs.map Char.toUInt8 = cs'.map Char.toUInt8 → cs = cs' := by
    intro cs
    induction cs with
    | nil =>
        intro cs' _ _ h
        exact (List.map_eq_nil_iff.mp h.symm).symm
    | cons c cs ih =>
        intro cs' hcs hcs' h
        cases cs' with
        | nil => cases h
        | cons c' cs' =>
            rw [List.map_cons, List.map_cons, List.cons.injEq] at h
            have hc := (toNat_toUInt8_of_isDigit (hcs c List.mem_cons_self)).1
            have hc' := (toNat_toUInt8_of_isDigit (hcs' c' List.mem_cons_self)).1
            have hcc : c = c' := by
              apply Char.ext
              apply UInt32.toNat_inj.mp
              change c.toNat = c'.toNat
              rw [← hc, ← hc', h.1]
            rw [hcc, ih (fun x hx => hcs x (List.mem_cons_of_mem c hx))
              (fun x hx => hcs' x (List.mem_cons_of_mem c' hx)) h.2]
  have hdigits := hbytes (fun c hc => isDigit_of_mem_toDigits hc)
    (fun c hc => isDigit_of_mem_toDigits hc) h
  rw [← Nat.ofDigitChars_ten_toDigits (n := n), hdigits, Nat.ofDigitChars_ten_toDigits]

/-- Whether the last byte of a text is no digit. -/
def EndsOpen (t : Text) : Prop := ∀ b ∈ t.getLast?, isDigit b.toNat = false

theorem takeWhile_reverse_append_ofNat {t : Text} (h : EndsOpen t) (n : Nat) :
    (t ++ ofNat n).reverse.takeWhile (fun b => isDigit b.toNat) = (ofNat n).reverse := by
  rw [List.reverse_append, List.takeWhile_append_of_pos]
  · have hnone : t.reverse.takeWhile (fun b => isDigit b.toNat) = [] := by
      rw [EndsOpen, List.getLast?_eq_head?_reverse] at h
      cases hr : t.reverse with
      | nil => rfl
      | cons b r =>
          rw [hr] at h
          rw [List.takeWhile_cons_of_neg]
          rw [h b rfl]
          exact Bool.false_ne_true
    rw [hnone, List.append_nil]
  · intro b hb
    exact isDigit_of_mem_ofNat (List.mem_reverse.mp hb)

/-- A text that ends with a numeral tells the numeral from what stands before it. -/
theorem append_ofNat_inj {t u : Text} (ht : EndsOpen t) (hu : EndsOpen u) {n m : Nat}
    (h : t ++ ofNat n = u ++ ofNat m) : t = u ∧ n = m := by
  have hdigits := takeWhile_reverse_append_ofNat ht n
  rw [h, takeWhile_reverse_append_ofNat hu m, List.reverse_inj] at hdigits
  rw [hdigits] at h
  exact ⟨List.append_cancel_right h, (ofNat_inj hdigits).symm⟩

end TemplateCompiler.Text
