import Mathlib.Algebra.Ring.Nat
import TemplateCompiler.Number.Read
import TemplateCompiler.Text.Quoted
import TemplateCompiler.Proofs.Text.Points

/-!
# Quoted text can be read back

`Text.unescape` reads quoted text up to its closing quote. It gives back every text that was quoted,
whatever stands after it, so quoted text shows where it ends and which text it is
(`Text.quoted_append_inj`).
-/

namespace TemplateCompiler

namespace Text

/-- How many digits belong to the escape with a letter, and which bytes they stand for. -/
def escape (c : UInt8) : Nat × (Text → Text) :=
  if c = 'x'.toUInt8 then (2, fun ds => [UInt8.ofNat (number 16 ds)])
  else if c = 'u'.toUInt8 then (4, fun ds => ofCode (number 16 ds))
  else if c = 'U'.toUInt8 then (8, fun ds => ofCode (number 16 ds))
  else
    (0, fun _ => [(([('a', 7), ('b', 8), ('t', 9), ('n', 10), ('v', 11), ('f', 12), ('r', 13)].map
      fun (l, code) => (l.toUInt8, code)).lookup c).getD c])

/-- The text that is quoted up to the closing quote, and what follows. -/
def unescape : Text → Option (Text × Text)
  | [] => none
  | b :: r =>
    if b = '"'.toUInt8 then some ([], r)
    else if b = '\\'.toUInt8 then
      match r with
      | [] => none
      | c :: r =>
        (unescape (r.drop (escape c).1)).map fun (t, rest) =>
          ((escape c).2 (r.take (escape c).1) ++ t, rest)
    else (unescape r).map fun (t, rest) => (b :: t, rest)
  termination_by t => t.length
  decreasing_by all_goals simp only [List.length_drop, List.length_cons]; omega

/-- Bytes that stand for themselves. -/
theorem unescape_plain {t : Text} (ht : ∀ b ∈ t, b ≠ '"'.toUInt8 ∧ b ≠ '\\'.toUInt8) (r : Text) :
    unescape (t ++ r) = (unescape r).map fun (u, rest) => (t ++ u, rest) := by
  induction t with
  | nil => exact Option.map_id'.symm
  | cons b t ih =>
      obtain ⟨hb, ht⟩ := List.forall_mem_cons.mp ht
      rw [List.cons_append, unescape.eq_def]
      dsimp only
      rw [if_neg hb.1, if_neg hb.2, ih ht, Option.map_map]
      rfl

theorem unescape_escape (c : UInt8) (ds : Text) (h : ds.length = (escape c).1) (r : Text) :
    unescape ('\\'.toUInt8 :: c :: (ds ++ r)) =
      (unescape r).map fun (u, rest) => ((escape c).2 ds ++ u, rest) := by
  rw [unescape.eq_def]
  simp only [if_neg (show '\\'.toUInt8 ≠ '"'.toUInt8 by decide), if_true, ← h, List.drop_left, List.take_left]

/-! ### Digits of base sixteen -/

theorem number_append_digit (base : Nat) (t : Text) (b : UInt8) :
    number base (t ++ [b]) = number base t * base + (digit? b).getD 0 := by
  simp [number, List.foldl_append]

theorem digit?_digitChar : ∀ n < 16, digit? n.digitChar.toUInt8 = some n := by decide

theorem number_toDigits (n : Nat) : number 16 ((Nat.toDigits 16 n).map Char.toUInt8) = n := by
  induction n using Nat.strongRecOn with
  | ind n ih =>
      by_cases h : n < 16
      · simp [Nat.toDigits_of_lt_base h, number, digit?_digitChar n h]
      · rw [Nat.toDigits_of_base_le (by omega) (by omega), List.map_append, List.map_singleton,
          number_append_digit, ih _ (by omega), digit?_digitChar _ (by omega), Option.getD_some]
        omega

theorem number_zeros (n : Nat) (t : Text) :
    number 16 (List.replicate n '0'.toUInt8 ++ t) = number 16 t := by
  induction n with
  | zero => rfl
  | succ n ih => exact ih

theorem number_hexText (width n : Nat) : number 16 (hexText width n) = n := by
  rw [hexText, number_zeros, number_toDigits]

theorem length_hexText {width n : Nat} (hw : 0 < width) (hn : n < 16 ^ width) :
    (hexText width n).length = width := by
  have hle := (Nat.length_toDigits_le_iff (by omega : 1 < 16) hw).mpr hn
  rw [hexText, List.length_append, List.length_replicate, List.length_map]
  omega

/-! ### Quoted points -/

theorem encode_ascii {c : Char} (h : c.toNat < 0x80) :
    String.utf8EncodeChar c = [UInt8.ofNat c.toNat] := by
  rw [String.utf8EncodeChar]
  exact if_pos (Nat.le_of_lt_succ h)

/-- All other characters have no bytes of ASCII. -/
theorem le_of_mem_encode {c : Char} (h : ¬ c.toNat < 0x80) {b : UInt8}
    (hb : b ∈ String.utf8EncodeChar c) : 0x80 ≤ b.toNat := by
  have hv : ¬ c.val.toNat ≤ 127 := fun hv => h (Nat.lt_succ_of_le hv)
  rw [String.utf8EncodeChar, if_neg hv] at hb
  split at hb
  · simp only [List.mem_cons, List.not_mem_nil, or_false] at hb
    rcases hb with rfl | rfl <;> rw [UInt8.toNat_ofNat'] <;> omega
  · split at hb <;> simp only [List.mem_cons, List.not_mem_nil, or_false] at hb
    · rcases hb with rfl | rfl | rfl <;> rw [UInt8.toNat_ofNat'] <;> omega
    · rcases hb with rfl | rfl | rfl | rfl <;> rw [UInt8.toNat_ofNat'] <;> omega

theorem escape_controlLetter {code : Nat} {l : Char} (h : controlLetter? code = some l) :
    code < 0x80 ∧ (escape l.toUInt8).1 = 0 ∧ (escape l.toUInt8).2 [] = [UInt8.ofNat code] := by
  have hall : ∀ p ∈ [(7, 'a'), (8, 'b'), (9, 't'), (10, 'n'), (11, 'v'), (12, 'f'), (13, 'r')],
      p.1 < 0x80 ∧ (escape p.2.toUInt8).1 = 0 ∧ (escape p.2.toUInt8).2 [] = [UInt8.ofNat p.1] := by
    decide
  obtain ⟨before, after, hsplit, -⟩ := List.lookup_eq_some_iff.mp h
  exact hall (code, l) (by simp [hsplit])

theorem ofCode_toNat (c : Char) : ofCode (c.toNat : Nat) = String.utf8EncodeChar c := by
  rw [ofCode, if_pos ⟨Int.natCast_nonneg _, c.valid⟩, Int.toNat_natCast, Char.ofNat_toNat]

theorem char_eq_of_ofNat {c q : Char} (hq : q.toNat < 0x80) (hc : c.toNat < 0x80)
    (h : UInt8.ofNat c.toNat = q.toUInt8) : c = q := by
  have h' := congrArg UInt8.toNat h
  rw [UInt8.toNat_ofNat', Nat.mod_eq_of_lt (by omega)] at h'
  apply Char.ext
  apply UInt32.toNat_inj.mp
  have hq' : q.toUInt8.toNat = q.toNat := by
    change q.val.toUInt8.toNat = _
    rw [UInt32.toNat_toUInt8]
    exact Nat.mod_eq_of_lt (Nat.lt_trans hq (by decide))
  exact h'.trans hq'

/-- An escape by the digits of a number. -/
theorem unescape_hex (width : Nat) (bytes : Nat → Text) (mark : Char) {n : Nat}
    (hmark : escape mark.toUInt8 = (width, fun ds => bytes (number 16 ds))) (hw : 0 < width)
    (hn : n < 16 ^ width) (r : Text) :
    unescape ('\\'.toUInt8 :: mark.toUInt8 :: (hexText width n ++ r)) =
      (unescape r).map fun (u, rest) => (bytes n ++ u, rest) := by
  have hlength : (hexText width n).length = (escape mark.toUInt8).1 := by
    rw [hmark, length_hexText hw hn]
  rw [unescape_escape mark.toUInt8 _ hlength, hmark]
  simp only [number_hexText]

/-- A character is written as itself or by an escape for its bytes. -/
theorem unescape_charQuotedIn (c : Char) (r : Text) :
    unescape (charQuotedIn '"' c ++ r) =
      (unescape r).map fun (u, rest) => (String.utf8EncodeChar c ++ u, rest) := by
  unfold charQuotedIn
  split
  · next h =>
      rcases h with rfl | rfl
      · exact unescape_escape '"'.toUInt8 [] rfl r
      · exact unescape_escape '\\'.toUInt8 [] rfl r
  · next h =>
      split
      · refine unescape_plain (fun b hb => ?_) r
        by_cases hc : c.toNat < 0x80
        · rw [encode_ascii hc, List.mem_singleton] at hb
          subst hb
          exact ⟨fun hq => h (.inl (char_eq_of_ofNat (by decide) hc hq)), fun hq => h (.inr (char_eq_of_ofNat (by decide) hc hq))⟩
        · have hb := le_of_mem_encode hc hb
          exact ⟨fun hq => absurd (hq ▸ hb) (by decide), fun hq => absurd (hq ▸ hb) (by decide)⟩
      · split
        · next l hl =>
            obtain ⟨hc, hlength, hbytes⟩ := escape_controlLetter hl
            rw [encode_ascii hc, ← hbytes]
            exact unescape_escape l.toUInt8 [] hlength.symm r
        · split
          · next hc =>
              rw [encode_ascii hc]
              exact unescape_hex 2 (fun n => [UInt8.ofNat n]) 'x' rfl (by decide) (Nat.lt_trans hc (by decide)) r
          · rw [← ofCode_toNat]
            split
            · next hc => exact unescape_hex 4 (fun n => ofCode n) 'u' rfl (by decide) hc r
            · exact unescape_hex 8 (fun n => ofCode n) 'U' rfl (by decide) (Nat.lt_of_lt_of_le c.val.toNat_lt (by decide)) r

/-- Every point is written as its bytes. -/
theorem unescape_point (p : Point) (r : Text) :
    unescape (p.quoted ++ r) = (unescape r).map fun (u, rest) => (p.bytes ++ u, rest) := by
  cases p with
  | char c => exact unescape_charQuotedIn c r
  | stray b =>
      have h := unescape_hex 2 (fun n => [UInt8.ofNat n]) 'x' rfl (by decide) b.toNat_lt r
      rw [UInt8.ofNat_toNat] at h
      exact h

theorem unescape_points (ps : List Point) (rest : Text) :
    unescape (ps.flatMap Point.quoted ++ '"'.toUInt8 :: rest) = some (ofPoints ps, rest) := by
  induction ps with
  | nil =>
      rw [List.flatMap_nil, List.nil_append, unescape.eq_def]
      rfl
  | cons p ps ih =>
      rw [List.flatMap_cons, List.append_assoc, unescape_point, ih]
      rfl

/-- Quoted text is read back, whatever follows it. -/
theorem unescape_quoted (t rest : Text) :
    ∃ body, t.quoted ++ rest = '"'.toUInt8 :: body ∧ unescape body = some (t, rest) := by
  refine ⟨t.points.flatMap Point.quoted ++ '"'.toUInt8 :: rest, ?_, ?_⟩
  · rw [quoted, List.append_assoc, List.append_assoc]
    rfl
  · rw [unescape_points, ofPoints_points]

theorem quoted_append_inj {t u r s : Text} (h : t.quoted ++ r = u.quoted ++ s) : t = u ∧ r = s := by
  obtain ⟨body, ht, hbody⟩ := unescape_quoted t r
  obtain ⟨body', hu, hbody'⟩ := unescape_quoted u s
  rw [ht, hu, List.cons.injEq] at h
  rw [h.2, hbody', Option.some.injEq, Prod.mk.injEq] at hbody
  exact ⟨hbody.1.symm, hbody.2.symm⟩

end Text

end TemplateCompiler
