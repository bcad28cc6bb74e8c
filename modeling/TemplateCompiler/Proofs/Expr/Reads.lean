import TemplateCompiler.Proofs.Run
import TemplateCompiler.Expr.Parser

/-!
# What readers do with lexemes

`Reads E ls p Q` says what the reader `p` does at the lexemes `ls`: it fails with an error that has the
property `E`, or gives something for which `Q` holds with the lexemes left. With `E` always false it says
that the reader succeeds.

There is a rule for each way readers are put together, and one for each step: `reads_accept`, `reads_peek`
and so on say what the rest of a reader is left with.
-/

namespace TemplateCompiler.Parser

def Cursor.lexemes (c : Cursor) : List Lexeme := c.tokens.map Token.lexeme

theorem Cursor.head?_lexemes (c : Cursor) : c.tokens.head?.map Token.lexeme = c.lexemes.head? := by
  rw [Cursor.lexemes, List.head?_map]

variable {α β : Type} {E : SyntaxError → Prop} {ls : List Lexeme}

/-- At the lexemes `ls`, a reader fails with an error `E`, or gives `Q` with the lexemes left. -/
def Reads (E : SyntaxError → Prop) (ls : List Lexeme) (p : Reader α) (Q : α → List Lexeme → Prop) :
    Prop :=
  ∀ c, c.lexemes = ls →
    match p c with
    | .ok (a, c') => Q a c'.lexemes
    | .error err => E err

section Rules

variable {Q R : α → List Lexeme → Prop} {p : Reader β} {f : β → Reader α}

theorem reads_pure {a : α} (h : Q a ls) : Reads E ls (pure a) Q := by
  rintro c rfl
  exact h

theorem reads_fail {cx : Setting} {cause : SyntaxCause}
    (h : ∀ place, E ⟨cause, place, cx.input, cx.location⟩) : Reads E ls (fail cx cause) Q :=
  fun _ _ => h _

theorem reads_bind {S : β → List Lexeme → Prop} (hp : Reads E ls p S)
    (hf : ∀ b us, S b us → Reads E us (f b) Q) : Reads E ls (p >>= f) Q := by
  intro c hc
  change match p c >>= fun x => f x.1 x.2 with
    | .ok (a, c') => Q a c'.lexemes
    | .error err => E err
  specialize hp c hc
  rcases h : p c with err | ⟨b, c'⟩
  · rw [h] at hp
    exact hp
  · rw [h] at hp
    exact hf b _ hp c' rfl

theorem Reads.mono {p : Reader α} (hp : Reads E ls p R) (h : ∀ a us, R a us → Q a us) :
    Reads E ls p Q := by
  intro c hc
  specialize hp c hc
  rcases heq : p c with err | ⟨a, c'⟩
  · rw [heq] at hp
    exact hp
  · rw [heq] at hp
    exact h _ _ hp

theorem Reads.run {p : Reader α} (hp : Reads E ls p Q) {c : Cursor} (hc : c.lexemes = ls) :
    (∃ a c', p.run c = .ok (a, c') ∧ Q a c'.lexemes) ∨ ∃ err, p.run c = .error err ∧ E err := by
  specialize hp c hc
  rcases heq : p c with err | ⟨a, c'⟩
  · rw [heq] at hp
    exact .inr ⟨err, heq, hp⟩
  · rw [heq] at hp
    exact .inl ⟨a, c', heq, hp⟩

/-- A step that leaves the cursor where it is. -/
theorem reads_still {g : Cursor → β} (hf : ∀ b, Reads E ls (f b) Q) :
    Reads E ls ((fun c => .ok (g c, c) : Reader β) >>= f) Q :=
  fun c hc => hf (g c) c hc

theorem reads_position {cx : Setting} {f : Nat → Reader α} (hf : ∀ n, Reads E ls (f n) Q) :
    Reads E ls (position cx >>= f) Q :=
  reads_still hf

theorem reads_placeFrom {cx : Setting} {start : Nat} {f : Place → Reader α}
    (hf : ∀ place, Reads E ls (f place) Q) : Reads E ls (placeFrom cx start >>= f) Q :=
  reads_still hf

theorem reads_get {f : Cursor → Reader α} (hf : ∀ c, Reads E ls (f c) Q) :
    Reads E ls (get >>= f) Q :=
  reads_still hf

theorem reads_remaining {f : Nat → Reader α} (hf : Reads E ls (f ls.length) Q) :
    Reads E ls (remaining >>= f) Q := by
  intro c hc
  rw [← hc, Cursor.lexemes, List.length_map] at hf
  exact hf c rfl

theorem reads_peek {f : Option Lexeme → Reader α} (hf : Reads E ls (f ls.head?) Q) :
    Reads E ls (peek >>= f) Q := by
  intro c hc
  rw [← hc, ← c.head?_lexemes] at hf
  exact hf c rfl

theorem reads_advance {cx : Setting} {w : Lexeme} {f : Unit → Reader α} (hf : Reads E ls (f ()) Q) :
    Reads E (w :: ls) (advance cx >>= f) Q := by
  rintro ⟨tokens, last⟩ hc
  cases tokens with
  | nil => cases hc
  | cons t rest => exact hf ⟨rest, t.stop + cx.offset⟩ (List.cons.inj hc).2

theorem reads_accept {cx : Setting} {l : Lexeme} {yes no : Reader α}
    (hyes : ∀ us, ls = l :: us → Reads E us yes Q) (hno : ls.head? ≠ some l → Reads E ls no Q) :
    Reads E ls (do if ← accept cx l then yes else no) Q := by
  have haccept : Reads E ls (accept cx l) fun b us => if b then ls = l :: us else
      ls.head? ≠ some l ∧ us = ls := by
    unfold accept
    refine reads_peek ?_
    split
    · next h =>
        obtain ⟨us, rfl⟩ := List.head?_eq_some_iff.mp h
        exact reads_advance (reads_pure rfl)
    · next h => exact reads_pure ⟨h, rfl⟩
  refine reads_bind haccept fun b us h => ?_
  cases b with
  | true => exact hyes us h
  | false =>
      obtain ⟨h, rfl⟩ := h
      exact hno h

theorem reads_expect {cx : Setting} {c : Char} {f : Unit → Reader α}
    (hf : ∀ us, ls = mark c :: us → Reads E us (f ()) Q)
    (herr : ls.head? ≠ some (mark c) → ∀ place, E ⟨.missing c.toUInt8, place, cx.input, cx.location⟩) :
    Reads E ls (expect cx c.toUInt8 >>= f) Q := by
  refine reads_bind (S := fun _ us => ls = mark c :: us) ?_ fun _ us h => hf us h
  unfold expect
  exact reads_accept (fun us h => reads_pure h) fun h => reads_fail (herr h)

/-- An optional operator out of some. -/
theorem reads_acceptOperator {cx : Setting} {operators : List Text} {f : Option Text → Reader α}
    (hyes : ∀ o us, o ∈ operators → ls = .operator o :: us → Reads E us (f (some o)) Q)
    (hno : (∀ o ∈ operators, ls.head? ≠ some (.operator o)) → Reads E ls (f none) Q) :
    Reads E ls (acceptOperator cx operators >>= f) Q := by
  refine reads_bind (S := fun found us =>
    (∀ o, found = some o → o ∈ operators ∧ ls = .operator o :: us) ∧
      (found = none → (∀ o ∈ operators, ls.head? ≠ some (.operator o)) ∧ us = ls)) ?_ ?_
  · unfold acceptOperator
    refine reads_peek ?_
    split
    · next o hhead =>
        obtain ⟨us, rfl⟩ := List.head?_eq_some_iff.mp hhead
        split
        · next ho =>
            refine reads_advance (reads_pure ⟨?_, by rintro ⟨⟩⟩)
            rintro _ ⟨⟩
            exact ⟨List.contains_iff_mem.mp ho, rfl⟩
        · next ho =>
            refine reads_pure ⟨by rintro _ ⟨⟩, fun _ => ⟨?_, rfl⟩⟩
            rintro o' ho' heq
            cases heq
            exact ho (List.contains_iff_mem.mpr ho')
    · next hhead => exact reads_pure ⟨by rintro _ ⟨⟩, fun _ => ⟨fun o _ heq => hhead o heq, rfl⟩⟩
  · rintro (_ | o) us ⟨hsome, hnone⟩
    · obtain ⟨hfree, rfl⟩ := hnone rfl
      exact hno hfree
    · obtain ⟨ho, rfl⟩ := hsome o rfl
      exact hyes o us ho rfl

/-! ### Known lexemes -/

theorem reads_accepted {cx : Setting} {w : Lexeme} {yes no : Reader α} (hyes : Reads E ls yes Q) :
    Reads E (w :: ls) (do if ← accept cx w then yes else no) Q :=
  reads_accept (fun _ h => (List.cons.inj h).2 ▸ hyes) fun h => absurd rfl h

theorem reads_refused {cx : Setting} {w : Lexeme} {yes no : Reader α} (h : ls.head? ≠ some w)
    (hno : Reads E ls no Q) : Reads E ls (do if ← accept cx w then yes else no) Q := by
  refine reads_accept (fun us hus => absurd ?_ h) fun _ => hno
  rw [hus]
  rfl

theorem reads_expected {cx : Setting} {c : Char} {f : Unit → Reader α} (hf : Reads E ls (f ()) Q) :
    Reads E (mark c :: ls) (expect cx c.toUInt8 >>= f) Q :=
  reads_expect (fun _ h => (List.cons.inj h).2 ▸ hf) fun h => absurd rfl h

end Rules

end TemplateCompiler.Parser
