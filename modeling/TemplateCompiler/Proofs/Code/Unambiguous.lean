import TemplateCompiler.Proofs.Code.Glyphs

/-!
# Reading printed terms back

How much of a term can be told from its text? All of it, but for one thing: a negation has no
parentheses, so the access `(!a).b` is printed like the negation `!(a.b)`. `Term.asRead` moves the
negations in front of the accesses they stand before, and two terms have the same text if and only if
they are the same as read (`text_eq_iff_asRead_eq`).

The text of a term is a row of glyphs (`Term.glyphs`). A `Reading` takes these one after the other: it
keeps what was opened and not yet closed, and the operand it is in. Behind the glyphs of a term it is in
the operand `Term.base`, with `Term.lead` negations open (`run_glyphs`). So the glyphs determine the term
as read, and the text determines the glyphs.
-/

namespace TemplateCompiler

/-! ### The terms at hand -/

def literalWords : List Text := ["null", "true", "false"]

def Primitive.IsWritten : Primitive → Prop
  | .null | .bool _ | .text _ => True
  | .int _ | .double _ => False

mutual

/-- A term of variables, literals that are no numbers, arrays, accesses, calls, operations, negations
and conditionals with two outcomes, with identifiers for names. -/
def Term.Simple : Term → Prop
  | .var _ x => Text.isName x = true ∧ x ∉ literalWords
  | .lit _ v => v.IsWritten
  | .array _ ts => Term.SimpleAll ts
  | .prop _ r x => r.Simple ∧ Text.isName x = true
  | .key _ r i => r.Simple ∧ i.Simple
  | .call _ f ts _ => f.Simple ∧ Term.SimpleAll ts
  | .binary _ o l r => o ≠ .unknown ∧ l.Simple ∧ r.Simple
  | .not _ t => t.Simple
  | .cond _ c y (some n) => c.Simple ∧ y.Simple ∧ n.Simple
  | _ => False

def Term.SimpleAll : List Term → Prop
  | [] => True
  | t :: ts => t.Simple ∧ Term.SimpleAll ts

end

mutual

/-- A simple term without types, spans and purity flags. -/
def Term.bare : Term → Term
  | .var _ x => .var {} x
  | .lit _ v => .lit {} v
  | .array _ ts => .array {} (Term.bareAll ts)
  | .prop _ r x => .prop {} r.bare x
  | .key _ r i => .key {} r.bare i.bare
  | .call _ f ts _ => .call {} f.bare (Term.bareAll ts) false
  | .binary _ o l r => .binary {} o l.bare r.bare
  | .not _ t => .not {} t.bare
  | .cond _ c y (some n) => .cond {} c.bare y.bare (some n.bare)
  | t => t

/-- Simple terms without types, spans and purity flags. -/
def Term.bareAll : List Term → List Term
  | [] => []
  | t :: ts => t.bare :: Term.bareAll ts

end

def Term.isNegation : Term → Bool
  | .not .. => true
  | _ => false

mutual

def Term.Upright : Term → Prop
  | .prop _ r _ => r.isNegation = false ∧ r.Upright
  | .key _ r i => r.isNegation = false ∧ r.Upright ∧ i.Upright
  | .call _ f ts _ => f.isNegation = false ∧ f.Upright ∧ Term.UprightAll ts
  | .array _ ts => Term.UprightAll ts
  | .binary _ _ l r => l.Upright ∧ r.Upright
  | .not _ t => t.Upright
  | .cond _ c y (some n) => c.Upright ∧ y.Upright ∧ n.Upright
  | _ => True

/-- No access or call in some terms is that of a negation. -/
def Term.UprightAll : List Term → Prop
  | [] => True
  | t :: ts => t.Upright ∧ Term.UprightAll ts

end

/-! ### Terms as read -/

/-- How many negations the text of a term starts with. -/
def Term.lead : Term → Nat
  | .prop _ r _ => r.lead
  | .key _ r _ => r.lead
  | .call _ f _ _ => f.lead
  | .not _ t => t.lead + 1
  | _ => 0

def Term.negated : Nat → Term → Term
  | 0, t => t
  | n + 1, t => .negated n (.not {} t)

mutual

/-- What stands behind the first negations of a term, as it is read. -/
def Term.base : Term → Term
  | .var _ x => .var {} x
  | .lit _ v => .lit {} v
  | .array _ ts => .array {} (Term.baseAll ts)
  | .prop _ r x => .prop {} r.base x
  | .key _ r i => .key {} r.base (.negated i.lead i.base)
  | .call _ f ts _ => .call {} f.base (Term.baseAll ts) false
  | .binary _ o l r => .binary {} o (.negated l.lead l.base) (.negated r.lead r.base)
  | .not _ t => t.base
  | .cond _ c y (some n) =>
    .cond {} (.negated c.lead c.base) (.negated y.lead y.base) (some (.negated n.lead n.base))
  | t => t

def Term.baseAll : List Term → List Term
  | [] => []
  | t :: ts => .negated t.lead t.base :: Term.baseAll ts

end

/-- A term as it is read: its first negations stand before all that follows them. -/
def Term.asRead (t : Term) : Term := .negated t.lead t.base

theorem Term.not_negated (n : Nat) (t : Term) : Term.not {} (.negated n t) = .negated (n + 1) t := by
  induction n generalizing t with
  | zero => rfl
  | succ n ih => exact ih _

theorem Term.lead_of_upright : ∀ {t : Term}, t.Upright → t.isNegation = false → t.lead = 0
  | .prop _ r _, h, _ => Term.lead_of_upright (t := r) h.2 h.1
  | .key _ r _, h, _ => Term.lead_of_upright (t := r) h.2.1 h.1
  | .call _ f _ _, h, _ => Term.lead_of_upright (t := f) h.2.1 h.1
  | .var .., _, _ | .lit .., _, _ | .array .., _, _ | .map .., _, _ | .binary .., _, _
  | .present .., _, _ | .cast .., _, _ | .cond .., _, _ | .external .., _, _ | .function .., _, _
  | .pooled .., _, _ => rfl

mutual

theorem Term.asRead_of_upright : ∀ {t : Term}, t.Upright → t.asRead = t.bare
  | .var .., _ | .lit .., _ | .map .., _ | .present .., _ | .cast .., _ | .external .., _
  | .function .., _ | .pooled .., _ | .cond _ _ _ none, _ => rfl
  | .array _ ts, h => congrArg (Term.array {}) (Term.baseAll_of_upright h)
  | .prop n r x, h => by
      have hr := Term.asRead_of_upright h.2
      rw [Term.asRead, Term.lead_of_upright h.2 h.1] at hr
      rw [Term.asRead, Term.lead_of_upright (t := .prop n r x) h rfl, Term.bare, ← hr]
      rfl
  | .key n r i, h => by
      have hr := Term.asRead_of_upright h.2.1
      rw [Term.asRead, Term.lead_of_upright h.2.1 h.1] at hr
      rw [Term.asRead, Term.lead_of_upright (t := .key n r i) h rfl, Term.bare, ← hr,
        ← Term.asRead_of_upright h.2.2]
      rfl
  | .call n f ts p, h => by
      have hf := Term.asRead_of_upright h.2.1
      rw [Term.asRead, Term.lead_of_upright h.2.1 h.1] at hf
      rw [Term.asRead, Term.lead_of_upright (t := .call n f ts p) h rfl, Term.bare, ← hf,
        ← Term.baseAll_of_upright h.2.2]
      rfl
  | .binary n o l r, h => by
      rw [Term.bare, ← Term.asRead_of_upright h.1, ← Term.asRead_of_upright h.2]
      rfl
  | .not n t, h => by
      rw [Term.bare, ← Term.asRead_of_upright (t := t) h, Term.asRead, Term.asRead, Term.not_negated]
      rfl
  | .cond n c y (some e), h => by
      rw [Term.bare, ← Term.asRead_of_upright h.1, ← Term.asRead_of_upright h.2.1,
        ← Term.asRead_of_upright h.2.2]
      rfl

theorem Term.baseAll_of_upright : ∀ {ts : List Term}, Term.UprightAll ts →
    Term.baseAll ts = Term.bareAll ts
  | [], _ => rfl
  | t :: ts, h => by
      rw [Term.bareAll, ← Term.asRead_of_upright h.1, ← Term.baseAll_of_upright h.2]
      rfl

end

/-! ### Terms as glyphs -/

def Primitive.glyph : Primitive → Glyph
  | .text t => .quoted t
  | v => .word (v.written false)

mutual

/-- The glyphs of a simple term; `top` if it is the whole term of a statement. -/
def Term.glyphs (top : Bool) : Term → List Glyph
  | .var _ x => [.word x]
  | .lit _ v => [v.glyph]
  | .array _ ts => [.openBracket] ++ Term.glyphsAll ts ++ [.closeBracket]
  | .prop _ r x => r.glyphs false ++ [.member x]
  | .key _ r i => r.glyphs false ++ [.openBracket] ++ i.glyphs false ++ [.closeBracket]
  | .call _ f ts _ => f.glyphs false ++ [.openParen] ++ Term.glyphsAll ts ++ [.closeParen]
  | .binary _ o l r => group top (l.glyphs false ++ [.operator o] ++ r.glyphs false)
  | .not _ t => [.bang] ++ t.glyphs false
  | .cond _ c y (some n) =>
    group top (c.glyphs false ++ [.question] ++ y.glyphs false ++ [.colon] ++ n.glyphs false)
  | _ => []
where
  /-- Glyphs in parentheses, unless they stand at the top. -/
  group (top : Bool) (ms : List Glyph) : List Glyph :=
    if top then ms else [.openParen] ++ ms ++ [.closeParen]

def Term.glyphsAll : List Term → List Glyph
  | [] => []
  | [t] => t.glyphs false
  | t :: ts => t.glyphs false ++ [.comma] ++ Term.glyphsAll ts

end

/-! ### Printing glyphs -/

/-- Steps that print a text in the current line. -/
structure Writes (steps : List Print) (text : Text) : Prop where
  parts : ∀ s ∈ steps, ∃ t span, s = .part t span
  text : steps.flatMap (fun | .part t _ => t | _ => []) = text

theorem Writes.part (t : Text) (span : Option SourceSpan) : Writes [.part t span] t :=
  ⟨List.forall_mem_singleton.mpr ⟨t, span, rfl⟩, List.append_nil t⟩

theorem Writes.nil : Writes [] [] := ⟨List.forall_mem_nil _, rfl⟩

theorem Writes.append {ss ss' : List Print} {t t' : Text} (h : Writes ss t) (h' : Writes ss' t') :
    Writes (ss ++ ss') (t ++ t') := by
  refine ⟨fun s hs => (List.mem_append.mp hs).elim (h.parts s) (h'.parts s), ?_⟩
  rw [List.flatMap_append, h.text, h'.text]

/-- A page with one line shows what is printed in it. -/
theorem Writes.source {steps : List Print} {text : Text} (h : Writes steps text) :
    ((Page.start 0).run steps).source = text := by
  have hrun : ∀ (steps : List Print) (text : Text) (l : Line), Writes steps text → l.indent = 0 →
      (Page.run ⟨[], l, 0⟩ steps).source = l.body ++ text := by
    intro steps
    induction steps with
    | nil =>
        rintro _ l ⟨-, rfl⟩ hindent
        change Page.source ⟨[], l, 0⟩ = l.body ++ []
        rw [List.append_nil, Page.source, Page.shown, Page.lineIsEmpty]
        cases hempty : l.isEmpty with
        | true =>
            rw [Line.isEmpty, List.isEmpty_iff] at hempty
            simp [Line.body, Line.parts, hempty, Text.join]
        | false => simp [Page.lines, Line.text, hempty, hindent, Text.join]
    | cons s ss ih =>
        rintro _ l ⟨hparts, rfl⟩ hindent
        obtain ⟨⟨t, span, rfl⟩, htail⟩ := List.forall_mem_cons.mp hparts
        change (Page.run (Page.step ⟨[], l, 0⟩ (.part t span)) ss).source = _
        rw [Page.step]
        split
        · next hempty =>
            rw [List.isEmpty_iff.mp hempty]
            exact ih _ l ⟨htail, rfl⟩ hindent
        · rw [ih _ (l.add ⟨t, span⟩) ⟨htail, rfl⟩ hindent]
          simp [Line.body, Line.parts, Line.add]
  exact hrun steps text ⟨0, []⟩ h rfl

theorem Glyph.textAll_append (ms ms' : List Glyph) :
    Glyph.textAll (ms ++ ms') = Glyph.textAll ms ++ Glyph.textAll ms' := List.flatMap_append

theorem Writes.glyph (m : Glyph) (span : Option SourceSpan) :
    Writes [.part m.text span] (Glyph.textAll [m]) := by
  rw [Glyph.textAll, List.flatMap_singleton]
  exact .part m.text span

/-- What is printed one after the other has the glyphs of all. -/
theorem Writes.glyphs {ss ss' : List Print} {ms ms' : List Glyph} (h : Writes ss (Glyph.textAll ms))
    (h' : Writes ss' (Glyph.textAll ms')) : Writes (ss ++ ss') (Glyph.textAll (ms ++ ms')) := by
  rw [Glyph.textAll_append]
  exact h.append h'

theorem Writes.parens {steps : List Print} {ms : List Glyph} (top : Bool) (span : Option SourceSpan)
    (h : Writes steps (Glyph.textAll ms)) :
    Writes (Emit.parens (!top) span steps) (Glyph.textAll (Term.glyphs.group top ms)) := by
  cases top with
  | true => exact h
  | false => exact ((Writes.glyph .openParen span).glyphs h).glyphs (.glyph .closeParen span)

theorem Primitive.text_glyph (v : Primitive) : v.glyph.text = v.written false := by
  cases v <;> rfl

mutual

theorem Term.writes_glyphs (top : Bool) : ∀ {t : Term}, t.Simple →
    ∃ steps, Emit.term {} top t = .ok steps ∧ Writes steps (Glyph.textAll (t.glyphs top))
  | .map .., h | .present .., h | .cast .., h | .external .., h | .function .., h | .pooled .., h
  | .cond _ _ _ none, h => h.elim
  | .var n x, _ => ⟨_, rfl, .glyph (.word x) n.span⟩
  | .lit n v, _ => ⟨_, rfl, v.text_glyph ▸ .glyph v.glyph n.span⟩
  | .array n ts, h => by
      obtain ⟨steps, hsteps, hw⟩ := Term.writes_glyphsAll h
      refine ⟨_, by rw [Emit.term, hsteps]; rfl, ?_⟩
      exact ((Writes.glyph .openBracket n.span).glyphs hw).glyphs (.glyph .closeBracket n.span)
  | .prop n r x, h => by
      obtain ⟨steps, hsteps, hw⟩ := Term.writes_glyphs false h.1
      refine ⟨_, by rw [Emit.term, hsteps]; rfl, hw.glyphs ?_⟩
      rw [Glyph.textAll, List.flatMap_singleton]
      exact (Writes.part "." n.span).append (.part x n.span)
  | .key n r i, h => by
      obtain ⟨steps, hsteps, hw⟩ := Term.writes_glyphs false h.1
      obtain ⟨steps', hsteps', hw'⟩ := Term.writes_glyphs false h.2
      refine ⟨_, by rw [Emit.term, hsteps, hsteps']; rfl, ?_⟩
      exact ((hw.glyphs (.glyph .openBracket n.span)).glyphs hw').glyphs (.glyph .closeBracket n.span)
  | .call n f ts p, h => by
      obtain ⟨steps, hsteps, hw⟩ := Term.writes_glyphs false h.1
      obtain ⟨steps', hsteps', hw'⟩ := Term.writes_glyphsAll h.2
      have hf : Emit.isFunction f = false := by
        cases f <;> first | rfl | exact h.1.elim
      refine ⟨_, by rw [Emit.term, hsteps, hsteps', hf]; rfl, ?_⟩
      exact ((hw.glyphs (.glyph .openParen n.span)).glyphs hw').glyphs (.glyph .closeParen n.span)
  | .binary n o l r, h => by
      obtain ⟨steps, hsteps, hw⟩ := Term.writes_glyphs false h.2.1
      obtain ⟨steps', hsteps', hw'⟩ := Term.writes_glyphs false h.2.2
      have ho : o.text? = some (o.text?.getD []) := by
        cases o <;> first | rfl | exact absurd rfl h.1
      refine ⟨_, by rw [Emit.term, ho, hsteps, hsteps']; rfl, .parens top n.span ?_⟩
      exact (hw.glyphs (.glyph (.operator o) n.span)).glyphs hw'
  | .not n t, h => by
      obtain ⟨steps, hsteps, hw⟩ := Term.writes_glyphs (t := t) false h
      exact ⟨_, by rw [Emit.term, hsteps]; rfl, (Writes.glyph .bang n.span).glyphs hw⟩
  | .cond n c y (some e), h => by
      obtain ⟨steps, hsteps, hw⟩ := Term.writes_glyphs false h.1
      obtain ⟨steps', hsteps', hw'⟩ := Term.writes_glyphs false h.2.1
      obtain ⟨steps'', hsteps'', hw''⟩ := Term.writes_glyphs false h.2.2
      refine ⟨_, by rw [Emit.term, hsteps, hsteps', hsteps'']; rfl, .parens top n.span ?_⟩
      exact (((hw.glyphs (.glyph .question n.span)).glyphs hw').glyphs (.glyph .colon n.span)).glyphs hw''

theorem Term.writes_glyphsAll : ∀ {ts : List Term}, Term.SimpleAll ts →
    ∃ steps, Emit.terms {} ts = .ok steps ∧ Writes steps (Glyph.textAll (Term.glyphsAll ts))
  | [], _ => ⟨[], rfl, .nil⟩
  | [t], h => Term.writes_glyphs false h.1
  | t :: u :: ts, h => by
      obtain ⟨steps, hsteps, hw⟩ := Term.writes_glyphs false h.1
      obtain ⟨steps', hsteps', hw'⟩ := Term.writes_glyphsAll h.2
      have hterms : Emit.terms {} (t :: u :: ts) =
          .ok (steps ++ [.part ", " none] ++ steps') := by
        rw [Emit.terms, hsteps, hsteps']
        · rfl
        · exact fun h => nomatch h
      rw [Term.glyphsAll]
      · exact ⟨_, hterms, (hw.glyphs (.glyph .comma none)).glyphs hw'⟩
      · exact fun h => nomatch h

end

theorem Term.text_eq {t : Term} (h : t.Simple) : t.text = .ok (Glyph.textAll (t.glyphs true)) := by
  obtain ⟨steps, hsteps, hw⟩ := Term.writes_glyphs true h
  rw [Term.text, hsteps]
  exact congrArg Except.ok hw.source

/-! ### Reading glyphs -/

namespace Reading

/-- Something that was opened and is not yet closed. -/
inductive Frame where
  | not
  | group
  /-- The right operand is next. -/
  | right (o : Operator) (left : Term)
  | yes (condition : Term)
  | no (condition yes : Term)
  | key (receiver : Term)
  /-- The entries of an array, or the arguments of a callee. -/
  | list (callee : Option Term) (done : List Term)

def word (t : Text) : Term :=
  if t = "null" then .lit {} .null
  else if t = "true" then .lit {} (.bool true)
  else if t = "false" then .lit {} (.bool false)
  else .var {} t

def collected : Option Term → List Term → Term
  | none, ts => .array {} ts
  | some f, ts => .call {} f ts false

/-- What ends an array or a call. -/
def closer : Option Term → Glyph
  | none => .closeBracket
  | some _ => .closeParen

/-- Closes the negations before an operand. -/
def settle : List Frame → Term → List Frame × Term
  | .not :: fs, t => settle fs (.not {} t)
  | fs, t => (fs, t)

end Reading

/-- What is open, and the operand that was read last, if none is missing. -/
structure Reading where
  frames : List Reading.Frame
  operand : Option Term

namespace Reading

/-- What a glyph does behind a whole operand, negations included. -/
def afterOperand : List Frame × Term → Glyph → Option Reading
  | (fs, t), .operator o => some ⟨.right o t :: fs, none⟩
  | (fs, t), .question => some ⟨.yes t :: fs, none⟩
  | (.yes c :: fs, t), .colon => some ⟨.no c t :: fs, none⟩
  | (.right o l :: .group :: fs, t), .closeParen => some ⟨fs, some (.binary {} o l t)⟩
  | (.no c y :: .group :: fs, t), .closeParen => some ⟨fs, some (.cond {} c y (some t))⟩
  | (.key r :: fs, t), .closeBracket => some ⟨fs, some (.key {} r t)⟩
  | (.list callee ts :: fs, t), .comma => some ⟨.list callee (ts ++ [t]) :: fs, none⟩
  | (.list callee ts :: fs, t), g =>
    if g = closer callee then some ⟨fs, some (collected callee (ts ++ [t]))⟩ else none
  | _, _ => none

/-- What a glyph does. Accesses take the operand as it is, everything else takes its negations too. -/
def step : Reading → Glyph → Option Reading
  | ⟨fs, none⟩, .word t => some ⟨fs, some (word t)⟩
  | ⟨fs, none⟩, .quoted t => some ⟨fs, some (.lit {} (.text t))⟩
  | ⟨fs, none⟩, .bang => some ⟨.not :: fs, none⟩
  | ⟨fs, none⟩, .openParen => some ⟨.group :: fs, none⟩
  | ⟨fs, none⟩, .openBracket => some ⟨.list none [] :: fs, none⟩
  | ⟨.list callee [] :: fs, none⟩, g =>
    if g = closer callee then some ⟨fs, some (collected callee [])⟩ else none
  | ⟨fs, some t⟩, .member x => some ⟨fs, some (.prop {} t x)⟩
  | ⟨fs, some t⟩, .openBracket => some ⟨.key t :: fs, none⟩
  | ⟨fs, some t⟩, .openParen => some ⟨.list (some t) [] :: fs, none⟩
  | ⟨fs, some t⟩, g => afterOperand (settle fs t) g
  | _, _ => none

def run : Reading → List Glyph → Option Reading
  | s, [] => some s
  | s, g :: gs => (s.step g).bind fun s' => s'.run gs

def whole : Reading → Option Term
  | ⟨fs, some t⟩ =>
    match settle fs t with
    | ([], t) => some t
    | ([.right o l], t) => some (.binary {} o l t)
    | ([.no c y], t) => some (.cond {} c y (some t))
    | _ => none
  | _ => none

theorem run_cons {s s' : Reading} {g : Glyph} (h : s.step g = some s') (gs : List Glyph) :
    s.run (g :: gs) = s'.run gs := by
  rw [run, h, Option.bind_some]

/-- The negations of an operand are closed up to what they stand in. -/
theorem settle_replicate (n : Nat) (fs : List Frame) (t : Term) :
    settle (.replicate n .not ++ fs) t = settle fs (.negated n t) := by
  induction n generalizing t with
  | zero => rfl
  | succ n ih => exact ih _

/-- Whether a glyph comes behind a whole operand. -/
def endsOperand : Glyph → Bool
  | .operator _ | .question | .colon | .closeParen | .closeBracket | .comma => true
  | _ => false

/-- The next glyph takes an operand with its negations. -/
theorem run_operand {n : Nat} {fs : List Frame} {t : Term} {g : Glyph} {s : Reading}
    (hg : endsOperand g = true) (h : afterOperand (settle fs (.negated n t)) g = some s)
    (gs : List Glyph) : Reading.run ⟨.replicate n .not ++ fs, some t⟩ (g :: gs) = s.run gs := by
  refine run_cons ?_ gs
  rw [← h, ← settle_replicate]
  cases g <;> first | rfl | cases hg

end Reading

open Reading

theorem Primitive.step_glyph {v : Primitive} (h : v.IsWritten) (fs : List Frame) :
    Reading.step ⟨fs, none⟩ v.glyph = some ⟨fs, some (.lit {} v)⟩ := by
  cases v with
  | bool b => cases b <;> rfl
  | int => cases h
  | double => cases h
  | _ => rfl

theorem Reading.word_var {x : Text} (h : x ∉ literalWords) : word x = .var {} x := by
  simp only [literalWords, List.mem_cons, List.not_mem_nil, or_false, not_or] at h
  simp [word, h]

mutual

/-- Behind the glyphs of a term, its first negations are open and the rest of it is the operand. -/
theorem Term.run_glyphs : ∀ {t : Term}, t.Simple → ∀ (fs : List Frame) (gs : List Glyph),
    Reading.run ⟨fs, none⟩ (t.glyphs false ++ gs) =
      Reading.run ⟨.replicate t.lead .not ++ fs, some t.base⟩ gs
  | .map .., h, _, _ | .present .., h, _, _ | .cast .., h, _, _ | .external .., h, _, _
  | .function .., h, _, _ | .pooled .., h, _, _ | .cond _ _ _ none, h, _, _ => h.elim
  | .var n x, h, fs, gs => run_cons (by rw [Reading.step, word_var h.2]; rfl) gs
  | .lit n v, h, fs, gs => run_cons (v.step_glyph h fs) gs
  | .array n ts, h, fs, gs => by
      rw [Term.glyphs, List.append_assoc, List.append_assoc, List.singleton_append, run_cons rfl]
      exact Term.run_glyphsAll h none [] fs gs fun _ => rfl
  | .prop n r x, h, fs, gs => by
      rw [Term.glyphs, List.append_assoc, Term.run_glyphs h.1, List.singleton_append, run_cons rfl]
      rfl
  | .key n r i, h, fs, gs => by
      simp only [Term.glyphs, List.append_assoc, List.cons_append, List.nil_append]
      rw [Term.run_glyphs h.1, run_cons rfl, Term.run_glyphs h.2, run_operand rfl rfl]
      rfl
  | .call n f ts p, h, fs, gs => by
      simp only [Term.glyphs, List.append_assoc, List.cons_append, List.nil_append]
      rw [Term.run_glyphs h.1, run_cons rfl]
      exact Term.run_glyphsAll h.2 (some f.base) [] _ gs fun _ => rfl
  | .binary n o l r, h, fs, gs => by
      simp only [Term.glyphs, Term.glyphs.group, Bool.false_eq_true, if_false, List.append_assoc,
        List.cons_append, List.nil_append]
      rw [run_cons rfl, Term.run_glyphs h.2.1, run_operand rfl rfl, Term.run_glyphs h.2.2,
        run_operand rfl rfl]
      rfl
  | .not n t, h, fs, gs => by
      rw [Term.glyphs, List.append_assoc, List.singleton_append, run_cons rfl,
        Term.run_glyphs (t := t) h, Term.lead, List.replicate_succ', List.append_assoc]
      rfl
  | .cond n c y (some e), h, fs, gs => by
      simp only [Term.glyphs, Term.glyphs.group, Bool.false_eq_true, if_false, List.append_assoc,
        List.cons_append, List.nil_append]
      rw [run_cons rfl, Term.run_glyphs h.1, run_operand rfl rfl, Term.run_glyphs h.2.1,
        run_operand rfl rfl, Term.run_glyphs h.2.2, run_operand rfl rfl]
      rfl

/-- Behind the glyphs of a list and its end, the collection is the operand. -/
theorem Term.run_glyphsAll : ∀ {ts : List Term}, Term.SimpleAll ts →
    ∀ (callee : Option Term) (done : List Term) (fs : List Frame) (gs : List Glyph),
      (ts = [] → done = []) →
      Reading.run ⟨.list callee done :: fs, none⟩ (Term.glyphsAll ts ++ closer callee :: gs) =
        Reading.run ⟨fs, some (collected callee (done ++ Term.baseAll ts))⟩ gs
  | [], _, callee, done, fs, gs, hdone => by
      rw [hdone rfl]
      cases callee <;> exact run_cons rfl gs
  | [t], h, callee, done, fs, gs, _ => by
      rw [Term.glyphsAll, Term.run_glyphs h.1]
      cases callee <;> exact run_operand rfl rfl gs
  | t :: u :: ts, h, callee, done, fs, gs, _ => by
      have htail : Term.SimpleAll (u :: ts) := h.2
      have hrest := Term.run_glyphsAll htail callee (done ++ [t.asRead]) fs gs (fun h => nomatch h)
      rw [Term.glyphsAll, List.append_assoc, List.append_assoc, Term.run_glyphs h.1,
        List.singleton_append, run_operand rfl rfl]
      · rw [List.append_assoc] at hrest
        exact hrest
      · exact fun h => nomatch h

end

theorem Term.whole_glyphs {t : Term} (h : t.Simple) :
    (Reading.run ⟨[], none⟩ (t.glyphs true)).bind Reading.whole = some t.asRead := by
  have hnested : t.glyphs true = t.glyphs false →
      (Reading.run ⟨[], none⟩ (t.glyphs true)).bind Reading.whole = some t.asRead := by
    intro heq
    rw [heq, ← List.append_nil (t.glyphs false), Term.run_glyphs h, Reading.run, Option.bind_some,
      Reading.whole, settle_replicate]
    rfl
  cases t with
  | binary n o l r =>
      rw [Term.glyphs, Term.glyphs.group, if_pos rfl, List.append_assoc, List.singleton_append,
        Term.run_glyphs h.2.1, run_operand rfl rfl, ← List.append_nil (r.glyphs false),
        Term.run_glyphs h.2.2, Reading.run, Option.bind_some, Reading.whole, settle_replicate]
      rfl
  | cond n c y e =>
      cases e with
      | none => cases h
      | some e =>
          simp only [Term.glyphs, Term.glyphs.group, if_true, List.append_assoc, List.cons_append,
            List.nil_append]
          rw [Term.run_glyphs h.1, run_operand rfl rfl, Term.run_glyphs h.2.1, run_operand rfl rfl,
            ← List.append_nil (e.glyphs false), Term.run_glyphs h.2.2, Reading.run, Option.bind_some,
            Reading.whole, settle_replicate]
          rfl
  | _ => exact hnested rfl

/-! ### Glyphs from their text -/

mutual

theorem Term.valid_glyphs (top : Bool) : ∀ {t : Term}, t.Simple → ∀ g ∈ t.glyphs top, g.Valid
  | .map .., h | .present .., h | .cast .., h | .external .., h | .function .., h | .pooled .., h
  | .cond _ _ _ none, h => h.elim
  | .var n x, h => List.forall_mem_singleton.mpr h.1
  | .lit n v, h => by
      refine List.forall_mem_singleton.mpr ?_
      cases v with
      | null => exact (by decide : Text.isName "null" = true)
      | bool b =>
          have hname : ∀ b, Text.isName (Text.ofBool b) = true := by decide
          exact hname b
      | text t => trivial
      | int => cases h
      | double => cases h
  | .array n ts, h => by
      simpa [Term.glyphs, or_imp, forall_and, Glyph.Valid] using Term.valid_glyphsAll h
  | .prop n r x, h => by
      simpa [Term.glyphs, or_imp, forall_and, Glyph.Valid] using
        And.intro (Term.valid_glyphs false h.1) h.2
  | .key n r i, h => by
      simpa [Term.glyphs, or_imp, forall_and, Glyph.Valid] using
        And.intro (Term.valid_glyphs false h.1) (Term.valid_glyphs false h.2)
  | .call n f ts p, h => by
      simpa [Term.glyphs, or_imp, forall_and, Glyph.Valid] using
        And.intro (Term.valid_glyphs false h.1) (Term.valid_glyphsAll h.2)
  | .binary n o l r, h => by
      have := And.intro (Term.valid_glyphs false h.2.1) (And.intro h.1 (Term.valid_glyphs false h.2.2))
      cases top <;>
        simpa [Term.glyphs, Term.glyphs.group, or_imp, forall_and, Glyph.Valid] using this
  | .not n t, h => by
      simpa [Term.glyphs, or_imp, forall_and, Glyph.Valid] using Term.valid_glyphs (t := t) false h
  | .cond n c y (some e), h => by
      have := And.intro (Term.valid_glyphs false h.1)
        (And.intro (Term.valid_glyphs false h.2.1) (Term.valid_glyphs false h.2.2))
      cases top <;>
        simpa [Term.glyphs, Term.glyphs.group, or_imp, forall_and, Glyph.Valid] using this

theorem Term.valid_glyphsAll : ∀ {ts : List Term}, Term.SimpleAll ts →
    ∀ g ∈ Term.glyphsAll ts, g.Valid
  | [], _ => List.forall_mem_nil _
  | [t], h => Term.valid_glyphs false h.1
  | t :: u :: ts, h => by
      have htail : Term.SimpleAll (u :: ts) := h.2
      rw [Term.glyphsAll]
      · simpa [or_imp, forall_and, Glyph.Valid] using
          And.intro (Term.valid_glyphs false h.1) (Term.valid_glyphsAll htail)
      · exact fun h => nomatch h

end

theorem Reading.step_operand_word (fs : List Frame) (u : Term) (t : Text) :
    Reading.step ⟨fs, some u⟩ (.word t) = none := by
  change afterOperand (settle fs u) (.word t) = none
  rcases settle fs u with ⟨_ | ⟨f, fs⟩, v⟩
  · rfl
  · cases f with
    | list callee ts => cases callee <;> rfl
    | _ => rfl

theorem Reading.step_word_of_step {s s' : Reading} {g : Glyph} (hg : g.endsInName = true)
    (h : s.step g = some s') (t : Text) : s'.step (.word t) = none := by
  obtain ⟨fs, _ | u⟩ := s
  · cases g with
    | word x =>
        cases h
        exact step_operand_word fs _ t
    | member x =>
        rcases fs with _ | ⟨_ | _ | _ | _ | _ | _ | ⟨_ | _, _ | _⟩, fs⟩ <;> cases h
    | _ => cases hg
  · cases g with
    | word x =>
        rw [step_operand_word] at h
        cases h
    | member x =>
        cases h
        exact step_operand_word fs _ t
    | _ => cases hg

/-- What is no word does not start like a name. -/
theorem Glyph.isNamePart_head {g : Glyph} {r : Text} {b : UInt8} (hg : ∀ t, g ≠ .word t)
    (h : (g.text ++ r).head? = some b) : Text.isNamePart b = false := by
  cases g with
  | word t => exact absurd rfl (hg t)
  | _ =>
      obtain rfl := Option.some.inj h
      decide

/-- The first of some glyphs that can be read is the one at the front of their text. -/
theorem Glyph.scan_textAll {g : Glyph} {gs : List Glyph} {s : Reading} (hvalid : g.Valid)
    (hrun : (s.run (g :: gs)).isSome) : ∃ s', s.step g = some s' ∧ (s'.run gs).isSome ∧
      Glyph.scan (Glyph.textAll (g :: gs)) = some (g, Glyph.textAll gs) := by
  rw [Reading.run, Option.isSome_bind, Option.any_eq_true] at hrun
  obtain ⟨s', hs', hrun⟩ := hrun
  refine ⟨s', hs', hrun, ?_⟩
  rw [Glyph.textAll, List.flatMap_cons]
  refine Glyph.scan_text hvalid fun hname b hb => ?_
  cases gs with
  | nil => cases hb
  | cons g' gs =>
      refine Glyph.isNamePart_head (g := g') ?_ hb
      rintro t rfl
      rw [Reading.run, Reading.step_word_of_step hname hs' t] at hrun
      cases hrun

theorem Glyph.textAll_inj {gs : List Glyph} : ∀ {gs' : List Glyph} {s : Reading},
    (∀ g ∈ gs, g.Valid) → (∀ g ∈ gs', g.Valid) → (s.run gs).isSome → (s.run gs').isSome →
    Glyph.textAll gs = Glyph.textAll gs' → gs = gs' := by
  induction gs with
  | nil =>
      intro gs' s _ hvalid' _ _ htext
      cases gs' with
      | nil => rfl
      | cons g' gs' =>
          rw [Glyph.textAll, Glyph.textAll, List.flatMap_cons] at htext
          have := (List.append_eq_nil_iff.mp htext.symm).1
          exact absurd this (Glyph.text_ne_nil (hvalid' g' List.mem_cons_self))
  | cons g gs ih =>
      intro gs' s hvalid hvalid' hrun hrun' htext
      obtain ⟨s₁, hs₁, hrun₁, hscan₁⟩ := Glyph.scan_textAll (hvalid g List.mem_cons_self) hrun
      cases gs' with
      | nil =>
          rw [htext] at hscan₁
          cases hscan₁
      | cons g' gs' =>
          obtain ⟨s₂, hs₂, hrun₂, hscan₂⟩ := Glyph.scan_textAll (hvalid' g' List.mem_cons_self) hrun'
          rw [htext, hscan₂] at hscan₁
          obtain ⟨rfl, htail⟩ := Prod.mk.inj (Option.some.inj hscan₁)
          obtain rfl : s₁ = s₂ := Option.some.inj (hs₁.symm.trans hs₂)
          rw [ih (List.forall_mem_cons.mp hvalid).2 (List.forall_mem_cons.mp hvalid').2 hrun₁ hrun₂
            htail.symm]

/-! ### Text from terms as read -/

theorem Term.glyphs_negated (n : Nat) (t : Term) :
    (Term.negated n t).glyphs false = .replicate n .bang ++ t.glyphs false := by
  induction n generalizing t with
  | zero => rfl
  | succ n ih =>
      rw [Term.negated, ih, Term.glyphs, List.replicate_succ', List.append_assoc]

mutual

/-- The glyphs of a term are its first negations, and those of the rest. -/
theorem Term.glyphs_eq : ∀ {t : Term}, t.Simple →
    t.glyphs false = .replicate t.lead .bang ++ t.base.glyphs false
  | .var .., _ | .lit .., _ => rfl
  | .map .., h | .present .., h | .cast .., h | .external .., h | .function .., h | .pooled .., h
  | .cond _ _ _ none, h => h.elim
  | .array n ts, h => by
      rw [Term.glyphs, ← Term.glyphsAll_baseAll h]
      rfl
  | .prop n r x, h => by
      rw [Term.glyphs, Term.glyphs_eq h.1, List.append_assoc]
      rfl
  | .key n r i, h => by
      have hi := Term.glyphs_eq h.2
      rw [← Term.glyphs_negated] at hi
      rw [Term.glyphs, Term.glyphs_eq h.1, hi, Term.lead, Term.base, Term.glyphs]
      simp only [List.append_assoc]
  | .call n f ts p, h => by
      rw [Term.glyphs, Term.glyphs_eq h.1, ← Term.glyphsAll_baseAll h.2, Term.lead, Term.base,
        Term.glyphs]
      simp only [List.append_assoc]
  | .binary n o l r, h => by
      have hl := Term.glyphs_eq h.2.1
      have hr := Term.glyphs_eq h.2.2
      rw [← Term.glyphs_negated] at hl hr
      rw [Term.glyphs, hl, hr]
      rfl
  | .not n t, h => by
      rw [Term.glyphs, Term.glyphs_eq (t := t) h]
      rfl
  | .cond n c y (some e), h => by
      have hc := Term.glyphs_eq h.1
      have hy := Term.glyphs_eq h.2.1
      have he := Term.glyphs_eq h.2.2
      rw [← Term.glyphs_negated] at hc hy he
      rw [Term.glyphs, hc, hy, he]
      rfl

theorem Term.glyphsAll_baseAll : ∀ {ts : List Term}, Term.SimpleAll ts →
    Term.glyphsAll (Term.baseAll ts) = Term.glyphsAll ts
  | [], _ => rfl
  | [t], h => by
      rw [Term.glyphsAll, Term.glyphs_eq h.1, ← Term.glyphs_negated]
      rfl
  | t :: u :: ts, h => by
      have htail : Term.SimpleAll (u :: ts) := h.2
      rw [Term.glyphsAll, ← Term.glyphsAll_baseAll htail, Term.glyphs_eq h.1, ← Term.glyphs_negated]
      · rfl
      · exact fun h => nomatch h

end

theorem Term.glyphs_asRead {t : Term} (h : t.Simple) : t.asRead.glyphs true = t.glyphs true := by
  have hfalse : ∀ {t : Term}, t.Simple → t.asRead.glyphs false = t.glyphs false := by
    intro t h
    rw [Term.asRead, Term.glyphs_negated, Term.glyphs_eq h]
  -- only operations and conditionals are printed differently at the top
  have htop : ∀ (n : Nat) (t : Term), t.glyphs true = t.glyphs false ∨ n ≠ 0 →
      (Term.negated n t).glyphs true = (Term.negated n t).glyphs false := by
    rintro (_ | n) t ht
    · exact ht.resolve_right (absurd rfl)
    · rw [← Term.not_negated]
      rfl
  cases t with
  | binary n o l r =>
      rw [Term.glyphs, ← hfalse h.2.1, ← hfalse h.2.2]
      rfl
  | cond n c y e =>
      cases e with
      | none => cases h
      | some e =>
          rw [Term.glyphs, ← hfalse h.1, ← hfalse h.2.1, ← hfalse h.2.2]
          rfl
  | not n t => exact (htop (t.lead + 1) t.base (.inr (Nat.succ_ne_zero _))).trans (hfalse h)
  | _ => exact (htop _ _ (.inl rfl)).trans (hfalse h)

/-! ### The main statement -/

/-- A simple term can be printed; two of them have the same text if and only if they are the same as read.
So terms are told apart by their texts if no access or call is that of a negation. -/
theorem text_eq_iff_asRead_eq {a b : Term} (ha : a.Simple) (hb : b.Simple) :
    (∃ text, a.text = .ok text) ∧ (a.text = b.text ↔ a.asRead = b.asRead) ∧
      (a.Upright → b.Upright → a.text = b.text → a.bare = b.bare) := by
  have hiff : a.text = b.text ↔ a.asRead = b.asRead := by
    rw [Term.text_eq ha, Term.text_eq hb, Except.ok.injEq]
    have hreada := Term.whole_glyphs ha
    have hreadb := Term.whole_glyphs hb
    constructor
    · intro htext
      have hglyphs : a.glyphs true = b.glyphs true := by
        refine Glyph.textAll_inj (s := ⟨[], none⟩) (Term.valid_glyphs true ha)
          (Term.valid_glyphs true hb) ?_ ?_ htext
        · exact Option.isSome_of_isSome_bind (by rw [hreada]; rfl)
        · exact Option.isSome_of_isSome_bind (by rw [hreadb]; rfl)
      rw [hglyphs, hreadb] at hreada
      exact (Option.some.inj hreada).symm
    · intro heq
      rw [← Term.glyphs_asRead ha, heq, Term.glyphs_asRead hb]
  refine ⟨⟨_, Term.text_eq ha⟩, hiff, fun hua hub htext => ?_⟩
  rw [← Term.asRead_of_upright hua, ← Term.asRead_of_upright hub]
  exact hiff.mp htext

namespace Sample

def ofNegation : Term := .prop {} (.not {} (.var {} "a")) "b"

def negation : Term := .not {} (.prop {} (.var {} "a") "b")

theorem simple_ofNegation : ofNegation.Simple := ⟨⟨rfl, by decide⟩, rfl⟩

theorem simple_negation : negation.Simple := ⟨⟨rfl, by decide⟩, rfl⟩

theorem text_eq_iff_ofNegation : ofNegation.Simple ∧ negation.Simple ∧ negation.Upright ∧
    (∃ text, ofNegation.text = .ok text) ∧ (ofNegation.text = negation.text ↔
      ofNegation.asRead = negation.asRead) ∧
      (negation.Upright → negation.Upright → negation.text = negation.text →
        negation.bare = negation.bare) :=
  ⟨simple_ofNegation, simple_negation, ⟨rfl, trivial⟩,
    (text_eq_iff_asRead_eq simple_ofNegation simple_negation).1,
    (text_eq_iff_asRead_eq simple_ofNegation simple_negation).2.1,
    (text_eq_iff_asRead_eq simple_negation simple_negation).2.2⟩

/-- The property of a negation is printed like the negation of the property. -/
theorem text_ofNegation : ofNegation.Simple ∧ negation.Simple ∧ ofNegation.text = .ok "!a.b" ∧
    negation.text = .ok "!a.b" ∧ ofNegation.bare ≠ negation.bare :=
  ⟨simple_ofNegation, simple_negation, rfl, rfl, fun h => nomatch h⟩

end Sample

end TemplateCompiler
