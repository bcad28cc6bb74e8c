import TemplateCompiler.Code.Emit
import TemplateCompiler.Proofs.Code.Compared

/-!
# Equivalent code is written alike

What is written of a term is compared, with three exceptions. Two of them are the name of a function literal
and the sign of a zero; `Term.anonymous` is a term without them. The third is the signature of a declared
function: its parameters and whether it is exported. Of equivalent terms that declare functions of the same
signatures, the anonymous terms have the same text (`text_eq_of_equiv`).

The text of an anonymous term is that of its signed form (`Emit.term_form`), and the signed form is put
together from what is compared and the signatures (`Term.sign_form`).
-/

namespace TemplateCompiler

/-! ### Code without names of function literals -/

mutual

/-- A term without the names of its function literals and without the signs of its zeros. -/
def Term.anonymous : Term → Term
  | .var n x => .var n x
  | .lit n v => .lit n v.level
  | .array n ts => .array n (Term.anonymousAll ts)
  | .map n es => .map n (Term.anonymousEntries es)
  | .prop n r x => .prop n r.anonymous x
  | .key n r i => .key n r.anonymous i.anonymous
  | .call n f ts p => .call n f.anonymous (Term.anonymousAll ts) p
  | .binary n o l r => .binary n o l.anonymous r.anonymous
  | .not n t => .not n t.anonymous
  | .present n t => .present n t.anonymous
  | .cast n t => .cast n t.anonymous
  | .cond n c y e => .cond n c.anonymous y.anonymous (Term.anonymous? e)
  | .external n m x => .external n m x
  | .function n ps b _ => .function n ps (Stmt.anonymousAll b) []
  | .pooled k t => .pooled k t.anonymous

/-- The same for a term that may be missing. -/
def Term.anonymous? : Option Term → Option Term
  | none => none
  | some t => some t.anonymous

/-- The same for terms one after the other. -/
def Term.anonymousAll : List Term → List Term
  | [] => []
  | t :: ts => t.anonymous :: Term.anonymousAll ts

def Term.anonymousEntries : List (MapKey × Term) → List (MapKey × Term)
  | [] => []
  | (k, t) :: es => (k, t.anonymous) :: Term.anonymousEntries es

def Stmt.anonymous : Stmt → Stmt
  | .declare s m x v => .declare s m x (Term.anonymous? v)
  | .function s m x ps b => .function s m x ps (Stmt.anonymousAll b)
  | .expr s t => .expr s t.anonymous
  | .ret s t => .ret s t.anonymous
  | .branch s c y n => .branch s c.anonymous (Stmt.anonymousAll y) (Stmt.anonymousAll n)

/-- The same for statements one after the other. -/
def Stmt.anonymousAll : List Stmt → List Stmt
  | [] => []
  | s :: ss => s.anonymous :: Stmt.anonymousAll ss

end

/-- Whether a term is neither a function literal with a name nor a zero with a sign. -/
def Term.isUnmarked : Term → Bool
  | .lit _ v => v.level == v
  | .function _ _ _ x => x == []
  | _ => true

def Unmarked (ts : List Term) : Prop := ∀ t ∈ ts, t.isUnmarked = true

theorem unmarked_cons {t : Term} {ts : List Term} :
    Unmarked (t :: ts) ↔ t.isUnmarked = true ∧ Unmarked ts :=
  List.forall_mem_cons

theorem unmarked_append {ts us : List Term} : Unmarked (ts ++ us) ↔ Unmarked ts ∧ Unmarked us :=
  List.forall_mem_append

mutual

/-- Nothing else is left out of a term. -/
theorem Term.anonymous_eq_self : ∀ {t : Term}, Unmarked t.nodes → t.anonymous = t
  | .var .., _ | .external .., _ => rfl
  | .lit n v, h => congrArg (Term.lit n) (eq_of_beq (unmarked_cons.mp h).1)
  | .array n ts, h => congrArg (Term.array n) (Term.anonymousAll_eq_self (unmarked_cons.mp h).2)
  | .map n es, h => congrArg (Term.map n) (Term.anonymousEntries_eq_self (unmarked_cons.mp h).2)
  | .prop n r x, h => congrArg (Term.prop n · x) (Term.anonymous_eq_self (t := r) (unmarked_cons.mp h).2)
  | .key n r i, h => by
      have h := unmarked_append.mp (unmarked_cons.mp h).2
      rw [Term.anonymous, Term.anonymous_eq_self h.1, Term.anonymous_eq_self h.2]
  | .call n f ts p, h => by
      have h := unmarked_append.mp (unmarked_cons.mp h).2
      rw [Term.anonymous, Term.anonymous_eq_self h.1, Term.anonymousAll_eq_self h.2]
  | .binary n o l r, h => by
      have h := unmarked_append.mp (unmarked_cons.mp h).2
      rw [Term.anonymous, Term.anonymous_eq_self h.1, Term.anonymous_eq_self h.2]
  | .not n t, h => congrArg (Term.not n) (Term.anonymous_eq_self (t := t) (unmarked_cons.mp h).2)
  | .present n t, h => congrArg (Term.present n) (Term.anonymous_eq_self (t := t) (unmarked_cons.mp h).2)
  | .cast n t, h => congrArg (Term.cast n) (Term.anonymous_eq_self (t := t) (unmarked_cons.mp h).2)
  | .cond n c y none, h => by
      have h := unmarked_append.mp (unmarked_cons.mp h).2
      rw [Term.anonymous, Term.anonymous_eq_self h.1, Term.anonymous_eq_self h.2, Term.anonymous?]
  | .cond n c y (some e), h => by
      have h := unmarked_append.mp (unmarked_cons.mp h).2
      have h' := unmarked_append.mp h.2
      rw [Term.anonymous, Term.anonymous_eq_self h.1, Term.anonymous_eq_self h'.1, Term.anonymous?,
        Term.anonymous_eq_self h'.2]
  | .function n ps b x, h => by
      have h := unmarked_cons.mp h
      rw [Term.anonymous, Stmt.anonymousAll_eq_self h.2, eq_of_beq (a := x) h.1]
  | .pooled k t, h => congrArg (Term.pooled k) (Term.anonymous_eq_self (t := t) (unmarked_cons.mp h).2)

theorem Term.anonymousAll_eq_self : ∀ {ts : List Term}, Unmarked (Term.nodesAll ts) →
    Term.anonymousAll ts = ts
  | [], _ => rfl
  | _ :: _, h => by
      have h := unmarked_append.mp h
      rw [Term.anonymousAll, Term.anonymous_eq_self h.1, Term.anonymousAll_eq_self h.2]

theorem Term.anonymousEntries_eq_self : ∀ {es : List (MapKey × Term)}, Unmarked (Term.nodesEntries es) →
    Term.anonymousEntries es = es
  | [], _ => rfl
  | (_, _) :: _, h => by
      have h := unmarked_append.mp h
      rw [Term.anonymousEntries, Term.anonymous_eq_self h.1, Term.anonymousEntries_eq_self h.2]

theorem Stmt.anonymous_eq_self : ∀ {s : Stmt}, Unmarked s.nodes → s.anonymous = s
  | .declare _ _ _ none, _ => rfl
  | .declare s m x (some t), h =>
      congrArg (fun t => Stmt.declare s m x (some t)) (Term.anonymous_eq_self (t := t) h)
  | .function s m x ps ss, h => by
      have hbody : Unmarked (Stmt.nodesAll ss) := h
      rw [Stmt.anonymous, Stmt.anonymousAll_eq_self hbody]
  | .expr s t, h => congrArg (Stmt.expr s) (Term.anonymous_eq_self (t := t) h)
  | .ret s t, h => congrArg (Stmt.ret s) (Term.anonymous_eq_self (t := t) h)
  | .branch s c y n, h => by
      have h := unmarked_append.mp h
      have h' := unmarked_append.mp h.2
      rw [Stmt.anonymous, Term.anonymous_eq_self h.1, Stmt.anonymousAll_eq_self h'.1,
        Stmt.anonymousAll_eq_self h'.2]

theorem Stmt.anonymousAll_eq_self : ∀ {ss : List Stmt}, Unmarked (Stmt.nodesAll ss) →
    Stmt.anonymousAll ss = ss
  | [], _ => rfl
  | _ :: _, h => by
      have h := unmarked_append.mp h
      rw [Stmt.anonymousAll, Stmt.anonymous_eq_self h.1, Stmt.anonymousAll_eq_self h.2]

end

/-! ### The signatures of declared functions -/

/-- What is written of a declared function between its name and its body, and before its name. -/
structure Signature where
  params : List Text
  exported : Bool
  deriving DecidableEq, Repr

mutual

/-- The signatures of the functions that are declared in a term, in the order in which they are written. -/
def Term.signatures (names : Names) : Term → List Signature
  | .var .. | .lit .. | .external .. => []
  | .array _ ts => Term.signaturesAll names ts
  | .map _ es => Term.signaturesEntries names es
  | .prop _ t _ | .not _ t | .present _ t | .cast _ t => t.signatures names
  | .key _ a b | .binary _ _ a b => a.signatures names ++ b.signatures names
  | .call _ f ts _ => f.signatures names ++ Term.signaturesAll names ts
  | .cond _ c y e => c.signatures names ++ (y.signatures names ++ Term.signatures? names e)
  | .function _ _ b _ => Stmt.signaturesAll names b
  | .pooled k t =>
    match names k with
    | some _ => []
    | none => t.signatures names

/-- The same for a term that may be missing. -/
def Term.signatures? (names : Names) : Option Term → List Signature
  | none => []
  | some t => t.signatures names

/-- The same for terms one after the other. -/
def Term.signaturesAll (names : Names) : List Term → List Signature
  | [] => []
  | t :: ts => t.signatures names ++ Term.signaturesAll names ts

def Term.signaturesEntries (names : Names) : List (MapKey × Term) → List Signature
  | [] => []
  | (_, t) :: es => t.signatures names ++ Term.signaturesEntries names es

def Stmt.signatures (names : Names) : Stmt → List Signature
  | .declare _ _ _ v => Term.signatures? names v
  | .function _ m _ ps b => ⟨ps, m.exported⟩ :: Stmt.signaturesAll names b
  | .expr _ t | .ret _ t => t.signatures names
  | .branch _ c y n => c.signatures names ++ (Stmt.signaturesAll names y ++ Stmt.signaturesAll names n)

/-- The same for statements one after the other. -/
def Stmt.signaturesAll (names : Names) : List Stmt → List Signature
  | [] => []
  | s :: ss => s.signatures names ++ Stmt.signaturesAll names ss

end

/-! ### Putting signatures in -/

mutual

/-- Gives the functions that are declared in a term their signatures, and what is left of these. -/
def Term.sign : Term → List Signature → Term × List Signature
  | .array n ts, gs => let (ts, gs) := Term.signAll ts gs; (.array n ts, gs)
  | .map n es, gs => let (es, gs) := Term.signEntries es gs; (.map n es, gs)
  | .prop n r x, gs => let (r, gs) := r.sign gs; (.prop n r x, gs)
  | .key n r i, gs => let (r, gs) := r.sign gs; let (i, gs) := i.sign gs; (.key n r i, gs)
  | .call n f ts p, gs => let (f, gs) := f.sign gs; let (ts, gs) := Term.signAll ts gs; (.call n f ts p, gs)
  | .binary n o l r, gs => let (l, gs) := l.sign gs; let (r, gs) := r.sign gs; (.binary n o l r, gs)
  | .not n t, gs => let (t, gs) := t.sign gs; (.not n t, gs)
  | .present n t, gs => let (t, gs) := t.sign gs; (.present n t, gs)
  | .cast n t, gs => let (t, gs) := t.sign gs; (.cast n t, gs)
  | .cond n c y e, gs =>
    let (c, gs) := c.sign gs; let (y, gs) := y.sign gs; let (e, gs) := Term.sign? e gs; (.cond n c y e, gs)
  | .function n ps b x, gs => let (b, gs) := Stmt.signAll b gs; (.function n ps b x, gs)
  | .pooled k t, gs => let (t, gs) := t.sign gs; (.pooled k t, gs)
  | t, gs => (t, gs)

/-- The same for a term that may be missing. -/
def Term.sign? : Option Term → List Signature → Option Term × List Signature
  | none, gs => (none, gs)
  | some t, gs => let (t, gs) := t.sign gs; (some t, gs)

/-- The same for terms one after the other. -/
def Term.signAll : List Term → List Signature → List Term × List Signature
  | [], gs => ([], gs)
  | t :: ts, gs => let (t, gs) := t.sign gs; let (ts, gs) := Term.signAll ts gs; (t :: ts, gs)

def Term.signEntries : List (MapKey × Term) → List Signature → List (MapKey × Term) × List Signature
  | [], gs => ([], gs)
  | (k, t) :: es, gs => let (t, gs) := t.sign gs; let (es, gs) := Term.signEntries es gs; ((k, t) :: es, gs)

def Stmt.sign : Stmt → List Signature → Stmt × List Signature
  | .declare s m x v, gs => let (v, gs) := Term.sign? v gs; (.declare s m x v, gs)
  | .function s m x ps b, gs =>
    let g := gs.headD ⟨ps, m.exported⟩
    let (b, gs) := Stmt.signAll b gs.tail
    (.function s { m with exported := g.exported } x g.params b, gs)
  | .expr s t, gs => let (t, gs) := t.sign gs; (.expr s t, gs)
  | .ret s t, gs => let (t, gs) := t.sign gs; (.ret s t, gs)
  | .branch s c y n, gs =>
    let (c, gs) := c.sign gs; let (y, gs) := Stmt.signAll y gs; let (n, gs) := Stmt.signAll n gs
    (.branch s c y n, gs)

/-- The same for statements one after the other. -/
def Stmt.signAll : List Stmt → List Signature → List Stmt × List Signature
  | [], gs => ([], gs)
  | s :: ss, gs => let (s, gs) := s.sign gs; let (ss, gs) := Stmt.signAll ss gs; (s :: ss, gs)

end

section

variable (names : Names)

mutual

/-- What is compared of a term and its signatures make the signed form. -/
theorem Term.sign_form : ∀ (t : Term) (gs : List Signature),
    (t.form false names).sign (t.signatures names ++ gs) = (t.form true names, gs)
  | .var .., gs | .lit .., gs | .external .., gs => rfl
  | .array _ ts, gs => by simp [Term.form, Term.signatures, Term.sign, Term.sign_formAll ts gs]
  | .map _ es, gs => by simp [Term.form, Term.signatures, Term.sign, Term.sign_formEntries es gs]
  | .prop _ t _, gs => by simp [Term.form, Term.signatures, Term.sign, Term.sign_form t]
  | .key _ a b, gs => by simp [Term.form, Term.signatures, Term.sign, Term.sign_form a, Term.sign_form b]
  | .call _ f ts _, gs => by
      simp [Term.form, Term.signatures, Term.sign, Term.sign_form f, Term.sign_formAll ts]
  | .binary _ _ a b, gs => by simp [Term.form, Term.signatures, Term.sign, Term.sign_form a, Term.sign_form b]
  | .not _ t, gs => by simp [Term.form, Term.signatures, Term.sign, Term.sign_form t]
  | .present _ t, gs => by simp [Term.form, Term.signatures, Term.sign, Term.sign_form t]
  | .cast _ t, gs => by simp [Term.form, Term.signatures, Term.sign, Term.sign_form t]
  | .cond _ c y e, gs => by
      simp [Term.form, Term.signatures, Term.sign, Term.sign_form c, Term.sign_form y, Term.sign_form? e]
  | .function _ _ b _, gs => by simp [Term.form, Term.signatures, Term.sign, Stmt.sign_formAll b]
  | .pooled k t, gs => by
      cases hk : names k with
      | some x => simp [Term.form, Term.signatures, Term.sign, hk, Term.ofVar]
      | none => simp [Term.form, Term.signatures, Term.sign, hk, Term.sign_form t]

theorem Term.sign_form? : ∀ (t : Option Term) (gs : List Signature),
    Term.sign? (Term.form? false names t) (Term.signatures? names t ++ gs) = (Term.form? true names t, gs)
  | none, gs => rfl
  | some t, gs => by simp [Term.form?, Term.signatures?, Term.sign?, Term.sign_form t]

theorem Term.sign_formAll : ∀ (ts : List Term) (gs : List Signature),
    Term.signAll (Term.formAll false names ts) (Term.signaturesAll names ts ++ gs) =
      (Term.formAll true names ts, gs)
  | [], gs => rfl
  | t :: ts, gs => by
      simp [Term.formAll, Term.signaturesAll, Term.signAll, Term.sign_form t, Term.sign_formAll ts]

theorem Term.sign_formEntries : ∀ (es : List (MapKey × Term)) (gs : List Signature),
    Term.signEntries (Term.formEntries false names es) (Term.signaturesEntries names es ++ gs) =
      (Term.formEntries true names es, gs)
  | [], gs => rfl
  | (k, t) :: es, gs => by
      simp [Term.formEntries, Term.signaturesEntries, Term.signEntries, Term.sign_form t,
        Term.sign_formEntries es]

theorem Stmt.sign_form : ∀ (s : Stmt) (gs : List Signature),
    (s.form false names).sign (s.signatures names ++ gs) = (s.form true names, gs)
  | .declare _ _ _ v, gs => by simp [Stmt.form, Stmt.signatures, Stmt.sign, Term.sign_form? v]
  | .function _ _ _ _ b, gs => by simp [Stmt.form, Stmt.signatures, Stmt.sign, Stmt.sign_formAll b]
  | .expr _ t, gs => by simp [Stmt.form, Stmt.signatures, Stmt.sign, Term.sign_form t]
  | .ret _ t, gs => by simp [Stmt.form, Stmt.signatures, Stmt.sign, Term.sign_form t]
  | .branch _ c y n, gs => by
      simp [Stmt.form, Stmt.signatures, Stmt.sign, Term.sign_form c, Stmt.sign_formAll y, Stmt.sign_formAll n]

theorem Stmt.sign_formAll : ∀ (ss : List Stmt) (gs : List Signature),
    Stmt.signAll (Stmt.formAll false names ss) (Stmt.signaturesAll names ss ++ gs) =
      (Stmt.formAll true names ss, gs)
  | [], gs => rfl
  | s :: ss, gs => by
      simp [Stmt.formAll, Stmt.signaturesAll, Stmt.signAll, Stmt.sign_form s, Stmt.sign_formAll ss]

end

end

/-! ### Text without its source -/

/-- A step of printing without the source it was made from. -/
def Print.bare : Print → Print
  | .part t _ => .part t none
  | s => s

/-- A line without the sources of its parts. -/
def Line.bare (l : Line) : Line := { l with printed := l.printed.map fun q => { q with span := none } }

/-- A page without the sources of its lines. -/
def Page.bare (p : Page) : Page := { p with finished := p.finished.map Line.bare, current := p.current.bare }

theorem Line.isEmpty_bare (l : Line) : l.bare.isEmpty = l.isEmpty := by simp [bare, isEmpty]

theorem Line.text_bare (l : Line) : l.bare.text = l.text := by
  have hbody : l.bare.body = l.body := by simp [body, parts, bare, ← List.map_reverse, List.flatMap_map]
  rw [text, text, isEmpty_bare, hbody]
  rfl

theorem Page.setIndent_bare (p : Page) (i : Int) : p.bare.setIndent i = (p.setIndent i).bare := by
  cases h : p.current.isEmpty <;> simp [setIndent, lineIsEmpty, bare, Line.isEmpty_bare, h]
  rfl

theorem Page.step_bare (p : Page) (s : Print) : p.bare.step s.bare = (p.step s).bare := by
  cases s with
  | part t span =>
      simp only [Print.bare, step]
      split <;> rfl
  | newline => rfl
  | indent => exact p.setIndent_bare _
  | dedent => exact p.setIndent_bare _

theorem Page.run_bare (p : Page) (steps : List Print) :
    p.bare.run (steps.map Print.bare) = (p.run steps).bare := by
  induction steps generalizing p with
  | nil => rfl
  | cons s ss ih => exact (congrArg (Page.run · _) (Page.step_bare p s)).trans (ih (p.step s))

/-- The text of a page does not tell where it comes from. -/
theorem Page.source_bare (p : Page) : p.bare.source = p.source := by
  have hshown : p.bare.shown = p.shown.map Line.bare := by
    cases h : p.current.isEmpty <;> simp [shown, lineIsEmpty, lines, bare, Line.isEmpty_bare, h]
  have htext : Line.text ∘ Line.bare = Line.text := funext Line.text_bare
  rw [source, source, hshown, List.map_map, htext]

namespace Emit

variable (names : Names) (escapeDollar : Bool)

theorem span_form : ∀ t : Term, (t.form true names).span = none
  | .pooled k t => by
      have h := span_form t
      cases hk : names k with
      | some x => simp [Term.form, hk, Term.span, Term.note, Term.ofVar]
      | none => simpa [Term.form, hk, Term.span, Term.note] using h
  | .var .. | .lit .. | .array .. | .map .. | .prop .. | .key .. | .call .. | .binary .. | .not ..
  | .present .. | .cast .. | .cond .. | .external .. | .function .. => rfl

theorem isFunction_form (t : Term) : isFunction (t.form true names) = isFunction t.anonymous := by
  cases t <;> rfl

theorem map_bare_parens (wanted : Bool) (span : Option SourceSpan) (steps : List Print) :
    (parens wanted span steps).map Print.bare = parens wanted none (steps.map Print.bare) := by
  cases wanted <;> simp [parens, Print.bare]

theorem map_bare_indented (steps : List Print) :
    (indented steps).map Print.bare = indented (steps.map Print.bare) := by
  simp [indented, Print.bare]

theorem map_bare_exported (s : Option SourceSpan) (m m' : Modifiers) (h : m.exported = m'.exported) :
    (stmt.exported s m).map Print.bare = stmt.exported none m' := by
  rw [stmt.exported, stmt.exported, h]
  split <;> rfl

theorem map_bare_declaration (s : Option SourceSpan) (m : Modifiers) (x : Text) :
    (stmt.declaration s m x).map Print.bare = stmt.declaration none m x := by
  rw [stmt.declaration, List.map_append, map_bare_exported s m m rfl]
  rfl

theorem entries_cons (style : Style) (span : Option SourceSpan) (k : MapKey) (t : Term) (e : MapKey × Term)
    (es : List (MapKey × Term)) : entries style span ((k, t) :: e :: es) = (do
      let value ← term style false t
      return [.part (escapeIdentifier k.name style.escapeDollar k.quoted ++ ": ") span] ++ value ++
        [.part ", " none] ++ (← entries style span (e :: es))) := by
  rw [entries]

mutual

/-- The steps of a signed form are those of the anonymous term, but for their sources. -/
theorem term_form (top : Bool) : ∀ t : Term, term { escapeDollar } top (t.form true names) =
    List.map Print.bare <$> term { names, escapeDollar } top t.anonymous
  | .var .. | .lit .. | .external .. => rfl
  | .array _ ts => by simp [term, Term.form, Term.anonymous, terms_form ts, Print.bare]
  | .map n es => by simp [term, Term.form, Term.anonymous, entries_form n.span es, Print.bare]
  | .prop _ r x => by simp [term, Term.form, Term.anonymous, term_form false r, Print.bare]
  | .key _ r i => by
      simp [term, Term.form, Term.anonymous, term_form false r, term_form false i, Print.bare]
  | .call _ f ts _ => by
      simp [term, Term.form, Term.anonymous, term_form false f, terms_form ts, Print.bare, map_bare_parens,
        isFunction_form, span_form]
  | .binary _ o l r => by
      cases ho : o.text? with
      | none => simp [term, Term.form, Term.anonymous, ho]; rfl
      | some t =>
          simp [term, Term.form, Term.anonymous, ho, term_form false l, term_form false r, Print.bare,
            map_bare_parens]
  | .not _ t => by simp [term, Term.form, Term.anonymous, term_form false t, Print.bare]
  | .present _ t => by simp [term, Term.form, Term.anonymous, term_form false t, Print.bare]
  | .cast _ t => by simp [term, Term.form, Term.anonymous, term_form false t, Print.bare]
  | .cond _ c y none => by
      simp [term, Term.form, Term.form?, Term.anonymous, Term.anonymous?, term_form false c,
        term_form false y, Print.bare, map_bare_parens]
  | .cond _ c y (some e) => by
      simp [term, Term.form, Term.form?, Term.anonymous, Term.anonymous?, term_form false c,
        term_form false y, term_form false e, Print.bare, map_bare_parens]
  | .function _ _ b _ => by
      simp [term, Term.form, Term.anonymous, stmts_form b, Print.bare, map_bare_indented, params]
  | .pooled k t => by
      cases hk : names k with
      | some x => simp [term, Term.form, Term.anonymous, hk, Names.empty, Term.ofVar, Print.bare]
      | none => simp [term, Term.form, Term.anonymous, hk, Names.empty, term_form false t]

theorem terms_form : ∀ ts : List Term, terms { escapeDollar } (Term.formAll true names ts) =
    List.map Print.bare <$> terms { names, escapeDollar } (Term.anonymousAll ts)
  | [] => rfl
  | [t] => term_form false t
  | t :: u :: us => by
      have h := terms_form (u :: us)
      simp only [Term.formAll, Term.anonymousAll] at h
      simp [terms, Term.formAll, Term.anonymousAll, term_form false t, h, Print.bare]

theorem entries_form (span : Option SourceSpan) : ∀ es : List (MapKey × Term),
    entries { escapeDollar } none (Term.formEntries true names es) =
      List.map Print.bare <$> entries { names, escapeDollar } span (Term.anonymousEntries es)
  | [] => rfl
  | [(k, t)] => by simp [entries, Term.formEntries, Term.anonymousEntries, term_form false t, Print.bare]
  | (k, t) :: (l, u) :: es => by
      have h := entries_form span ((l, u) :: es)
      simp only [Term.formEntries, Term.anonymousEntries] at h
      simp [entries_cons, Term.formEntries, Term.anonymousEntries, term_form false t, h, Print.bare]

theorem stmt_form : ∀ s : Stmt, stmt { escapeDollar } (s.form true names) =
    List.map Print.bare <$> stmt { names, escapeDollar } s.anonymous
  | .declare _ _ _ none => by
      simp [stmt, Stmt.form, Stmt.anonymous, Term.form?, Term.anonymous?, Print.bare, map_bare_declaration]
  | .declare _ _ _ (some t) => by
      simp [stmt, Stmt.form, Stmt.anonymous, Term.form?, Term.anonymous?, Print.bare, map_bare_declaration,
        term_form true t]
  | .function s m x ps b => by
      have hm := map_bare_exported s m { exported := m.exported } rfl
      simp [stmt, Stmt.form, Stmt.anonymous, Print.bare, hm, map_bare_indented, stmts_form b, params]
  | .expr _ t => by simp [stmt, Stmt.form, Stmt.anonymous, Print.bare, term_form true t]
  | .ret _ t => by simp [stmt, Stmt.form, Stmt.anonymous, Print.bare, term_form true t]
  | .branch _ c y [] => by
      simp [stmt, stmts, Stmt.form, Stmt.anonymous, Stmt.formAll, Stmt.anonymousAll, Print.bare,
        term_form true c, stmts_form y, map_bare_indented]
  | .branch _ c y (n :: ns) => by
      have h := stmts_form (n :: ns)
      simp only [Stmt.formAll, Stmt.anonymousAll] at h
      simp [stmt, Stmt.form, Stmt.anonymous, Stmt.formAll, Stmt.anonymousAll, Print.bare, term_form true c,
        stmts_form y, h, map_bare_indented]

theorem stmts_form : ∀ ss : List Stmt, stmts { escapeDollar } (Stmt.formAll true names ss) =
    List.map Print.bare <$> stmts { names, escapeDollar } (Stmt.anonymousAll ss)
  | [] => rfl
  | s :: ss => by simp [stmts, Stmt.formAll, Stmt.anonymousAll, stmt_form s, stmts_form ss]

end

end Emit

theorem Page.source_map_bare (steps : List Print) :
    ((Page.start 0).run (steps.map Print.bare)).source = ((Page.start 0).run steps).source := by
  rw [← Page.source_bare ((Page.start 0).run steps), ← Page.run_bare]
  rfl

/-! ### The main statement -/

section

variable {names : Names}

/-- The signed form is compared, but for the signatures. -/
theorem Term.form_eq_of_equiv {a b : Term} (h : a.equiv names b = true)
    (hs : a.signatures names = b.signatures names) : a.form true names = b.form true names := by
  have ha := Term.sign_form names a []
  rw [((Term.equiv_iff names a b).mp h).1, hs, Term.sign_form names b []] at ha
  exact (congrArg Prod.fst ha).symm

theorem Stmt.formAll_eq_of_equivAll {ss ts : List Stmt} (h : Stmt.equivAll names ss ts = true)
    (hs : Stmt.signaturesAll names ss = Stmt.signaturesAll names ts) :
    Stmt.formAll true names ss = Stmt.formAll true names ts := by
  have hss := Stmt.sign_formAll names ss []
  rw [((Stmt.equivAll_iff names ss ts).mp h).1, hs, Stmt.sign_formAll names ts []] at hss
  exact (congrArg Prod.fst hss).symm

variable (names)

theorem Term.text_anonymous (t : Term) : t.anonymous.text names =
    (Emit.term {} true (t.form true names)).map fun steps => ((Page.start 0).run steps).source := by
  rw [Emit.term_form names false true t, Term.text]
  cases Emit.term { names } true t.anonymous with
  | error d => rfl
  | ok steps => exact congrArg Except.ok (Page.source_map_bare steps).symm

theorem Stmt.source_anonymousAll (escapeDollar : Bool) (ss : List Stmt) :
    (Stmt.page (Stmt.anonymousAll ss) { names, escapeDollar }).map Page.source =
      (Emit.stmts { escapeDollar } (Stmt.formAll true names ss)).map fun steps =>
        ((Page.start 0).run steps).source := by
  rw [Emit.stmts_form names escapeDollar ss, Stmt.page]
  cases Emit.stmts { names, escapeDollar } (Stmt.anonymousAll ss) with
  | error d => rfl
  | ok steps => exact congrArg Except.ok (Page.source_map_bare steps).symm

/-- Equivalent terms are written alike, up to the names of function literals and the signs of zeros, if they
declare functions of the same signatures; and so are equivalent statements in every style. -/
theorem text_eq_of_equiv :
    (∀ a b : Term, a.equiv names b = true → a.signatures names = b.signatures names →
      a.anonymous.text names = b.anonymous.text names) ∧
    (∀ ss ts : List Stmt, Stmt.equivAll names ss ts = true →
      Stmt.signaturesAll names ss = Stmt.signaturesAll names ts → ∀ escapeDollar : Bool,
        (Stmt.page (Stmt.anonymousAll ss) { names, escapeDollar }).map Page.source =
          (Stmt.page (Stmt.anonymousAll ts) { names, escapeDollar }).map Page.source) := by
  refine ⟨fun a b h hs => ?_, fun ss ts h hs e => ?_⟩
  · rw [Term.text_anonymous, Term.text_anonymous, Term.form_eq_of_equiv h hs]
  · rw [Stmt.source_anonymousAll, Stmt.source_anonymousAll, Stmt.formAll_eq_of_equivAll h hs]

end

namespace Sample

/-- The function literal `function name(x) { function f(a) {} }`. -/
def declaringOne (name : Text) : Term := .function {} ["x"] [.function none {} "f" ["a"] []] name

/-- The statement `function f(param) {}`. -/
def declared (param : Text) (exported : Bool) : List Stmt := [.function none { exported } "f" [param] []]

theorem text_eq_declaringOne :
    (declaringOne "g").equiv .empty (declaringOne "") = true ∧
      (declaringOne "g").signatures .empty = (declaringOne "").signatures .empty ∧
      (declaringOne "g").anonymous.text = (declaringOne "").text ∧
      (declaringOne "g").text ≠ (declaringOne "").text := by
  have hequiv : (declaringOne "g").equiv .empty (declaringOne "") = true := by
    simp [declaringOne, Term.equiv, Stmt.equivAll, Stmt.equiv]
  have hsignatures : (declaringOne "g").signatures .empty = (declaringOne "").signatures .empty := by decide
  exact ⟨hequiv, hsignatures, (text_eq_of_equiv .empty).1 _ _ hequiv hsignatures, by decide⟩

/-- Functions are declared with other parameters, or one of them is exported: they are equivalent and are not
written alike. -/
theorem text_ne_declared :
    (Stmt.equivAll .empty (declared "a" false) (declared "b" false) = true ∧
      Stmt.text (declared "a" false) = .ok "function f(a) \x7b\n\x7d" ∧
      Stmt.text (declared "b" false) = .ok "function f(b) \x7b\n\x7d") ∧
    Stmt.equivAll .empty (declared "a" false) (declared "a" true) = true ∧
      Stmt.text (declared "a" true) = .ok "export function f(a) \x7b\n\x7d" := by
  have hequiv : ∀ (param : Text) (exported : Bool),
      Stmt.equivAll .empty (declared "a" false) (declared param exported) = true := by
    simp [declared, Stmt.equivAll, Stmt.equiv]
  exact ⟨⟨hequiv _ _, by decide, by decide⟩, hequiv _ _, by decide⟩

end Sample

end TemplateCompiler
