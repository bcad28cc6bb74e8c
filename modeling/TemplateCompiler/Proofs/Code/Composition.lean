import TemplateCompiler.Proofs.Code.Fragments
import TemplateCompiler.Proofs.Code.Nodes
import TemplateCompiler.Proofs.Run

/-!
# Code is written piece by piece

The printer keeps the line being written, the indentation and whether a term is the whole of a statement.
None of them reaches from one piece of the code into another (`Style.compositional`):

* statements one after the other have the lines of all (`Stacks.lines_append`);
* the body of a function, of a branch or of a function literal has the lines that it has alone, one step
  further in (`Stacks.lines_indented`, `Emit.lines_run_function`);
* a term inside another one has the text that it has as a statement, in parentheses if it is an operation
  or a conditional (`Emit.term_false`, `Inline.source_parens`).

The induction is over terms and statements at once: without unknown operators, a term is written as a
fragment (`Term.inline`), and statements as lines (`Stmt.stacks_all`).
-/

namespace TemplateCompiler

/-! ### Operators that can be written -/

/-- Whether a term is an operation that cannot be written. -/
def Term.isUnknown : Term → Bool
  | .binary _ .unknown _ _ => true
  | _ => false

/-- None of the terms is an operation that cannot be written. -/
def Known (ts : List Term) : Prop := ∀ t ∈ ts, t.isUnknown = false

instance (ts : List Term) : Decidable (Known ts) := inferInstanceAs (Decidable (∀ t ∈ ts, _))

theorem known_cons {t : Term} {ts : List Term} : Known (t :: ts) ↔ t.isUnknown = false ∧ Known ts :=
  List.forall_mem_cons

theorem known_append {ts us : List Term} : Known (ts ++ us) ↔ Known ts ∧ Known us :=
  List.forall_mem_append

/-! ### Steps of expressions and of statements -/

namespace Fragment

theorem ends_part (text : Text) (span : Option SourceSpan) : (part text span).Ends := nofun

theorem Ends.append {f g : Fragment} (hf : f.Ends) (hg : g.Ends) : (f.append g).Ends := by
  obtain ⟨head, below⟩ := f
  obtain ⟨head', below'⟩ := g
  cases below with
  | nil => exact hg
  | cons l ls =>
      cases below' with
      | nil =>
          rintro _ ⟨⟩ h
          exact hf l rfl (List.append_eq_nil_iff.mp h).2
      | cons m ms =>
          rintro _ ⟨⟩
          exact hg m rfl

/-- A body that is closed on the line behind it. -/
theorem ends_body_append (ls : List Line) {text : Text} (h : text ≠ []) (span : Option SourceSpan) :
    ((body ls).append (part text span)).Ends := by
  rintro _ ⟨⟩
  simp [part, Line.addAll, h]

end Fragment

/-- Steps that add a fragment to any page. -/
def Inline (steps : List Print) : Prop := ∃ f, Draws steps f ∧ f.Ends

namespace Inline

variable {a b : List Print}

theorem nil : Inline [] := ⟨_, .nil, nofun⟩

theorem part (text : Text) (span : Option SourceSpan) : Inline [.part text span] :=
  ⟨_, .part text span, Fragment.ends_part text span⟩

theorem append : Inline a → Inline b → Inline (a ++ b) :=
  fun ⟨_, hf, hf'⟩ ⟨_, hg, hg'⟩ => ⟨_, hf.append hg, hf'.append hg'⟩

theorem cons (text : Text) (span : Option SourceSpan) (h : Inline b) : Inline (.part text span :: b) :=
  (part text span).append h

theorem parens (wanted : Bool) (span : Option SourceSpan) (h : Inline a) :
    Inline (Emit.parens wanted span a) := by
  cases wanted with
  | false => exact h
  | true => exact ((part _ span).append h).append (part _ span)

/-- A statement on one line and the lines that its terms need. -/
theorem newline : Inline a → ∃ ls, Stacks (a ++ [.newline]) ls := fun ⟨_, hf, _⟩ => ⟨_, hf.newline⟩

theorem body {ls : List Line} (h : Stacks b ls) (span : Option SourceSpan) :
    Inline ([.newline] ++ Emit.indented b ++ [.part Emit.closeBrace span]) :=
  ⟨_, (Draws.body h).append (.part _ span), Fragment.ends_body_append ls (List.cons_ne_nil _ _) span⟩

end Inline

namespace Emit

variable (style : Style)

/-- What stands before the body of a function literal. -/
def functionHead (n : Note) (params : List Text) (name : Text) : List Print :=
  [.part "function" n.span] ++ (if name.isEmpty then [] else [.part (" " ++ name) n.span])
    ++ [.part "(" n.span, Emit.params params, .part (") " ++ openBrace) n.span]

/-- What stands before the body of a function. -/
def declarationHead (s : Option SourceSpan) (mods : Modifiers) (name : Text) (params : List Text) :
    List Print :=
  stmt.exported s mods
    ++ [.part ("function " ++ name ++ "(") s, Emit.params params, .part (") " ++ openBrace) s]

/-- What stands before the first body of a branch. -/
def branchHead (s : Option SourceSpan) (condition : List Print) : List Print :=
  [.part "if (" s] ++ condition ++ [.part (") " ++ openBrace) s]

/-- What stands before the second body of a branch. -/
def otherwiseHead (s : Option SourceSpan) : List Print := [.part (closeBrace ++ " else " ++ openBrace) s]

def bodyEnd (s : Option SourceSpan) : List Print := [.part closeBrace s]

variable {style} {steps steps' steps'' : List Print}

theorem stmts_append {xs ys : List Stmt} (h : stmts style xs = .ok steps) (h' : stmts style ys = .ok steps') :
    stmts style (xs ++ ys) = .ok (steps ++ steps') := by
  induction xs generalizing steps with
  | nil =>
      cases h
      exact h'
  | cons x xs ih =>
      rw [stmts] at h
      obtain ⟨a, ha, h⟩ := except_bind_ok.mp h
      obtain ⟨b, hb, h⟩ := except_bind_ok.mp h
      cases h
      rw [List.cons_append, stmts, ha, ih hb, List.append_assoc]
      rfl

theorem stmts_singleton {s : Stmt} (h : stmt style s = .ok steps) : stmts style [s] = .ok steps := by
  rw [stmts, h, ← List.append_nil steps]
  simp [stmts]

theorem term_function (top : Bool) (n : Note) (params : List Text) {body : List Stmt} (name : Text)
    (h : stmts style body = .ok steps) : term style top (.function n params body name) =
      .ok (functionHead n params name ++ ([.newline] ++ indented steps ++ bodyEnd n.span)) := by
  rw [term, h, functionHead]
  simp only [List.append_assoc]
  rfl

theorem stmt_function (s : Option SourceSpan) (mods : Modifiers) (name : Text) (params : List Text)
    {body : List Stmt} (h : stmts style body = .ok steps) : stmt style (.function s mods name params body) =
      .ok (declarationHead s mods name params ++ [.newline] ++ indented steps ++ (bodyEnd s ++ [.newline])) := by
  rw [stmt, h, declarationHead]
  simp only [List.append_assoc]
  rfl

theorem stmt_branch (s : Option SourceSpan) {c : Term} {yes no : List Stmt}
    (hc : term style true c = .ok steps) (hyes : stmts style yes = .ok steps')
    (hno : stmts style no = .ok steps'') : stmt style (.branch s c yes no) =
      .ok (branchHead s steps ++ [.newline] ++ indented steps'
        ++ (if no.isEmpty then [] else otherwiseHead s ++ [.newline] ++ indented steps'')
        ++ (bodyEnd s ++ [.newline])) := by
  rw [stmt, hc, hyes, hno, branchHead]
  simp only [List.append_assoc]
  rfl

end Emit

theorem Inline.functionHead (n : Note) (params : List Text) (name : Text) :
    Inline (Emit.functionHead n params name) := by
  refine Inline.append (.cons _ n.span ?_) (.cons _ n.span (.cons _ none (.part _ n.span)))
  split
  · exact .nil
  · exact .part _ n.span

theorem Inline.exported (s : Option SourceSpan) (mods : Modifiers) : Inline (Emit.stmt.exported s mods) := by
  unfold Emit.stmt.exported
  split
  · exact .part _ s
  · exact .nil

theorem Inline.declarationHead (s : Option SourceSpan) (mods : Modifiers) (name : Text) (params : List Text) :
    Inline (Emit.declarationHead s mods name params) :=
  (exported s mods).append (.cons _ s (.cons _ none (.part _ s)))

theorem Inline.declaration (s : Option SourceSpan) (mods : Modifiers) (name : Text) :
    Inline (Emit.stmt.declaration s mods name) :=
  (exported s mods).append (.cons _ s (.part name s))

theorem Inline.branchHead (s : Option SourceSpan) {condition : List Print} (h : Inline condition) :
    Inline (Emit.branchHead s condition) :=
  ((part "if (" s).append h).append (.part _ s)

theorem Inline.otherwiseHead (s : Option SourceSpan) : Inline (Emit.otherwiseHead s) := part _ s

theorem Inline.bodyEnd (s : Option SourceSpan) : Inline (Emit.bodyEnd s) := part _ s

/-! ### Lines -/

def Print.lines (steps : List Print) : List Line := ((Page.start 0).run steps).shown

/-- The lines of statements on a page of their own. -/
def Stmt.lines (style : Style) (ss : List Stmt) : Except Defect (List Line) :=
  return (← Stmt.page ss style).shown

theorem Stmt.lines_of_stmts {style : Style} {ss : List Stmt} {steps : List Print}
    (h : Emit.stmts style ss = .ok steps) : Stmt.lines style ss = .ok (Print.lines steps) := by
  rw [Stmt.lines, Stmt.page, h]
  rfl

theorem Stacks.lines {steps : List Print} {ls : List Line} (h : Stacks steps ls) :
    Print.lines steps = ls.map (Line.shift 0) := by
  have hrun : (Page.start 0).run steps = Page.fresh ((ls.map (Line.shift 0)).reverse ++ []) 0 := h [] 0 rfl
  rw [Print.lines, hrun, List.append_nil]
  exact List.reverse_reverse _

/-- The end of a line on which something is printed adds no line. -/
theorem Print.lines_newline (steps : List Print) {text : Text} (htext : text ≠ []) (span : Option SourceSpan) :
    Print.lines (steps ++ [.part text span] ++ [.newline]) = Print.lines (steps ++ [.part text span]) := by
  have hempty : text.isEmpty = false := by simpa using htext
  simp only [Print.lines, Page.run_append]
  generalize (Page.start 0).run steps = p
  simp [Page.run, Page.step, hempty, Page.shown, Page.lineIsEmpty, Line.isEmpty, Line.add, Page.lines]

/-- What one piece of the statements adds to the lines does not depend on the other. -/
theorem Stacks.lines_append {a b : List Print} {ls ms : List Line} (ha : Stacks a ls) (hb : Stacks b ms) :
    Print.lines (a ++ b) = Print.lines a ++ Print.lines b := by
  rw [(ha.append hb).lines, ha.lines, hb.lines, List.map_append]

theorem Stacks.lines_indented {a : List Print} {ls : List Line} (h : Stacks a ls) :
    Print.lines (Emit.indented a) = (Print.lines a).map (Line.shift 1) := by
  rw [h.indented.lines, h.lines, Line.map_shift_shift, Line.map_shift_shift, Int.add_comm]

/-! The first and the last line of a body: -/

namespace Emit

theorem lines_declarationHead (s : Option SourceSpan) (mods : Modifiers) (name : Text) (params : List Text) :
    Print.lines (declarationHead s mods name params ++ [.newline]) =
      Print.lines (declarationHead s mods name params) := by
  have hbrace : (") " ++ openBrace : Text) ≠ [] := List.cons_ne_nil _ _
  have h := Print.lines_newline
    (stmt.exported s mods ++ [.part ("function " ++ name ++ "(") s, Emit.params params]) hbrace s
  simpa only [declarationHead, List.append_assoc, List.cons_append, List.nil_append] using h

theorem lines_branchHead (s : Option SourceSpan) (condition : List Print) :
    Print.lines (branchHead s condition ++ [.newline]) = Print.lines (branchHead s condition) :=
  Print.lines_newline _ (List.cons_ne_nil _ _) s

theorem lines_otherwiseHead (s : Option SourceSpan) :
    Print.lines (otherwiseHead s ++ [.newline]) = Print.lines (otherwiseHead s) :=
  Print.lines_newline [] (List.cons_ne_nil _ _) s

theorem lines_bodyEnd (s : Option SourceSpan) : Print.lines (bodyEnd s ++ [.newline]) = Print.lines (bodyEnd s) :=
  Print.lines_newline [] (List.cons_ne_nil _ _) s

/-- The second body of a branch, if there is one. -/
theorem stacks_otherwise (s : Option SourceSpan) (no : List Stmt) {steps : List Print} {ls : List Line}
    (h : Stacks steps ls) : ∃ ms,
      Stacks (if no.isEmpty then [] else otherwiseHead s ++ [.newline] ++ indented steps) ms ∧
      Print.lines (if no.isEmpty then [] else otherwiseHead s ++ [.newline] ++ indented steps) =
        if no.isEmpty then [] else Print.lines (otherwiseHead s) ++ (Print.lines steps).map (Line.shift 1) := by
  obtain ⟨hd, hhead⟩ := (Inline.otherwiseHead s).newline
  split
  · exact ⟨_, .nil, rfl⟩
  · refine ⟨_, hhead.append h.indented, ?_⟩
    rw [hhead.lines_append h.indented, h.lines_indented, lines_otherwiseHead]

end Emit

/-! ### What cannot fail -/

variable (style : Style)

mutual

/-- A term without unknown operators is written as a fragment. -/
theorem Term.inline (top : Bool) : ∀ t : Term, Known t.nodes →
    ∃ steps, Emit.term style top t = .ok steps ∧ Inline steps
  | .var n name, _ => ⟨_, rfl, .part name n.span⟩
  | .lit n v, _ => ⟨_, rfl, .part _ n.span⟩
  | .external n _ name, _ => ⟨_, rfl, .part name n.span⟩
  | .array n ts, h => by
      obtain ⟨steps, hsteps, hi⟩ := Term.inline_all ts (known_cons.mp h).2
      refine ⟨_, by rw [Emit.term, hsteps]; rfl, ?_⟩
      exact ((Inline.part _ n.span).append hi).append (.part _ n.span)
  | .map n es, h => by
      obtain ⟨steps, hsteps, hi⟩ := Term.inline_entries n.span es (known_cons.mp h).2
      refine ⟨_, by rw [Emit.term, hsteps]; rfl, ?_⟩
      exact ((Inline.part _ n.span).append hi).append (.part _ n.span)
  | .prop n r name, h => by
      obtain ⟨steps, hsteps, hi⟩ := Term.inline false r (known_cons.mp h).2
      refine ⟨_, by rw [Emit.term, hsteps]; rfl, ?_⟩
      exact hi.append (.cons _ n.span (.part name n.span))
  | .key n r i, h => by
      obtain ⟨hr, hi⟩ := known_append.mp (known_cons.mp h).2
      obtain ⟨steps, hsteps, hin⟩ := Term.inline false r hr
      obtain ⟨steps', hsteps', hin'⟩ := Term.inline false i hi
      refine ⟨_, by rw [Emit.term, hsteps, hsteps']; rfl, ?_⟩
      exact ((hin.append (.part _ n.span)).append hin').append (.part _ n.span)
  | .call n f ts p, h => by
      obtain ⟨hf, hts⟩ := known_append.mp (known_cons.mp h).2
      obtain ⟨steps, hsteps, hin⟩ := Term.inline false f hf
      obtain ⟨steps', hsteps', hin'⟩ := Term.inline_all ts hts
      refine ⟨_, by rw [Emit.term, hsteps, hsteps']; rfl, ?_⟩
      exact (((hin.parens _ f.span).append (.part _ n.span)).append hin').append (.part _ n.span)
  | .binary n o l r, h => by
      obtain ⟨ho, hlr⟩ := known_cons.mp h
      obtain ⟨hl, hr⟩ := known_append.mp hlr
      obtain ⟨steps, hsteps, hin⟩ := Term.inline false l hl
      obtain ⟨steps', hsteps', hin'⟩ := Term.inline false r hr
      have hknown : o.text? = some (o.text?.getD []) := by
        cases o <;> first | rfl | cases ho
      refine ⟨_, by rw [Emit.term, hknown, hsteps, hsteps']; rfl, ?_⟩
      exact .parens _ n.span ((hin.append (.part _ n.span)).append hin')
  | .not n a, h => by
      obtain ⟨steps, hsteps, hi⟩ := Term.inline false a (known_cons.mp h).2
      exact ⟨_, by rw [Emit.term, hsteps]; rfl, (Inline.part _ n.span).append hi⟩
  | .present n a, h => by
      obtain ⟨steps, hsteps, hi⟩ := Term.inline false a (known_cons.mp h).2
      exact ⟨_, by rw [Emit.term, hsteps]; rfl, hi.append (.part _ n.span)⟩
  | .cast n a, h => by
      obtain ⟨steps, hsteps, hi⟩ := Term.inline false a (known_cons.mp h).2
      exact ⟨_, by rw [Emit.term, hsteps]; rfl, ((Inline.part _ n.span).append hi).append (.part _ n.span)⟩
  | .cond n c y none, h => by
      obtain ⟨hc, hy⟩ := known_append.mp (known_cons.mp h).2
      obtain ⟨steps, hsteps, hin⟩ := Term.inline false c hc
      obtain ⟨steps', hsteps', hin'⟩ := Term.inline false y hy
      refine ⟨_, by rw [Emit.term, hsteps, hsteps']; rfl, .parens _ n.span ?_⟩
      exact ((hin.append (.part _ n.span)).append hin').append (.cons _ n.span (.part _ n.span))
  | .cond n c y (some e), h => by
      obtain ⟨hc, hye⟩ := known_append.mp (known_cons.mp h).2
      obtain ⟨hy, he⟩ := known_append.mp hye
      obtain ⟨steps, hsteps, hin⟩ := Term.inline false c hc
      obtain ⟨steps', hsteps', hin'⟩ := Term.inline false y hy
      obtain ⟨steps'', hsteps'', hin''⟩ := Term.inline false e he
      refine ⟨_, by rw [Emit.term, hsteps, hsteps', hsteps'']; rfl, .parens _ n.span ?_⟩
      exact (((hin.append (.part _ n.span)).append hin').append (.part _ n.span)).append hin''
  | .function n ps body name, h => by
      obtain ⟨steps, ls, hsteps, hs⟩ := Stmt.stacks_all body (known_cons.mp h).2
      refine ⟨_, Emit.term_function top n ps name hsteps, ?_⟩
      exact (Inline.functionHead n ps name).append (.body hs n.span)
  | .pooled k literal, h => by
      obtain ⟨steps, hsteps, hi⟩ := Term.inline false literal (known_cons.mp h).2
      rw [Emit.term]
      split
      · next name _ => exact ⟨_, rfl, .part name none⟩
      · exact ⟨_, hsteps, hi⟩

theorem Term.inline_all : ∀ ts : List Term, Known (Term.nodesAll ts) →
    ∃ steps, Emit.terms style ts = .ok steps ∧ Inline steps
  | [], _ => ⟨[], rfl, .nil⟩
  | [t], h => Term.inline false t (known_append.mp h).1
  | t :: u :: ts, h => by
      obtain ⟨ht, hts⟩ := known_append.mp h
      obtain ⟨steps, hsteps, hi⟩ := Term.inline false t ht
      obtain ⟨steps', hsteps', hi'⟩ := Term.inline_all (u :: ts) hts
      refine ⟨steps ++ [.part ", " none] ++ steps', ?_, (hi.append (.part _ none)).append hi'⟩
      rw [Emit.terms, hsteps, hsteps']
      · rfl
      · exact nofun

theorem Term.inline_entries (span : Option SourceSpan) : ∀ es : List (MapKey × Term),
    Known (Term.nodesEntries es) → ∃ steps, Emit.entries style span es = .ok steps ∧ Inline steps
  | [], _ => ⟨[], rfl, .nil⟩
  | [(k, t)], h => by
      obtain ⟨steps, hsteps, hi⟩ := Term.inline false t (known_append.mp h).1
      exact ⟨_, by rw [Emit.entries, hsteps]; rfl, (Inline.part _ span).append hi⟩
  | (k, t) :: e :: es, h => by
      obtain ⟨ht, hes⟩ := known_append.mp h
      obtain ⟨steps, hsteps, hi⟩ := Term.inline false t ht
      obtain ⟨steps', hsteps', hi'⟩ := Term.inline_entries span (e :: es) hes
      refine ⟨_, by rw [Emit.entries, hsteps, hsteps']; rfl, ?_⟩
      exact (((Inline.part _ span).append hi).append (.part _ none)).append hi'

theorem Stmt.stacks : ∀ s : Stmt, Known s.nodes →
    ∃ steps ls, Emit.stmt style s = .ok steps ∧ Stacks steps ls
  | .declare s mods name none, _ => by
      obtain ⟨ls, hs⟩ := ((Inline.declaration s mods name).append (.part ";" s)).newline
      exact ⟨_, ls, by rw [Emit.stmt]; rfl, by simpa using hs⟩
  | .declare s mods name (some v), h => by
      obtain ⟨steps, hsteps, hi⟩ := Term.inline true v h
      obtain ⟨ls, hs⟩ :=
        ((((Inline.declaration s mods name).append (.part " = " s)).append hi).append (.part ";" s)).newline
      exact ⟨_, ls, by rw [Emit.stmt, hsteps]; rfl, by simpa using hs⟩
  | .function s mods name ps body, h => by
      obtain ⟨steps, ls, hsteps, hs⟩ := Stmt.stacks_all body h
      obtain ⟨_, hhead⟩ := (Inline.declarationHead s mods name ps).newline
      obtain ⟨_, hend⟩ := (Inline.bodyEnd s).newline
      exact ⟨_, _, Emit.stmt_function s mods name ps hsteps, (hhead.append hs.indented).append hend⟩
  | .expr s t, h => by
      obtain ⟨steps, hsteps, hi⟩ := Term.inline true t h
      obtain ⟨ls, hs⟩ := (hi.append (.part ";" s)).newline
      exact ⟨_, ls, by rw [Emit.stmt, hsteps]; rfl, by simpa using hs⟩
  | .ret s t, h => by
      obtain ⟨steps, hsteps, hi⟩ := Term.inline true t h
      obtain ⟨ls, hs⟩ := (((Inline.part "return " s).append hi).append (.part ";" s)).newline
      exact ⟨_, ls, by rw [Emit.stmt, hsteps]; rfl, by simpa using hs⟩
  | .branch s c yes no, h => by
      obtain ⟨hc, hbodies⟩ := known_append.mp h
      obtain ⟨hyes, hno⟩ := known_append.mp hbodies
      obtain ⟨steps, hsteps, hi⟩ := Term.inline true c hc
      obtain ⟨steps', ls, hsteps', hs⟩ := Stmt.stacks_all yes hyes
      obtain ⟨steps'', ms, hsteps'', hs'⟩ := Stmt.stacks_all no hno
      obtain ⟨_, hhead⟩ := (Inline.branchHead s hi).newline
      obtain ⟨_, hother, -⟩ := Emit.stacks_otherwise s no hs'
      obtain ⟨_, hend⟩ := (Inline.bodyEnd s).newline
      exact ⟨_, _, Emit.stmt_branch s hsteps hsteps' hsteps'',
        ((hhead.append hs.indented).append hother).append hend⟩

/-- Statements without unknown operators are written as lines. -/
theorem Stmt.stacks_all : ∀ ss : List Stmt, Known (Stmt.nodesAll ss) →
    ∃ steps ls, Emit.stmts style ss = .ok steps ∧ Stacks steps ls
  | [], _ => ⟨[], [], rfl, .nil⟩
  | s :: ss, h => by
      obtain ⟨hs, hss⟩ := known_append.mp h
      obtain ⟨steps, ls, hsteps, hst⟩ := Stmt.stacks s hs
      obtain ⟨steps', ls', hsteps', hst'⟩ := Stmt.stacks_all ss hss
      exact ⟨_, _, by rw [Emit.stmts, hsteps, hsteps']; rfl, hst.append hst'⟩

end

variable {style}

/-! ### Text -/

theorem Text.join_singleton (sep t : Text) : Text.join sep [t] = t := by simp [Text.join]

theorem Text.join_append_cons (sep t u : Text) (us : List Text) :
    Text.join sep ((t ++ u) :: us) = t ++ Text.join sep (u :: us) := by
  cases us <;> simp [Text.join]

theorem Text.join_concat_append (sep t u : Text) (us : List Text) :
    Text.join sep (us ++ [t ++ u]) = Text.join sep (us ++ [t]) ++ u := by
  induction us with
  | nil => simp [Text.join]
  | cons v vs ih =>
      have hcons : ∀ w : Text, Text.join sep (v :: (vs ++ [w])) = v ++ sep ++ Text.join sep (vs ++ [w]) := by
        intro w
        cases vs <;> simp [Text.join]
      rw [List.cons_append, List.cons_append, hcons, hcons, ih, List.append_assoc, List.append_assoc,
        List.append_assoc]

def Print.source (steps : List Print) : Text := ((Page.start 0).run steps).source

/-- The texts of the lines of a fragment on a page of its own. -/
def Fragment.texts (f : Fragment) : List Text :=
  (Line.mk 0 f.head).body :: (f.below.reverse.map (Line.shift 0)).map Line.text

theorem Line.text_of_indent_zero (ps : List Part) : (Line.mk 0 ps).text = (Line.mk 0 ps).body := by
  cases ps <;> simp [Line.text, Line.isEmpty, Line.body, Line.parts]

theorem Line.text_addAll_part {l : Line} (h : l.printed ≠ []) (part : Part) :
    (l.addAll [part]).text = l.text ++ part.text := by
  simp [Line.text, Line.isEmpty, Line.addAll, Line.body, Line.parts, h]

theorem Draws.source {a : List Print} {f : Fragment} (h : Draws a f) (hends : f.Ends) :
    Print.source a = Text.join "\n" f.texts := by
  have hindented : (Page.start 0).Indented := rfl
  rw [Print.source, h _ hindented]
  obtain ⟨head, below⟩ := f
  cases below with
  | nil =>
      cases head with
      | nil => rfl
      | cons q qs =>
          simp [Page.paste, Page.source, Page.shown, Page.lineIsEmpty, Line.isEmpty, Line.addAll, Page.start,
            Page.lines, Fragment.texts, Line.text_of_indent_zero]
  | cons l ls =>
      have hprinted : l.printed ≠ [] := hends l rfl
      simp [Page.paste, Page.source, Page.shown, Page.lineIsEmpty, Line.isEmpty, Line.addAll, Page.start,
        Page.lines, Fragment.texts, Line.text_of_indent_zero, Line.shift, hprinted]

/-- The text in parentheses, also if it has several lines. -/
theorem Inline.source_parens {a : List Print} (h : Inline a) (span : Option SourceSpan) :
    Print.source (Emit.parens true span a) = "(" ++ Print.source a ++ ")" := by
  obtain ⟨f, hf, hends⟩ := h
  have hparens := ((Draws.part "(" span).append hf).append (.part ")" span)
  rw [Emit.parens, if_pos rfl,
    hparens.source (((Fragment.ends_part _ _).append hends).append (Fragment.ends_part _ _)), hf.source hends]
  obtain ⟨head, below⟩ := f
  have hhead : (Line.mk 0 (head ++ [⟨"(", span⟩])).body = "(" ++ (Line.mk 0 head).body := by
    simp [Line.body, Line.parts]
  cases below with
  | nil =>
      have hline : (Line.mk 0 (⟨")", span⟩ :: (head ++ [⟨"(", span⟩]))).body =
          (Line.mk 0 (head ++ [⟨"(", span⟩])).body ++ ")" := by
        simp [Line.body, Line.parts]
      change Text.join "\n" [(Line.mk 0 (⟨")", span⟩ :: (head ++ [⟨"(", span⟩]))).body] =
        "(" ++ Text.join "\n" [(Line.mk 0 head).body] ++ ")"
      rw [Text.join_singleton, Text.join_singleton, hline, hhead]
  | cons l ls =>
      have hlast : ((l.shift 0).addAll [⟨")", span⟩]).text = (l.shift 0).text ++ ")" :=
        Line.text_addAll_part (l := l.shift 0) (hends l rfl) ⟨")", span⟩
      change Text.join "\n" ((Line.mk 0 (head ++ [⟨"(", span⟩])).body ::
          (((l.addAll [⟨")", span⟩] :: ls).reverse.map (Line.shift 0)).map Line.text)) =
        "(" ++ Text.join "\n" ((Line.mk 0 head).body ::
          (((l :: ls).reverse.map (Line.shift 0)).map Line.text)) ++ ")"
      simp only [List.reverse_cons, List.map_append, List.map_cons, List.map_nil, Line.shift_addAll]
      rw [hhead, hlast, Text.join_append_cons, ← List.cons_append, ← List.cons_append,
        Text.join_concat_append, List.append_assoc]

/-! ### Operands -/

def Term.isOperation : Term → Bool
  | .binary .. | .cond .. => true
  | _ => false

/-- Where a term is not the whole of a statement, an operation or a conditional is in parentheses. -/
theorem Emit.term_false {e : Term} {alone : List Print} (h : term style true e = .ok alone) :
    term style false e = .ok (parens e.isOperation e.span alone) := by
  cases e with
  | binary n o l r =>
      rw [term] at h ⊢
      split at h
      · cases h
      · next t ht =>
          obtain ⟨left, hl, h⟩ := except_bind_ok.mp h
          obtain ⟨right, hr, h⟩ := except_bind_ok.mp h
          cases h
          rw [hl, hr]
          rfl
  | cond n c y no =>
      cases no with
      | none =>
          rw [term] at h ⊢
          obtain ⟨front, hc, h⟩ := except_bind_ok.mp h
          obtain ⟨middle, hy, h⟩ := except_bind_ok.mp h
          cases h
          rw [hc, hy]
          rfl
      | some e =>
          rw [term] at h ⊢
          obtain ⟨front, hc, h⟩ := except_bind_ok.mp h
          obtain ⟨middle, hy, h⟩ := except_bind_ok.mp h
          obtain ⟨back, he, h⟩ := except_bind_ok.mp h
          cases h
          rw [hc, hy, he]
          rfl
  | _ =>
      rw [term] at h ⊢
      exact h

/-! ### The main statement -/

/-- A page after a function literal: the lines of its body stand below what was printed before, one step
further in than the page, and the brace that closes it stands on a line of its own. -/
theorem Emit.lines_run_function {p : Page} (hp : p.Indented) (n : Note) (params : List Text) (name : Text)
    {steps : List Print} {ls : List Line} (h : Stacks steps ls) :
    (p.run (functionHead n params name ++ ([.newline] ++ indented steps ++ bodyEnd n.span))).lines =
      (p.run (functionHead n params name)).lines ++ (Print.lines steps).map (Line.shift (p.indent + 1)) ++
        [⟨p.indent, [⟨closeBrace, n.span⟩]⟩] := by
  obtain ⟨f, hf, -⟩ := Inline.functionHead n params name
  have hindent : (p.run (functionHead n params name)).indent = p.indent := by
    rw [hf p hp, Page.indent_paste]
  rw [Page.run_append, h.lines, Line.map_shift_shift, Int.zero_add]
  generalize p.run (functionHead n params name) = q at hindent
  have hq : Word.wrap q.indent = q.indent := by
    rw [hindent]
    exact hp
  rw [← hindent, Page.run_append, Page.run_append]
  change (((Page.fresh (q.current :: q.finished) q.indent).run (indented steps)).run (bodyEnd n.span)).lines = _
  rw [h.indented _ _ hq, Line.map_shift_shift, Int.add_comm 1]
  have hbrace : closeBrace ≠ [] := List.cons_ne_nil _ _
  simp [Page.run, Page.step, bodyEnd, hbrace, Page.fresh, Page.lines, Line.add]

/-- What is written in a style is put together of what its pieces are written as. -/
structure Style.Compositional (style : Style) : Prop where
  /-- Statements one after the other have the lines of all, whatever stands before them. -/
  append (xs ys : List Stmt) : Known (Stmt.nodesAll xs) → Known (Stmt.nodesAll ys) →
    ∃ ls ms, Stmt.lines style xs = .ok ls ∧ Stmt.lines style ys = .ok ms ∧
      Stmt.lines style (xs ++ ys) = .ok (ls ++ ms)
  /-- The body of a function has the lines that it has alone, one step further in. -/
  function (s : Option SourceSpan) (mods : Modifiers) (name : Text) (params : List Text) (body : List Stmt) :
    Known (Stmt.nodesAll body) → ∃ ls, Stmt.lines style body = .ok ls ∧
      Stmt.lines style [.function s mods name params body] =
        .ok (Print.lines (Emit.declarationHead s mods name params) ++ ls.map (Line.shift 1) ++
          Print.lines (Emit.bodyEnd s))
  /-- So have both bodies of a branch. -/
  branch (s : Option SourceSpan) (c : Term) (yes no : List Stmt) :
    Known c.nodes → Known (Stmt.nodesAll yes) → Known (Stmt.nodesAll no) →
      ∃ condition ls ms, Emit.term style true c = .ok condition ∧ Stmt.lines style yes = .ok ls ∧
        Stmt.lines style no = .ok ms ∧ Stmt.lines style [.branch s c yes no] =
          .ok (Print.lines (Emit.branchHead s condition) ++ ls.map (Line.shift 1) ++
            (if no.isEmpty then [] else Print.lines (Emit.otherwiseHead s) ++ ms.map (Line.shift 1)) ++
            Print.lines (Emit.bodyEnd s))
  /-- So has the body of a function literal, wherever on a page the literal stands. -/
  literal (top : Bool) (n : Note) (params : List Text) (body : List Stmt) (name : Text) (p : Page) :
    p.Indented → Known (Stmt.nodesAll body) →
      ∃ steps ls, Emit.term style top (.function n params body name) = .ok steps ∧
        Stmt.lines style body = .ok ls ∧
        (p.run steps).lines = (p.run (Emit.functionHead n params name)).lines ++
          ls.map (Line.shift (p.indent + 1)) ++ [⟨p.indent, [⟨Emit.closeBrace, n.span⟩]⟩]
  /-- An operation or a conditional that is not the whole of a statement has parentheses around it, and
  nothing else has. -/
  operand (e : Term) : Known e.nodes → ∃ alone nested, Emit.term style true e = .ok alone ∧
    Emit.term style false e = .ok nested ∧ nested = Emit.parens e.isOperation e.span alone ∧
    Print.source nested = if e.isOperation then "(" ++ Print.source alone ++ ")" else Print.source alone

/-- Emission is compositional in every style. -/
theorem Style.compositional (style : Style) : style.Compositional where
  append xs ys hxs hys := by
    obtain ⟨steps, ls, hsteps, hs⟩ := Stmt.stacks_all style xs hxs
    obtain ⟨steps', ms, hsteps', hs'⟩ := Stmt.stacks_all style ys hys
    refine ⟨_, _, Stmt.lines_of_stmts hsteps, Stmt.lines_of_stmts hsteps', ?_⟩
    rw [Stmt.lines_of_stmts (Emit.stmts_append hsteps hsteps'), hs.lines_append hs']
  function s mods name params body hbody := by
    obtain ⟨steps, ls, hsteps, hs⟩ := Stmt.stacks_all style body hbody
    obtain ⟨_, hhead⟩ := (Inline.declarationHead s mods name params).newline
    obtain ⟨_, hend⟩ := (Inline.bodyEnd s).newline
    refine ⟨_, Stmt.lines_of_stmts hsteps, ?_⟩
    rw [Stmt.lines_of_stmts (Emit.stmts_singleton (Emit.stmt_function s mods name params hsteps)),
      (hhead.append hs.indented).lines_append hend, hhead.lines_append hs.indented, hs.lines_indented,
      Emit.lines_declarationHead, Emit.lines_bodyEnd]
  branch s c yes no hc hyes hno := by
    obtain ⟨condition, hcondition, hi⟩ := Term.inline style true c hc
    obtain ⟨steps, ls, hsteps, hs⟩ := Stmt.stacks_all style yes hyes
    obtain ⟨steps', ms, hsteps', hs'⟩ := Stmt.stacks_all style no hno
    obtain ⟨_, hhead⟩ := (Inline.branchHead s hi).newline
    obtain ⟨_, hend⟩ := (Inline.bodyEnd s).newline
    obtain ⟨_, hother, hlines⟩ := Emit.stacks_otherwise s no hs'
    refine ⟨condition, _, _, hcondition, Stmt.lines_of_stmts hsteps, Stmt.lines_of_stmts hsteps', ?_⟩
    rw [Stmt.lines_of_stmts (Emit.stmts_singleton (Emit.stmt_branch s hcondition hsteps hsteps')),
      ((hhead.append hs.indented).append hother).lines_append hend,
      (hhead.append hs.indented).lines_append hother, hhead.lines_append hs.indented, hs.lines_indented,
      hlines, Emit.lines_branchHead, Emit.lines_bodyEnd]
  literal top n params body name p hp hbody := by
    obtain ⟨steps, ls, hsteps, hs⟩ := Stmt.stacks_all style body hbody
    exact ⟨_, _, Emit.term_function top n params name hsteps, Stmt.lines_of_stmts hsteps,
      Emit.lines_run_function hp n params name hs⟩
  operand e he := by
    obtain ⟨alone, halone, hi⟩ := Term.inline style true e he
    refine ⟨alone, _, halone, Emit.term_false halone, rfl, ?_⟩
    cases e.isOperation with
    | false => rfl
    | true => exact hi.source_parens e.span

namespace Sample

/-- The statement `if (a) return function() { a; };`. -/
def returning : List Stmt :=
  [.branch none (.ofVar "a") [.ret none (.function {} [] [.expr none (.ofVar "a")] [])] []]

/-- The statement `const b = a ? a : null;`. -/
def declaring : List Stmt :=
  [.declare none { final := true } "b" (some (.cond {} (.ofVar "a") (.ofVar "a") none))]

theorem compositional_returning : Known (Stmt.nodesAll returning) ∧ Known (Stmt.nodesAll declaring) ∧
    ∃ ls ms, Stmt.lines {} returning = .ok ls ∧ Stmt.lines {} declaring = .ok ms ∧
      Stmt.lines {} (returning ++ declaring) = .ok (ls ++ ms) ∧ ls.map (·.indent) = [0, 1, 2, 1, 0] := by
  have hreturning : Known (Stmt.nodesAll returning) := by decide
  have hdeclaring : Known (Stmt.nodesAll declaring) := by decide
  obtain ⟨ls, ms, hls, hms, happend⟩ :=
    (Style.compositional {}).append returning declaring hreturning hdeclaring
  refine ⟨hreturning, hdeclaring, ls, ms, hls, hms, happend, ?_⟩
  cases hls
  decide

end Sample

end TemplateCompiler
