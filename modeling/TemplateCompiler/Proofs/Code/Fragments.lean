import TemplateCompiler.Code.Emit

/-!
# What steps of printing leave on a page

Steps of printing change three things of a page: its lines, the line being written and the indentation.
Two forms of steps restore the indentation, whatever page they are carried out on:

* `Draws steps f` : the steps of an expression add the fragment `f`, that is some parts to the line they
  start on and lines below it, the last of which is being written;
* `Stacks steps ls` : the steps of statements, which start on a new line and end on one, add the lines `ls`.

Both are relative to the indentation of the page (`Line.shift`), and both are kept by putting steps one
after the other. A body stacks its lines one step further in (`Draws.body`, `Stacks.indented`).
-/

namespace TemplateCompiler

/-! ### Shifted lines -/

theorem Word.wrap_wrap_add (a b : Int) : wrap (wrap a + b) = wrap (a + b) := Int.bmod_add_bmod

theorem Word.wrap_add_wrap (a b : Int) : wrap (a + wrap b) = wrap (a + b) := Int.add_bmod_bmod

theorem Word.wrap_wrap (a : Int) : wrap (wrap a) = wrap a := Int.bmod_bmod

namespace Line

def shift (offset : Int) (l : Line) : Line := { l with indent := Word.wrap (l.indent + offset) }

/-- The line with more parts, the latest first. -/
def addAll (ps : List Part) (l : Line) : Line := { l with printed := ps ++ l.printed }

theorem shift_shift (a b : Int) (l : Line) : (l.shift a).shift b = l.shift (a + b) := by
  rw [shift, shift, shift, Word.wrap_wrap_add, Int.add_assoc]

theorem shift_wrap (a : Int) (l : Line) : l.shift (Word.wrap a) = l.shift a := by
  rw [shift, shift, Word.wrap_add_wrap]

theorem addAll_addAll (ps qs : List Part) (l : Line) : (l.addAll ps).addAll qs = l.addAll (qs ++ ps) := by
  simp [addAll]

theorem shift_addAll (a : Int) (ps : List Part) (l : Line) : (l.addAll ps).shift a = (l.shift a).addAll ps :=
  rfl

theorem map_shift_shift (a b : Int) (ls : List Line) :
    (ls.map (shift a)).map (shift b) = ls.map (shift (a + b)) := by
  rw [List.map_map]
  exact List.map_congr_left fun l _ => shift_shift a b l

end Line

/-! ### Fragments -/

/-- Parts that are added to a line, and lines below it, all of them the latest first. -/
structure Fragment where
  head : List Part := []
  below : List Line := []

namespace Fragment

def part (text : Text) (span : Option SourceSpan) : Fragment :=
  { head := if text.isEmpty then [] else [⟨text, span⟩] }

def append (f g : Fragment) : Fragment :=
  match f.below with
  | [] => ⟨g.head ++ f.head, g.below⟩
  | l :: ls => ⟨f.head, g.below ++ l.addAll g.head :: ls⟩

def lines (f : Fragment) : List Line := (f.below ++ [Line.mk 0 f.head]).reverse

/-- Lines one step further in, below the line they start on and followed by a new one. -/
def body (ls : List Line) : Fragment := { below := { indent := 0 } :: (ls.map (Line.shift 1)).reverse }

/-- Something is printed on the last line, if it is not the one that the fragment starts on. -/
def Ends (f : Fragment) : Prop := ∀ l ∈ f.below.head?, l.printed ≠ []

end Fragment

namespace Page

def fresh (finished : List Line) (indent : Int) : Page := ⟨finished, ⟨indent, []⟩, indent⟩

def paste (p : Page) (f : Fragment) : Page :=
  match f.below with
  | [] => { p with current := p.current.addAll f.head }
  | l :: ls =>
    { p with
      finished := ls.map (Line.shift p.indent) ++ p.current.addAll f.head :: p.finished
      current := l.shift p.indent }

def Indented (p : Page) : Prop := Word.wrap p.indent = p.indent

theorem indent_paste (p : Page) (f : Fragment) : (p.paste f).indent = p.indent := by
  unfold paste
  split <;> rfl

theorem Indented.paste {p : Page} (h : p.Indented) (f : Fragment) : (p.paste f).Indented := by
  rw [Indented, indent_paste]
  exact h

theorem paste_paste (p : Page) (f g : Fragment) : (p.paste f).paste g = p.paste (f.append g) := by
  obtain ⟨head, below⟩ := f
  obtain ⟨head', below'⟩ := g
  cases below <;> cases below' <;> simp [paste, Fragment.append, Line.addAll_addAll, Line.shift_addAll]

theorem run_append (p : Page) (a b : List Print) : p.run (a ++ b) = (p.run a).run b := List.foldl_append

theorem step_newline (p : Page) : p.step .newline = fresh (p.current :: p.finished) p.indent := rfl

theorem step_indent_fresh (ls : List Line) (i : Int) :
    (fresh ls i).step .indent = fresh ls (Word.wrap (i + 1)) := rfl

theorem step_dedent_fresh (ls : List Line) (i : Int) :
    (fresh ls i).step .dedent = fresh ls (Word.wrap (i - 1)) := rfl

end Page

open Page

/-! ### Steps that draw a fragment -/

def Draws (steps : List Print) (f : Fragment) : Prop := ∀ p : Page, p.Indented → p.run steps = p.paste f

/-- The steps add lines to any page that is at the start of a line. -/
def Stacks (steps : List Print) (ls : List Line) : Prop :=
  ∀ above i, Word.wrap i = i →
    (fresh above i).run steps = fresh ((ls.map (Line.shift i)).reverse ++ above) i

namespace Draws

variable {a b : List Print} {f g : Fragment}

theorem nil : Draws [] {} := fun _ _ => rfl

theorem part (text : Text) (span : Option SourceSpan) : Draws [.part text span] (.part text span) := by
  intro p _
  change p.step (.part text span) = _
  rw [Page.step, Page.paste, Fragment.part]
  split <;> rfl

theorem append (ha : Draws a f) (hb : Draws b g) : Draws (a ++ b) (f.append g) := by
  intro p hp
  rw [run_append, ha p hp, hb _ (hp.paste f), paste_paste]

/-- A fragment and the end of its line are lines. -/
theorem newline (ha : Draws a f) : Stacks (a ++ [.newline]) f.lines := by
  intro above i hi
  rw [run_append, ha (fresh above i) hi]
  obtain ⟨head, below⟩ := f
  cases below <;>
    simp [Page.run, Page.paste, Page.step_newline, Fragment.lines, fresh, Line.shift, Line.addAll, hi]

end Draws

namespace Stacks

variable {a b : List Print} {ls ms : List Line}

theorem nil : Stacks [] [] := fun _ _ _ => rfl

theorem append (ha : Stacks a ls) (hb : Stacks b ms) : Stacks (a ++ b) (ls ++ ms) := by
  intro above i hi
  rw [run_append, ha above i hi, hb _ i hi]
  simp

/-- A body stacks its lines one step further in. -/
theorem indented (ha : Stacks a ls) : Stacks (Emit.indented a) (ls.map (Line.shift 1)) := by
  intro above i hi
  have hdedent : Word.wrap (Word.wrap (i + 1) - 1) = i := by
    rw [Int.sub_eq_add_neg, Word.wrap_wrap_add, Int.add_neg_cancel_right, hi]
  rw [Emit.indented, run_append, run_append]
  change ((((fresh above i).step .indent).run a).step .dedent) = _
  rw [step_indent_fresh, ha _ _ (Word.wrap_wrap _), step_dedent_fresh, hdedent, Line.map_shift_shift,
    Int.add_comm 1]
  refine congrArg (fresh · i) (congrArg (·.reverse ++ _) (List.map_congr_left fun l _ => ?_))
  exact Line.shift_wrap (i + 1) l

end Stacks

/-- A body starts below the line it belongs to. -/
theorem Draws.body {steps : List Print} {ls : List Line} (h : Stacks steps ls) :
    Draws ([.newline] ++ Emit.indented steps) (.body ls) := by
  intro p hp
  rw [run_append]
  change (fresh (p.current :: p.finished) p.indent).run _ = _
  rw [h.indented _ _ hp, paste]
  have hindent : Word.wrap p.indent = p.indent := hp
  simp [Fragment.body, fresh, Line.shift, Line.addAll, hindent]

end TemplateCompiler
