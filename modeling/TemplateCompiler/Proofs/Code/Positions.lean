import TemplateCompiler.Proofs.Code.Fragments

/-!
# The source of a printed column

A page keeps the parts that were printed on each line and finds the source of a column by counting over
them. `Print.rows` says what is printed without parts and without counting: every byte is printed with the
source of its part (`Ink`), and a row has the indentation at which the first byte was printed on it.

* `Page.rows_run` : the lines of a page are the rows of the steps that were carried out on it;
* `Line.spanAt_eq` : a look-up on a line finds what stands in that column of its row;
* `Page.positions_agree` : the text that a page is written as, its look-ups and the length of its last line
  agree about every column.
-/

namespace TemplateCompiler

/-! ### Rows of bytes -/

/-- A printed byte with the source it was made from. -/
structure Ink where
  byte : UInt8
  span : Option SourceSpan
  deriving DecidableEq, Repr

/-- The bytes printed on a line, and the indentation when the first of them was printed. -/
structure Row where
  indent : Int
  inks : List Ink
  deriving DecidableEq, Repr

namespace Row

/-- What stands in the columns of a row. The indentation has the source of the first byte behind it, and a
row without bytes has no columns. -/
def columns (r : Row) : List Ink :=
  match r.inks with
  | [] => []
  | ink :: inks => List.replicate (2 * r.indent.toNat) ⟨' '.toUInt8, ink.span⟩ ++ ink :: inks

def text (r : Row) : Text := r.columns.map Ink.byte

end Row

def Part.inks (p : Part) : List Ink := p.text.map (⟨·, p.span⟩)

namespace Print

/-- The row that steps start on at an indentation, and those below it. -/
def rowsFrom (indent : Int) : List Print → Row × List Row
  | [] => (⟨indent, []⟩, [])
  | .part text span :: steps =>
    let (first, below) := rowsFrom indent steps
    if text.isEmpty then (first, below)
    else (⟨indent, (Part.mk text span).inks ++ first.inks⟩, below)
  | .newline :: steps =>
    let (first, below) := rowsFrom indent steps
    (⟨indent, []⟩, first :: below)
  | .indent :: steps => rowsFrom (indent + 1) steps
  | .dedent :: steps => rowsFrom (indent - 1) steps

def text : Print → Text
  | .part text _ => text
  | _ => []

def rows (indent : Int) (steps : List Print) : List Row :=
  (rowsFrom indent steps).1 :: (rowsFrom indent steps).2

theorem rows_part (indent : Int) (text : Text) (span : Option SourceSpan) (steps : List Print) :
    rows indent (.part text span :: steps) =
      if text.isEmpty then rows indent steps
      else ⟨indent, (Part.mk text span).inks ++ (rowsFrom indent steps).1.inks⟩ ::
        (rowsFrom indent steps).2 := by
  cases h : text.isEmpty <;> simp [rows, rowsFrom, h]

end Print

/-! ### Lines -/

namespace Line

def row (l : Line) : Row := ⟨l.indent, l.parts.flatMap Part.inks⟩

/-- A line as printing leaves it: it does not start to the left of the page, and no part is empty. -/
structure Tidy (l : Line) : Prop where
  onPage : 0 ≤ l.indent
  inked : ∀ q ∈ l.parts, q.text ≠ []

theorem tidy_blank {indent : Int} (h : 0 ≤ indent) : Tidy ⟨indent, []⟩ where
  onPage := h
  inked _ hq := absurd hq List.not_mem_nil

variable {l : Line}

theorem Tidy.add (h : l.Tidy) {part : Part} (hpart : part.text ≠ []) : (l.add part).Tidy where
  onPage := h.onPage
  inked q hq := by
    have hq : q ∈ l.parts ∨ q = part := by simpa [parts, Line.add, or_comm] using hq
    rcases hq with hq | rfl
    · exact h.inked q hq
    · exact hpart

theorem row_add (l : Line) (part : Part) : (l.add part).row = ⟨l.indent, l.row.inks ++ part.inks⟩ := by
  simp [row, parts, add]

/-- The parts of a line that is not empty, the first one apart. -/
theorem Tidy.cases (h : l.Tidy) : l.isEmpty = true ∧ l.parts = [] ∨
    l.isEmpty = false ∧ ∃ b t span qs, l.parts = ⟨b :: t, span⟩ :: qs := by
  cases hparts : l.parts with
  | nil => exact .inl ⟨by simpa [parts, isEmpty] using hparts, rfl⟩
  | cons q qs =>
      have hprinted : l.isEmpty = false := by
        cases hprinted : l.printed with
        | nil => simp [parts, hprinted] at hparts
        | cons => simp [isEmpty, hprinted]
      obtain ⟨text, span⟩ := q
      cases text with
      | nil => exact absurd rfl (h.inked ⟨[], span⟩ (by simp [hparts]))
      | cons b t => exact .inr ⟨hprinted, b, t, span, qs, rfl⟩

theorem columns_of_parts {b : UInt8} {t : Text} {span : Option SourceSpan} {qs : List Part}
    (h : l.parts = ⟨b :: t, span⟩ :: qs) : l.row.columns =
      List.replicate (2 * l.indent.toNat) ⟨' '.toUInt8, span⟩ ++ l.parts.flatMap Part.inks := by
  rw [Row.columns, row, h]
  rfl

theorem body_eq (l : Line) : l.body = (l.parts.flatMap Part.inks).map Ink.byte := by
  have hpart : ∀ q : Part, q.inks.map Ink.byte = q.text := fun q => by simp [Part.inks, Function.comp_def]
  rw [List.map_flatMap, body]
  exact congrArg (l.parts.flatMap ·) (funext fun q => (hpart q).symm)

theorem Tidy.text_eq (h : l.Tidy) : l.text = l.row.text := by
  rw [Line.text, Row.text]
  rcases h.cases with ⟨hempty, hparts⟩ | ⟨hempty, b, t, span, qs, hparts⟩
  · rw [if_pos hempty, Row.columns, row, hparts]
    rfl
  · rw [if_neg (by simp [hempty]), columns_of_parts hparts, List.map_append, List.map_replicate, body_eq]

/-- Counting over parts finds the source of the byte. -/
theorem partAt_eq (qs : List Part) (c : Nat) :
    partAt c qs = ((qs.flatMap Part.inks)[c]?).bind Ink.span := by
  induction qs generalizing c with
  | nil => rfl
  | cons q qs ih =>
      have hlength : q.inks.length = q.text.length := List.length_map _
      rw [partAt, List.flatMap_cons]
      by_cases hc : c < q.text.length
      · rw [if_pos (by omega), List.getElem?_append_left (by omega), Part.inks, List.getElem?_map,
          List.getElem?_eq_getElem hc]
        rfl
      · have hrest : (c : Int) - q.text.length = (c - q.text.length : Nat) := by omega
        rw [if_neg (by omega), hrest, ih, List.getElem?_append_right (by omega), hlength]

/-- A look-up finds what stands in the column. -/
theorem Tidy.spanAt_eq (h : l.Tidy) (hfit : (l.row.columns.length : Int) ≤ Word.largest) {c : Nat}
    (hc : (c : Int) ≤ Word.largest) : l.spanAt c = (l.row.columns[c]?).bind Ink.span := by
  rw [spanAt]
  rcases h.cases with ⟨-, hparts⟩ | ⟨-, b, t, span, qs, hparts⟩
  · rw [Row.columns, row, hparts]
    rfl
  · have hindent := h.onPage
    rw [columns_of_parts hparts, List.length_append, List.length_replicate] at hfit
    have hwrap : Word.wrap (c - l.indent * 2) = c - l.indent * 2 :=
      Word.wrap_eq_self (by simp only [Word.smallest, Word.largest] at *; omega) (by omega)
    rw [hwrap, columns_of_parts hparts]
    by_cases hinside : c < 2 * l.indent.toNat
    · rw [List.getElem?_append_left (by simpa using hinside), List.getElem?_replicate, if_pos hinside,
        hparts, partAt, if_pos (by simp only [List.length_cons]; omega)]
      rfl
    · have hrest : (c : Int) - l.indent * 2 = (c - 2 * l.indent.toNat : Nat) := by omega
      rw [List.getElem?_append_right (by simpa using hinside), List.length_replicate, hrest, partAt_eq]

theorem Tidy.length_eq (h : l.Tidy) (hempty : l.isEmpty = false)
    (hfit : (l.row.columns.length : Int) ≤ Word.largest) : l.length = l.row.text.length := by
  rcases h.cases with ⟨hempty', -⟩ | ⟨-, b, t, span, qs, hparts⟩
  · rw [hempty] at hempty'
    cases hempty'
  · have hindent := h.onPage
    have hcolumns : l.row.columns.length = 2 * l.indent.toNat + l.body.length := by
      rw [columns_of_parts hparts, List.length_append, List.length_replicate, body_eq, List.length_map]
    rw [Row.text, List.length_map, length, hcolumns]
    rw [hcolumns] at hfit
    rw [Word.wrap_eq_self (by simp only [Word.smallest] at *; omega) (by omega)]
    omega

theorem Tidy.fault?_eq_none (h : l.Tidy) (hfit : (l.row.columns.length : Int) ≤ Word.largest) :
    l.fault? = none := by
  rw [fault?]
  rcases h.cases with ⟨hempty, -⟩ | ⟨hempty, b, t, span, qs, hparts⟩
  · rw [if_pos hempty]
  · have hindent := h.onPage
    rw [columns_of_parts hparts, List.length_append, List.length_replicate] at hfit
    rw [if_neg (by simp [hempty]), if_neg (by omega), if_neg (by omega)]

end Line

/-! ### Pages -/

theorem Word.wrap_le_largest (n : Int) : Word.wrap n ≤ Word.largest := by
  have h : Word.wrap n < (Word.count + 1) / 2 := Int.bmod_lt (by decide)
  simp only [Word.count, Word.largest] at *
  omega

namespace Page

/-- A page as printing leaves it while the indentation is a word and not negative. -/
structure Tidy (p : Page) : Prop where
  lines : ∀ l ∈ p.lines, l.Tidy
  /-- A line with nothing on it follows the indentation. -/
  follows : p.lineIsEmpty = true → p.current.indent = p.indent
  indent_nonneg : 0 ≤ p.indent
  indent_le : p.indent ≤ Word.largest

theorem mem_lines {p : Page} {l : Line} : l ∈ p.lines ↔ l = p.current ∨ l ∈ p.finished := by
  rw [lines, List.mem_reverse, List.mem_cons]

theorem tidy_start {n : Int} (h : 0 ≤ n) (h' : n ≤ Word.largest) : (start n).Tidy where
  lines l hl := by
    obtain rfl : l = ⟨n, []⟩ := by simpa [start, Page.lines] using hl
    exact Line.tidy_blank h
  follows _ := rfl
  indent_nonneg := h
  indent_le := h'

/-- A page stays tidy while the indentation does not become negative. -/
theorem Tidy.step {p : Page} (h : p.Tidy) {s : Print} (hs : 0 ≤ (p.step s).indent) :
    (p.step s).Tidy := by
  have hcurrent : p.current.Tidy := h.lines _ (mem_lines.mpr (.inl rfl))
  have hfinished : ∀ l ∈ p.finished, l.Tidy := fun l hl => h.lines l (mem_lines.mpr (.inr hl))
  have hset : ∀ {i : Int}, 0 ≤ i → i ≤ Word.largest → (p.setIndent i).Tidy := by
    intro i hi hi'
    refine ⟨fun l hl => ?_, fun hempty => ?_, hi, hi'⟩
    · rcases mem_lines.mp hl with rfl | hl
      · rw [setIndent]
        split
        · exact Line.tidy_blank hi
        · exact hcurrent
      · exact hfinished l hl
    · rw [setIndent] at hempty ⊢
      split
      · rfl
      · next hp =>
          rw [lineIsEmpty, if_neg hp] at hempty
          exact absurd hempty hp
  cases s with
  | part text span =>
      rw [Page.step]
      split
      · exact h
      · next htext =>
          have htext : text ≠ [] := by simpa using htext
          refine ⟨fun l hl => ?_, by rintro ⟨⟩, h.indent_nonneg, h.indent_le⟩
          rcases mem_lines.mp hl with rfl | hl
          · exact hcurrent.add htext
          · exact hfinished l hl
  | newline =>
      refine ⟨fun l hl => ?_, fun _ => rfl, h.indent_nonneg, h.indent_le⟩
      rcases mem_lines.mp hl with rfl | hl
      · exact Line.tidy_blank h.indent_nonneg
      · rcases List.mem_cons.mp hl with rfl | hl
        · exact hcurrent
        · exact hfinished l hl
  | indent => exact hset hs (Word.wrap_le_largest _)
  | dedent => exact hset hs (Word.wrap_le_largest _)

/-- The indentation is not negative at any point while the steps are carried out. -/
def Level (p : Page) (steps : List Print) : Prop := ∀ front, front <+: steps → 0 ≤ (p.run front).indent

theorem level_nil {p : Page} : p.Level [] ↔ 0 ≤ p.indent := by
  simp [Level, run]

theorem level_cons {p : Page} {s : Print} {steps : List Print} :
    p.Level (s :: steps) ↔ 0 ≤ p.indent ∧ (p.step s).Level steps := by
  constructor
  · intro h
    exact ⟨h [] List.nil_prefix, fun front hfront => h (s :: front) ((List.prefix_cons_inj s).mpr hfront)⟩
  · rintro ⟨hindent, hlevel⟩ front hfront
    rcases List.prefix_cons_iff.mp hfront with rfl | ⟨rest, rfl, hrest⟩
    · exact hindent
    · exact hlevel rest hrest

instance Level.decidable : ∀ (p : Page) (steps : List Print), Decidable (p.Level steps)
  | _, [] => decidable_of_iff _ level_nil.symm
  | p, s :: steps =>
    have := Level.decidable (p.step s) steps
    decidable_of_iff _ level_cons.symm

theorem Level.indent_nonneg {p : Page} {steps : List Print} (h : p.Level steps) : 0 ≤ p.indent :=
  h [] List.nil_prefix

theorem Tidy.run {p : Page} (h : p.Tidy) {steps : List Print} (hlevel : p.Level steps) :
    (p.run steps).Tidy := by
  induction steps generalizing p with
  | nil => exact h
  | cons s steps ih =>
      obtain ⟨-, hlevel⟩ := level_cons.mp hlevel
      exact ih (h.step hlevel.indent_nonneg) hlevel

def continued (l : Line) (first : Row) : Row :=
  if l.isEmpty then first else ⟨l.indent, l.row.inks ++ first.inks⟩

theorem continued_of_isEmpty {l : Line} (h : l.isEmpty = true) (first : Row) : continued l first = first :=
  if_pos h

theorem continued_of_not_isEmpty {l : Line} (h : l.isEmpty = false) (first : Row) :
    continued l first = ⟨l.indent, l.row.inks ++ first.inks⟩ :=
  if_neg (by simp [h])

theorem row_of_isEmpty {l : Line} (h : l.isEmpty = true) : l.row = ⟨l.indent, []⟩ := by
  have hprinted : l.printed = [] := by simpa [Line.isEmpty] using h
  simp [Line.row, Line.parts, hprinted]

/-- A line that is not gone on with shows its own row. -/
theorem Tidy.continued_nil {p : Page} (h : p.Tidy) :
    continued p.current ⟨p.indent, []⟩ = p.current.row := by
  cases hempty : p.current.isEmpty with
  | true => rw [continued_of_isEmpty hempty, row_of_isEmpty hempty, h.follows hempty]
  | false => rw [continued_of_not_isEmpty hempty, List.append_nil]; rfl

/-- Going on with a line at the indentation of the page. -/
theorem Tidy.continued_part {p : Page} (h : p.Tidy) (part : Part) (first : Row) :
    continued (p.current.add part) first =
      continued p.current ⟨p.indent, part.inks ++ first.inks⟩ := by
  rw [continued_of_not_isEmpty rfl, Line.row_add]
  cases hempty : p.current.isEmpty with
  | true => rw [continued_of_isEmpty hempty, row_of_isEmpty hempty, ← h.follows hempty]; rfl
  | false => rw [continued_of_not_isEmpty hempty, List.append_assoc]; rfl

/-- A change of the indentation leaves the row of the current line to what is printed next. -/
theorem continued_setIndent (p : Page) (i : Int) (first : Row) :
    continued (p.setIndent i).current first = continued p.current first := by
  rw [setIndent, lineIsEmpty]
  cases hempty : p.current.isEmpty with
  | true => rw [if_pos rfl, continued_of_isEmpty rfl, continued_of_isEmpty hempty]
  | false => rw [if_neg Bool.false_ne_true]

/-- A word that is not negative after a step to either side did not wrap. -/
theorem Tidy.wrap_indent {p : Page} (h : p.Tidy) {offset : Int} (hoffset : offset = 1 ∨ offset = -1)
    (hnonneg : 0 ≤ Word.wrap (p.indent + offset)) : Word.wrap (p.indent + offset) = p.indent + offset := by
  have hindent := h.indent_nonneg
  have hle := h.indent_le
  by_cases htop : p.indent + offset ≤ Word.largest
  · exact Word.wrap_eq_self (by simp only [Word.smallest]; omega) htop
  · have hmax : p.indent + offset = Word.largest + 1 := by omega
    rw [hmax] at hnonneg
    exact absurd hnonneg (by decide)

/-- The lines of a page are those it had and the rows of the steps. -/
theorem map_row_lines_run {p : Page} (h : p.Tidy) {steps : List Print} (hlevel : p.Level steps) :
    (p.run steps).lines.map Line.row = p.finished.reverse.map Line.row
      ++ continued p.current (Print.rowsFrom p.indent steps).1 :: (Print.rowsFrom p.indent steps).2 := by
  induction steps generalizing p with
  | nil =>
      simp [run, lines, Print.rowsFrom, h.continued_nil]
  | cons s steps ih =>
      obtain ⟨-, hlevel⟩ := level_cons.mp hlevel
      have hstep := hlevel.indent_nonneg
      have hrun := ih (h.step hstep) hlevel
      change ((p.step s).run steps).lines.map Line.row = _
      rw [hrun]
      cases s with
      | part text span =>
          rw [Print.rowsFrom, Page.step]
          split
          · rfl
          · exact congrArg (_ ++ · :: _) (h.continued_part ⟨text, span⟩ _)
      | newline =>
          rw [Print.rowsFrom]
          dsimp only
          rw [h.continued_nil]
          have hfresh : (Line.mk p.indent []).isEmpty = true := rfl
          simp [Page.step, continued_of_isEmpty hfresh]
      | indent =>
          have hwrap := h.wrap_indent (.inl rfl) hstep
          rw [Print.rowsFrom, Page.step]
          change _ ++ continued (p.setIndent _).current (Print.rowsFrom (Word.wrap (p.indent + 1)) steps).1 ::
            (Print.rowsFrom (Word.wrap (p.indent + 1)) steps).2 = _
          rw [continued_setIndent, hwrap]
          rfl
      | dedent =>
          have hwrap := h.wrap_indent (.inr rfl) hstep
          rw [Print.rowsFrom, Page.step]
          change _ ++ continued (p.setIndent _).current (Print.rowsFrom (Word.wrap (p.indent + -1)) steps).1 ::
            (Print.rowsFrom (Word.wrap (p.indent + -1)) steps).2 = _
          rw [continued_setIndent, hwrap]
          rfl

/-- The lines of a page are the rows of the steps that were carried out on it. -/
theorem rows_run {n : Int} (hn : n ≤ Word.largest) {steps : List Print} (hlevel : (start n).Level steps) :
    ((start n).run steps).lines.map Line.row = Print.rows n steps := by
  have hstart : (start n).Tidy := tidy_start hlevel.indent_nonneg hn
  rw [map_row_lines_run hstart hlevel]
  rfl

end Page

/-! ### Texts of several lines -/

namespace Text

variable {sep : UInt8}

theorem splitOn_of_notMem {t : Text} (h : sep ∉ t) : t.splitOn sep = [t] := by
  induction t with
  | nil => rfl
  | cons b t ih =>
      obtain ⟨hb, ht⟩ := not_or.mp (mt List.mem_cons.mpr h)
      rw [splitOn, ih ht]
      simp [Ne.symm hb]

theorem splitOn_ne_nil (sep : UInt8) (t : Text) : t.splitOn sep ≠ [] := by
  cases t with
  | nil => exact List.cons_ne_nil _ _
  | cons b r =>
      rw [splitOn]
      split
      · exact List.cons_ne_nil _ _
      · split <;> exact List.cons_ne_nil _ _

theorem splitOn_append_cons {t : Text} (h : sep ∉ t) (r : Text) :
    splitOn sep (t ++ sep :: r) = t :: splitOn sep r := by
  induction t with
  | nil =>
      obtain ⟨p, ps, hr⟩ := List.exists_cons_of_ne_nil (splitOn_ne_nil sep r)
      simp [splitOn, hr]
  | cons b t ih =>
      obtain ⟨hb, ht⟩ := not_or.mp (mt List.mem_cons.mpr h)
      rw [List.cons_append, splitOn, ih ht]
      simp [Ne.symm hb]

/-- Lines that were joined are told apart again. -/
theorem splitOn_join {ts : List Text} (hne : ts ≠ []) (h : ∀ t ∈ ts, sep ∉ t) :
    splitOn sep (join [sep] ts) = ts := by
  induction ts with
  | nil => exact absurd rfl hne
  | cons t ts ih =>
      obtain ⟨ht, hts⟩ := List.forall_mem_cons.mp h
      cases ts with
      | nil => simpa [join] using splitOn_of_notMem ht
      | cons u us =>
          have hjoin : join [sep] (t :: u :: us) = t ++ sep :: join [sep] (u :: us) := by simp [join]
          rw [hjoin, splitOn_append_cons ht, ih (List.cons_ne_nil u us) hts]

end Text

/-! ### Pages as texts -/

theorem Print.exists_text_of_mem_rows {steps : List Print} {row : Row} {ink : Ink} (hink : ink ∈ row.inks) :
    ∀ {indent : Int}, row ∈ Print.rows indent steps → ∃ s ∈ steps, ink.byte ∈ s.text := by
  induction steps generalizing row with
  | nil =>
      intro indent hrow
      obtain rfl : row = ⟨indent, []⟩ := by simpa [rows, rowsFrom] using hrow
      cases hink
  | cons s steps ih =>
      have hbelow : ∀ {row : Row} {indent : Int}, ink ∈ row.inks → row ∈ Print.rows indent steps →
          ∃ s' ∈ s :: steps, ink.byte ∈ s'.text := by
        intro row indent hink hrow
        obtain ⟨s', hs', hbyte⟩ := ih hink hrow
        exact ⟨s', List.mem_cons_of_mem s hs', hbyte⟩
      intro indent hrow
      cases s with
      | part text span =>
          rw [rows_part] at hrow
          split at hrow
          · exact hbelow hink hrow
          · rcases List.mem_cons.mp hrow with rfl | hrow
            · rcases List.mem_append.mp hink with hink | hink
              · obtain ⟨b, hb, rfl⟩ := List.mem_map.mp hink
                exact ⟨_, List.mem_cons_self, hb⟩
              · exact hbelow hink List.mem_cons_self
            · exact hbelow hink (List.mem_cons_of_mem _ hrow)
      | newline =>
          rw [rows, rowsFrom] at hrow
          rcases List.mem_cons.mp hrow with rfl | hrow
          · cases hink
          · exact hbelow hink hrow
      | indent => exact hbelow hink hrow
      | dedent => exact hbelow hink hrow

/-- A row has no bytes but blanks and those printed on it. -/
theorem Row.notMem_text {row : Row} {b : UInt8} (hb : b ≠ ' '.toUInt8) (h : ∀ ink ∈ row.inks, ink.byte ≠ b) :
    b ∉ row.text := by
  intro hmem
  obtain ⟨ink, hink, rfl⟩ := List.mem_map.mp hmem
  rw [Row.columns] at hink
  split at hink
  · cases hink
  · next first inks hinks =>
      rcases List.mem_append.mp hink with hink | hink
      · obtain ⟨-, rfl⟩ := List.mem_replicate.mp hink
        exact hb rfl
      · exact h ink (hinks ▸ hink) rfl

namespace Page

/-- Going back to a line on which something is printed does not change what is written. -/
theorem shown_removeEmptyLast {p : Page} (h : ∀ l ∈ p.finished.head?, l.isEmpty = false) :
    p.removeEmptyLast.shown = p.shown := by
  obtain ⟨finished, current, indent⟩ := p
  cases finished with
  | nil => cases hempty : current.isEmpty <;> simp [removeEmptyLast, lineIsEmpty, hempty]
  | cons l ls =>
      have hl : l.isEmpty = false := h l rfl
      cases hempty : current.isEmpty <;> simp [removeEmptyLast, lineIsEmpty, shown, lines, hempty, hl]

/-- The lines of the written text are those of the page, but for a last one with nothing on it. -/
theorem splitOn_source {p : Page} (h : ∀ l ∈ p.lines, '\n'.toUInt8 ∉ l.text) :
    p.source.splitOn '\n'.toUInt8 <+: p.lines.map Line.text ∧
      (p.lineIsEmpty = false → p.source.splitOn '\n'.toUInt8 = p.lines.map Line.text) := by
  have hsplit : ∀ ls : List Line, ls ≠ [] → (∀ l ∈ ls, l ∈ p.lines) →
      (Text.join "\n" (ls.map Line.text)).splitOn '\n'.toUInt8 = ls.map Line.text := by
    intro ls hne hls
    refine Text.splitOn_join (by simpa using hne) fun t ht => ?_
    obtain ⟨l, hl, rfl⟩ := List.mem_map.mp ht
    exact h l (hls l hl)
  have hlines : p.lines = p.finished.reverse ++ [p.current] := by simp [lines]
  rw [source, shown]
  cases hempty : p.lineIsEmpty with
  | false =>
      have hall := hsplit p.lines (by simp [lines]) fun _ hl => hl
      rw [if_neg Bool.false_ne_true, hall]
      exact ⟨List.prefix_rfl, fun _ => rfl⟩
  | true =>
      refine ⟨?_, nofun⟩
      rw [if_pos rfl]
      cases hfinished : p.finished.reverse with
      | nil =>
          have htext : p.current.text = [] := if_pos hempty
          rw [hlines, hfinished]
          simp [Text.join, Text.splitOn, htext]
      | cons l ls =>
          rw [← hfinished, hsplit _ (by simp [hfinished]) fun l hl => by simp [hlines, List.mem_reverse.mp hl],
            hlines, List.map_append]
          exact List.prefix_append _ _

/-- The written text, the look-ups and the length of the last line agree. On a page whose indentation is never
negative, without line breaks in the printed texts and with lines that are not longer than the largest word:

* the page can be written, and each line of its text is the row of bytes that the steps print there;
* a look-up finds the source of the part that printed the byte in a column, that of the first part in the
  indentation, and none from the end of the line on;
* the length of the line being written is its length in the text, if something is printed on it. -/
theorem positions_agree {n : Int} (hn : n ≤ Word.largest) {steps : List Print}
    (hlevel : (start n).Level steps) (hbreak : ∀ s ∈ steps, '\n'.toUInt8 ∉ s.text)
    (hfit : ∀ row ∈ Print.rows n steps, (row.columns.length : Int) ≤ Word.largest) :
    ∃ text, ((start n).run steps).written = .ok text ∧
      (∀ i line, (text.splitOn '\n'.toUInt8)[i]? = some line →
        ∃ row, (Print.rows n steps)[i]? = some row ∧ line = row.text ∧
          ∀ c : Nat, (c : Int) ≤ Word.largest →
            ((start n).run steps).spanAt i c = (row.columns[c]?).bind Ink.span) ∧
      (((start n).run steps).lineIsEmpty = false →
        ∃ line, (text.splitOn '\n'.toUInt8).getLast? = some line ∧
          ((start n).run steps).current.length = line.length) := by
  have htidy : ((start n).run steps).Tidy := (tidy_start hlevel.indent_nonneg hn).run hlevel
  have hrows := rows_run hn hlevel
  generalize (start n).run steps = p at htidy hrows ⊢
  have hrow : ∀ l ∈ p.lines, l.row ∈ Print.rows n steps := fun l hl => hrows ▸ List.mem_map_of_mem hl
  have hline : ∀ l ∈ p.lines, l.Tidy ∧ (l.row.columns.length : Int) ≤ Word.largest :=
    fun l hl => ⟨htidy.lines l hl, hfit _ (hrow l hl)⟩
  have hflat : ∀ l ∈ p.lines, '\n'.toUInt8 ∉ l.text := by
    intro l hl
    rw [(hline l hl).1.text_eq]
    refine Row.notMem_text (by decide) fun ink hink hbyte => ?_
    obtain ⟨s, hs, hmem⟩ := Print.exists_text_of_mem_rows hink (hrow l hl)
    exact hbreak s hs (hbyte ▸ hmem)
  obtain ⟨hfront, hall⟩ := splitOn_source hflat
  have hfault : p.fault? = none := by
    refine List.findSome?_eq_none_iff.mpr fun l hl => ?_
    have hl : l ∈ p.lines := by
      rw [shown] at hl
      split at hl
      · exact mem_lines.mpr (.inr (List.mem_reverse.mp hl))
      · exact hl
    exact (hline l hl).1.fault?_eq_none (hline l hl).2
  refine ⟨p.source, by rw [written, hfault]; rfl, fun i line hi => ?_, fun hempty => ?_⟩
  · obtain ⟨l, hl, rfl⟩ : ∃ l, p.lines[i]? = some l ∧ l.text = line := by
      obtain ⟨rest, hrest⟩ := hfront
      obtain ⟨hlt, -⟩ := List.getElem?_eq_some_iff.mp hi
      rw [← List.getElem?_append_left hlt, hrest] at hi
      simpa using hi
    have hmem : l ∈ p.lines := List.mem_of_getElem? hl
    refine ⟨l.row, by rw [← hrows, List.getElem?_map, hl]; rfl, (hline l hmem).1.text_eq, fun c hc => ?_⟩
    rw [spanAt, hl]
    exact (hline l hmem).1.spanAt_eq (hline l hmem).2 hc
  · have hmem : p.current ∈ p.lines := mem_lines.mpr (.inl rfl)
    refine ⟨p.current.text, by simp [hall hempty, lines], ?_⟩
    rw [(hline _ hmem).1.text_eq]
    exact (hline _ hmem).1.length_eq hempty (hline _ hmem).2

end Page

namespace Sample

def blockSpan : SourceSpan := .of none 0 9

def innerSpan : SourceSpan := .of none 4 5

/-- A block with a statement in it; the semicolon comes from no source. -/
def printedBlock : List Print :=
  [.part "\x7b" (some blockSpan), .newline, .indent, .part "b" (some innerSpan), .part ";" none, .newline,
    .dedent, .part "\x7d" (some blockSpan)]

theorem positions_agree_printedBlock : (1 : Int) ≤ Word.largest ∧ (Page.start 1).Level printedBlock ∧
    (∀ s ∈ printedBlock, '\n'.toUInt8 ∉ s.text) ∧
    (∀ row ∈ Print.rows 1 printedBlock, (row.columns.length : Int) ≤ Word.largest) ∧
    (∀ c : Nat, (c : Int) ≤ Word.largest →
      ((Page.start 1).run printedBlock).spanAt 1 c = if c < 5 then some innerSpan else none) := by
  have hn : (1 : Int) ≤ Word.largest := by decide
  have hlevel : (Page.start 1).Level printedBlock := by decide
  have hbreak : ∀ s ∈ printedBlock, '\n'.toUInt8 ∉ s.text := by decide
  have hfit : ∀ row ∈ Print.rows 1 printedBlock, (row.columns.length : Int) ≤ Word.largest := by decide
  refine ⟨hn, hlevel, hbreak, hfit, fun c hc => ?_⟩
  obtain ⟨text, hwritten, hlines, -⟩ := Page.positions_agree hn hlevel hbreak hfit
  cases hwritten
  obtain ⟨row, hrow, -, hspan⟩ := hlines 1 _ rfl
  cases hrow
  rw [hspan c hc]
  -- four blanks, the name and the semicolon
  rcases c with _ | _ | _ | _ | _ | _ | c <;> rfl

end Sample

end TemplateCompiler
