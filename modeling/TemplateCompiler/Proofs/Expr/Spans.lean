import TemplateCompiler.Proofs.Expr.Children
import TemplateCompiler.Proofs.Expr.Parsed
import TemplateCompiler.Proofs.Expr.Pieces
import TemplateCompiler.Proofs.Expr.Tiling

/-!
# Spans of expressions

Every node of an expression that is read covers bytes of its text, and the bytes of its children are among them
(`spansNest_of_parse`).

* `e.Placed absolute lo hi` : the bytes of `e` lie from `lo` to `hi`, and those of its children lie within them.
  The place is the one that the node is given in a binding that starts `absolute` bytes into its file
  (`placeAt`); the zero of a sign is an exception;
* `c.Ordered cx limit` : the tokens left at a cursor follow each other from where the last one ended, as the
  tokens of a text do (`inOrder_of_tiling`);
* `Onward cx limit c p Q` : from such a cursor, the reader `p` goes on to one further on, and `Q` holds of
  what it gives. A rule for a step also says where the cursor before it stands to the one behind it;
* `Places cx limit p` : the reader `p` gives expressions between the next token and the last one read. Each
  level of the parser does if the parsers inside do. A first operand starts where the node over it will, so the
  repetitions keep the start of what was read before them.
-/

namespace TemplateCompiler

/-! ### Nodes at their places -/

namespace Expr

/-- Whether a node is the zero that a sign subtracts from, or subtracts. It covers no bytes. -/
def isSignZero : Expr → Bool
  | literal p v => v == .double Double.zero && p.span.any fun s => s.start == s.stop
  | _ => false

/-- The place that a node with a span is given: the zero of a sign gets no source of its own. -/
def placeAt (absolute : Int) (s : Span) : Expr → Place
  | literal _ v =>
    if v = .double Double.zero ∧ s.start = s.stop then .of (some s) none else .shifted absolute s
  | _ => .shifted absolute s

/-- Whether a node at its place is the zero of a sign decides what its place would be for another binding. -/
theorem placeAt_eq {absolute : Int} {s : Span} {e : Expr} (h : e.place = e.placeAt absolute s) (n : Int) :
    e.placeAt n s = if e.isSignZero then .of (some s) none else .shifted n s := by
  cases e with
  | literal p v =>
      have hspan : p.span = some s := by
        rw [show p = _ from h, placeAt]
        split
        · rfl
        · rfl
      rw [placeAt, isSignZero, hspan]
      simp only [Option.any_some, Bool.and_eq_true, beq_iff_eq]
  | _ => rfl

theorem span_of_placeAt {absolute : Int} {s : Span} {e : Expr} (h : e.place = e.placeAt absolute s) :
    e.span = some s := by
  rw [span, h, placeAt_eq h]
  split
  · rfl
  · rfl

/-- A node covers bytes between `lo` and `hi`, and its children lie within these. -/
inductive Placed (absolute : Int) : Nat → Nat → Expr → Prop
  | node {lo hi start stop : Nat} {e : Expr} : e.place = e.placeAt absolute ⟨start, stop⟩ →
      lo ≤ start → start ≤ stop → stop ≤ hi →
      (∀ c ∈ e.children, Placed absolute start stop c) → Placed absolute lo hi e

/-- Nodes that all lie between `lo` and `hi`. -/
def PlacedAll (absolute : Int) (lo hi : Nat) (es : List Expr) : Prop := ∀ e ∈ es, e.Placed absolute lo hi

variable {absolute : Int} {lo hi lo' hi' start stop : Nat} {e : Expr} {es : List Expr}

theorem Placed.mono (h : e.Placed absolute lo hi) (hlo : lo' ≤ lo) (hhi : hi ≤ hi') :
    e.Placed absolute lo' hi' := by
  obtain ⟨hplace, hstart, hle, hstop, hchildren⟩ := h
  exact .node hplace (hlo.trans hstart) hle (hstop.trans hhi) hchildren

theorem Placed.le (h : e.Placed absolute lo hi) : lo ≤ hi := by
  obtain ⟨-, hstart, hle, hstop, -⟩ := h
  exact (hstart.trans hle).trans hstop

/-- All nodes lie between the bounds, and each contains its children. -/
theorem Placed.every (h : e.Placed absolute lo hi) : e.Every fun x => x.Placed absolute lo hi := by
  induction h with
  | node hplace hlo hle hhi hchildren ih =>
      refine every_iff.mpr ⟨.node hplace hlo hle hhi hchildren, everyAll_iff.mpr fun c hc => ?_⟩
      exact (ih c hc).imp₂ (fun x hx _ => hx.mono hlo hhi) (ih c hc)

theorem PlacedAll.nil : PlacedAll absolute lo hi [] := List.forall_mem_nil _

theorem PlacedAll.cons (h : e.Placed absolute lo hi) (hs : PlacedAll absolute lo hi es) :
    PlacedAll absolute lo hi (e :: es) :=
  List.forall_mem_cons.mpr ⟨h, hs⟩

theorem PlacedAll.one (h : e.Placed absolute lo hi) : PlacedAll absolute lo hi [e] := .cons h .nil

theorem PlacedAll.mono (h : PlacedAll absolute lo hi es) (hlo : lo' ≤ lo) (hhi : hi ≤ hi') :
    PlacedAll absolute lo' hi' es :=
  fun e he => (h e he).mono hlo hhi

/-- A node that covers the bytes of its children. -/
theorem Placed.cover (hplace : e.place = e.placeAt absolute ⟨start, stop⟩) (hle : start ≤ stop)
    (hchildren : PlacedAll absolute start stop e.children) : e.Placed absolute start stop :=
  .node hplace (Nat.le_refl _) hle (Nat.le_refl _) hchildren

/-- The zero of a sign stands for no bytes. -/
theorem placed_zero (absolute : Int) (start : Nat) :
    (literal (.of (some ⟨start, start⟩) none) (.double Double.zero)).Placed absolute start start :=
  .cover (if_pos ⟨rfl, rfl⟩).symm (Nat.le_refl _) .nil

theorem Placed.literal (hlt : start < stop) (value : Primitive) :
    (Expr.literal (.shifted absolute ⟨start, stop⟩) value).Placed absolute start stop := by
  refine .cover ?_ (Nat.le_of_lt hlt) .nil
  have hne : ¬ (start : Int) = stop := by omega
  exact (if_neg fun h => hne h.2).symm

end Expr

namespace Parser

variable {α β : Type}

/-! ### Tokens in order -/

/-- Tokens that cover bytes follow each other behind `last`, up to `limit`. -/
def InOrder (offset limit : Nat) : (last : Nat) → List Token → Prop
  | last, [] => last ≤ limit
  | last, t :: ts => last ≤ t.start + offset ∧ t.start < t.stop ∧ InOrder offset limit (t.stop + offset) ts

/-- The tokens left are in order. -/
def Cursor.Ordered (cx : Setting) (limit : Nat) (c : Cursor) : Prop := InOrder cx.offset limit c.last c.tokens

theorem Cursor.Ordered.last_le_position {cx : Setting} {limit : Nat} {c : Cursor} (h : c.Ordered cx limit) :
    c.last ≤ c.position cx := by
  obtain ⟨_ | ⟨t, ts⟩, last⟩ := c
  · exact Nat.le_refl _
  · exact h.1

theorem InOrder.le {offset limit last : Nat} {ts : List Token} (h : InOrder offset limit last ts) :
    last ≤ limit := by
  induction ts generalizing last with
  | nil => exact h
  | cons t ts ih =>
      obtain ⟨hstart, hlt, hrest⟩ := h
      have hstop := ih hrest
      omega

/-- The tokens of a text are in order if none is an error. -/
theorem inOrder_of_tiling {input : Text} {offset position : Nat} {ts : List Token}
    (h : Tiling input position ts) (herror : ∀ t ∈ ts, ∀ m, t.lexeme ≠ .error m) :
    InOrder offset (offset + input.length) (position + offset) ts := by
  induction h with
  | done hgap =>
      have hle := hgap.1
      rw [InOrder]
      omega
  | token hgap hread _ ih =>
      have hle := hgap.1
      refine ⟨by omega, hread.inside.1, ih fun t ht => herror t (List.mem_cons_of_mem _ ht)⟩
  | @stuck position i t _ _ _ _ _ hstuck =>
      cases hlexeme : t.lexeme with
      | error m => exact absurd hlexeme (herror t List.mem_cons_self m)
      | _ =>
          rw [hlexeme] at hstuck
          cases hstuck

/-! ### Reading onward -/

section Rules

variable {cx : Setting} {limit : Nat} {c : Cursor}

/-- From a cursor in order, a reader goes on to one further on, and `Q` holds of what it gives. -/
def Onward (cx : Setting) (limit : Nat) (c : Cursor) (p : Reader α) (Q : α → Cursor → Prop) : Prop :=
  c.Ordered cx limit → ∀ a c', p c = .ok (a, c') → c'.Ordered cx limit ∧ c.last ≤ c'.last ∧ Q a c'

variable {Q : α → Cursor → Prop}

theorem onward_pure {a : α} (h : Q a c) : Onward cx limit c (pure a) Q := by
  rintro hc a' c' ⟨⟩
  exact ⟨hc, Nat.le_refl _, h⟩

theorem onward_fail {cause : SyntaxCause} : Onward cx limit c (fail cx cause) Q := by
  rintro hc a' c' ⟨⟩

theorem onward_bind {S : β → Cursor → Prop} {p : Reader β} {f : β → Reader α} (hp : Onward cx limit c p S)
    (hf : ∀ b c', c.last ≤ c'.last → c'.last ≤ c'.position cx → S b c' → Onward cx limit c' (f b) Q) :
    Onward cx limit c (p >>= f) Q := by
  intro hc a c₂ heq
  obtain ⟨⟨b, c₁⟩, hb, ha⟩ := except_bind_ok.mp heq
  obtain ⟨hc₁, hlast, hS⟩ := hp hc b c₁ hb
  obtain ⟨hc₂, hlast', hQ⟩ := hf b c₁ hlast hc₁.last_le_position hS hc₁ a c₂ ha
  exact ⟨hc₂, hlast.trans hlast', hQ⟩

theorem onward_ite {b : Prop} [Decidable b] {p q : Reader α} (hp : Onward cx limit c p Q)
    (hq : Onward cx limit c q Q) : Onward cx limit c (if b then p else q) Q := by
  split
  · exact hp
  · exact hq

/-- A failure ends reading. -/
theorem onward_failed {cause : SyntaxCause} {f : Unit → Reader α} :
    Onward cx limit c (fail cx cause >>= f) Q :=
  onward_bind (S := fun _ _ => False) onward_fail fun _ _ _ _ h => h.elim

/-- A step that leaves the cursor where it is. -/
theorem onward_still {g : Cursor → β} {f : β → Reader α} (hf : Onward cx limit c (f (g c)) Q) :
    Onward cx limit c ((fun c => .ok (g c, c) : Reader β) >>= f) Q :=
  hf

theorem onward_position {f : Nat → Reader α}
    (hf : c.last ≤ c.position cx → Onward cx limit c (f (c.position cx)) Q) :
    Onward cx limit c (position cx >>= f) Q :=
  fun hc => onward_still (hf hc.last_le_position) hc

theorem onward_placeFrom {start : Nat} {f : Place → Reader α}
    (hf : Onward cx limit c (f (Place.shifted cx.absolute ⟨start, c.last⟩)) Q) :
    Onward cx limit c (placeFrom cx start >>= f) Q :=
  onward_still hf

theorem onward_get {f : Cursor → Reader α} (hf : ∀ c', Onward cx limit c (f c') Q) :
    Onward cx limit c (get >>= f) Q :=
  onward_still (g := id) (hf c)

theorem onward_remaining {f : Nat → Reader α} (hf : Onward cx limit c (f c.tokens.length) Q) :
    Onward cx limit c (remaining >>= f) Q :=
  onward_still hf

theorem onward_peek {f : Option Lexeme → Reader α}
    (hf : ∀ next, c.tokens.head?.map Token.lexeme = next → Onward cx limit c (f next) Q) :
    Onward cx limit c (peek >>= f) Q :=
  onward_still (hf _ rfl)

/-- A token is read up to its end. -/
theorem onward_advance {f : Unit → Reader α}
    (hf : ∀ c', c.last ≤ c'.last → c'.last ≤ c'.position cx → c.position cx ≤ c'.last →
      (c.tokens ≠ [] → c.position cx < c'.last) → Onward cx limit c' (f ()) Q) :
    Onward cx limit c (advance cx >>= f) Q := by
  intro hc
  obtain ⟨_ | ⟨t, ts⟩, last⟩ := c
  · exact hf _ (Nat.le_refl _) hc.last_le_position (Nat.le_refl _) (fun h => absurd rfl h) hc
  · obtain ⟨hstart, hlt, hrest⟩ : last ≤ t.start + cx.offset ∧ _ ∧ _ := hc
    have hlast : last ≤ t.stop + cx.offset := by omega
    have hnext : Cursor.Ordered cx limit ⟨ts, t.stop + cx.offset⟩ := hrest
    have hread : t.start + cx.offset < t.stop + cx.offset := by omega
    intro a c₂ heq
    obtain ⟨hc₂, hlast', hQ⟩ := hf ⟨ts, t.stop + cx.offset⟩ hlast hnext.last_le_position
      (Nat.le_of_lt hread) (fun _ => hread) hnext a c₂ heq
    exact ⟨hc₂, hlast.trans hlast', hQ⟩

theorem onward_accept {l : Lexeme} {yes no : Reader α}
    (hyes : ∀ c', c.last ≤ c'.last → c'.last ≤ c'.position cx → c.position cx ≤ c'.last →
      Onward cx limit c' yes Q)
    (hno : Onward cx limit c no Q) : Onward cx limit c (do if ← accept cx l then yes else no) Q := by
  have haccept : Onward cx limit c (accept cx l) fun b c' =>
      if b then c.position cx ≤ c'.last else c' = c := by
    unfold accept
    refine onward_peek fun next _ => onward_ite ?_ (onward_pure rfl)
    exact onward_advance fun c' _ _ hread _ => onward_pure hread
  refine onward_bind haccept fun b c' hlast hnext h => ?_
  cases b with
  | true => exact hyes c' hlast hnext h
  | false =>
      obtain rfl : c' = c := h
      exact hno

theorem onward_expect {b : UInt8} {f : Unit → Reader α}
    (hf : ∀ c', c.last ≤ c'.last → c'.last ≤ c'.position cx → c.position cx ≤ c'.last →
      Onward cx limit c' (f ()) Q) :
    Onward cx limit c (expect cx b >>= f) Q := by
  refine onward_bind (S := fun _ c' => c.position cx ≤ c'.last) ?_ fun _ c' => hf c'
  unfold expect
  exact onward_accept (fun c' _ _ hread => onward_pure hread) onward_fail

/-- An optional operator out of some. -/
theorem onward_acceptOperator {operators : List Text} {f : Option Text → Reader α}
    (hyes : ∀ o c', c.last ≤ c'.last → c'.last ≤ c'.position cx → c.position cx ≤ c'.last →
      Onward cx limit c' (f (some o)) Q)
    (hno : Onward cx limit c (f none) Q) : Onward cx limit c (acceptOperator cx operators >>= f) Q := by
  have haccept : Onward cx limit c (acceptOperator cx operators) fun found c' =>
      if found.isSome then c.position cx ≤ c'.last else c' = c := by
    unfold acceptOperator
    refine onward_peek fun next _ => ?_
    split
    · refine onward_ite ?_ (onward_pure rfl)
      exact onward_advance fun c' _ _ hread _ => onward_pure hread
    · exact onward_pure rfl
  refine onward_bind haccept fun found c' hlast hnext h => ?_
  cases found with
  | some o => exact hyes o c' hlast hnext h
  | none =>
      obtain rfl : c' = c := h
      exact hno

theorem onward_allowAssignment {f : Unit → Reader α} (hf : Onward cx limit c (f ()) Q) :
    Onward cx limit c (allowAssignment cx >>= f) Q := by
  refine onward_bind (S := fun _ c' => c' = c) ?_ ?_
  · unfold allowAssignment
    exact onward_ite (onward_pure rfl) onward_fail
  · rintro _ _ _ _ rfl
    exact hf

theorem onward_name : Onward cx limit c (name cx) fun _ c' => c.position cx ≤ c'.last := by
  unfold name
  refine onward_peek fun next _ => ?_
  split
  · exact onward_advance fun c' _ _ hread _ => onward_pure hread
  · exact onward_advance fun c' _ _ hread _ => onward_pure hread
  · exact onward_fail
  · exact onward_fail

theorem onward_mapKey : Onward cx limit c (mapKey cx) fun _ c' => c.position cx ≤ c'.last := by
  unfold mapKey
  refine onward_peek fun next _ => ?_
  split
  · exact onward_advance fun c' _ _ hread _ => onward_pure hread
  · exact onward_advance fun c' _ _ hread _ => onward_pure hread
  · exact onward_advance fun c' _ _ hread _ => onward_pure hread
  · exact onward_fail
  · exact onward_fail

end Rules

/-! ### The levels of the parser -/

/-- A reader gives expressions at their places, from the next token up to the last one read. -/
def Places (cx : Setting) (limit : Nat) (p : Reader Expr) : Prop :=
  ∀ c, Onward cx limit c p fun e c' => e.Placed cx.absolute (c.position cx) c'.last

/-- Parsers that give expressions at their places. -/
structure Nested.Placing (cx : Setting) (limit : Nat) (inner : Nested) : Prop where
  pipe : Places cx limit inner.pipe
  conditional : Places cx limit inner.conditional

section Levels

variable {cx : Setting} {limit start : Nat} {inner : Nested} {c : Cursor} {e : Expr} (h : inner.Placing cx limit)

include h

theorem onward_itemsAfterCommas : ∀ n c, Onward cx limit c (itemsAfterCommas cx inner n) fun es c' =>
    Expr.PlacedAll cx.absolute c.last c'.last es
  | 0, _ => onward_pure .nil
  | n + 1, c => by
    unfold itemsAfterCommas
    refine onward_accept (fun c₁ hlast₁ hnext₁ _ => ?_) (onward_pure .nil)
    refine onward_bind (h.pipe c₁) fun e c₂ hlast₂ _ he => ?_
    refine onward_bind (onward_itemsAfterCommas n c₂) fun es c₃ hlast₃ _ hes => onward_pure ?_
    exact .cons (he.mono (by omega) hlast₃) (hes.mono (by omega) (Nat.le_refl _))

theorem onward_items (close : UInt8) (c : Cursor) : Onward cx limit c (items cx inner close) fun es c' =>
    Expr.PlacedAll cx.absolute (c.position cx) c'.last es := by
  unfold items
  refine onward_peek fun next _ => onward_ite (onward_pure .nil) ?_
  refine onward_bind (h.pipe c) fun e c₁ _ _ he => onward_remaining ?_
  refine onward_bind (onward_itemsAfterCommas h _ c₁) fun es c₂ hlast₂ _ hes => onward_pure ?_
  exact .cons (he.mono (Nat.le_refl _) hlast₂) (hes.mono he.le (Nat.le_refl _))

theorem onward_mapEntry (c : Cursor) : Onward cx limit c (mapEntry cx inner) fun entry c' =>
    entry.2.Placed cx.absolute (c.position cx) c'.last := by
  unfold mapEntry
  refine onward_bind onward_mapKey fun key c₁ hlast₁ hnext₁ hread₁ => ?_
  refine onward_expect fun c₂ hlast₂ hnext₂ _ => onward_bind (h.pipe c₂) fun e c₃ _ _ he => onward_pure ?_
  exact he.mono (by omega) (Nat.le_refl _)

theorem onward_entriesAfterCommas : ∀ n c, Onward cx limit c (entriesAfterCommas cx inner n) fun entries c' =>
    Expr.PlacedAll cx.absolute c.last c'.last (entries.map (·.2))
  | 0, _ => onward_pure .nil
  | n + 1, c => by
    unfold entriesAfterCommas
    refine onward_accept (fun c₁ hlast₁ hnext₁ _ => ?_) (onward_pure .nil)
    refine onward_bind (onward_mapEntry h c₁) fun e c₂ hlast₂ _ he => ?_
    refine onward_bind (onward_entriesAfterCommas n c₂) fun es c₃ hlast₃ _ hes => onward_pure ?_
    exact .cons (he.mono (by omega) hlast₃) (hes.mono (by omega) (Nat.le_refl _))

theorem onward_mapLiteral (c : Cursor) : Onward cx limit c (mapLiteral cx inner (c.position cx)) fun e c' =>
    e.Placed cx.absolute (c.position cx) c'.last := by
  unfold mapLiteral
  refine onward_advance fun c₁ _ hnext₁ hread₁ _ => onward_accept (fun c₂ hlast₂ _ _ => ?_) ?_
  · exact onward_placeFrom (onward_pure (.cover rfl (by omega) .nil))
  · refine onward_bind (onward_mapEntry h c₁) fun entry c₂ hlast₂ _ he => onward_remaining ?_
    refine onward_bind (onward_entriesAfterCommas h _ c₂) fun entries c₃ hlast₃ _ hes => ?_
    refine onward_expect fun c₄ hlast₄ _ _ => onward_placeFrom (onward_pure (.cover rfl (by omega) ?_))
    exact .cons (he.mono (by omega) (by omega)) (hes.mono (by omega) hlast₄)

/-- A member covers its receiver, which may end before the next token. -/
theorem onward_member (he : e.Placed cx.absolute start (c.position cx)) (safe : Bool) :
    Onward cx limit c (member cx inner e start safe) fun e' c' => e'.Placed cx.absolute start c'.last := by
  have hstart := he.le
  unfold member
  refine onward_bind onward_name fun id c₁ _ hnext₁ hread₁ => onward_accept (fun c₂ hlast₂ hnext₂ _ => ?_) ?_
  · refine onward_bind (onward_items h _ c₂) fun args c₃ hlast₃ _ hargs => ?_
    refine onward_expect fun c₄ hlast₄ _ _ => onward_placeFrom (onward_pure ?_)
    have hchildren : Expr.PlacedAll cx.absolute start c₄.last (e :: args) :=
      .cons (he.mono (Nat.le_refl _) (by omega)) (hargs.mono (by omega) hlast₄)
    split
    · exact .cover rfl (by omega) hchildren
    · exact .cover rfl (by omega) hchildren
  · have hchildren : Expr.PlacedAll cx.absolute start c₁.last [e] := .one (he.mono (Nat.le_refl _) hread₁)
    refine onward_ite (onward_peek fun next _ => onward_ite onward_failed ?_) ?_
    · exact onward_placeFrom (onward_pure (.cover rfl (by omega) hchildren))
    · refine onward_accept (fun c₂ hlast₂ hnext₂ _ => ?_) ?_
      · refine onward_allowAssignment (onward_bind (h.conditional c₂) fun value c₃ hlast₃ _ hvalue => ?_)
        refine onward_placeFrom (onward_pure (.cover rfl (by omega) ?_))
        exact .cons (he.mono (Nat.le_refl _) (by omega)) (.one (hvalue.mono (by omega) (Nat.le_refl _)))
      · exact onward_placeFrom (onward_pure (.cover rfl (by omega) hchildren))

omit h in
theorem onward_literal (htokens : c.tokens ≠ []) (value : Primitive) :
    Onward cx limit c
      (do
        advance cx
        return .literal (← placeFrom cx (c.position cx)) value : Reader Expr)
      fun e c' => e.Placed cx.absolute (c.position cx) c'.last :=
  onward_advance fun _ _ _ _ hlt => onward_placeFrom (onward_pure (.literal (hlt htokens) value))

theorem places_primary : Places cx limit (primary cx inner) := by
  intro c
  unfold primary
  refine onward_position fun hnext => onward_peek fun next hpeek => ?_
  have htokens : next ≠ none → c.tokens ≠ [] := by
    rintro hnext hnil
    exact hnext (by rw [← hpeek, hnil]; rfl)
  split
  · exact onward_fail
  · exact onward_literal (htokens nofun) _
  · exact onward_literal (htokens nofun) _
  -- a bare name is a member of the context, which covers no bytes
  · exact onward_member h (.cover rfl (Nat.le_refl _) .nil) false
  · have hsome := htokens nofun
    refine onward_ite ?_ (onward_ite (onward_literal hsome _) (onward_ite (onward_literal hsome _)
      (onward_ite (onward_literal hsome _) (onward_ite ?_ (onward_ite ?_
      (onward_ite (onward_mapLiteral h c) onward_fail))))))
    · refine onward_advance fun c₁ _ hnext₁ hread₁ _ => onward_bind (h.pipe c₁) fun e c₂ _ _ he => ?_
      exact onward_expect fun c₃ hlast₃ _ _ => onward_pure (he.mono (by omega) hlast₃)
    · exact onward_advance fun c₁ _ _ hread₁ _ => onward_placeFrom (onward_pure (.cover rfl hread₁ .nil))
    · refine onward_advance fun c₁ _ hnext₁ hread₁ _ => ?_
      refine onward_bind (onward_items h _ c₁) fun es c₂ hlast₂ _ hes => ?_
      refine onward_expect fun c₃ hlast₃ _ _ => onward_placeFrom (onward_pure (.cover rfl (by omega) ?_))
      exact hes.mono (by omega) hlast₃

/-- What follows an expression covers it: every round starts where the expression does. -/
theorem onward_accesses : ∀ (n : Nat) {e : Expr} {c : Cursor}, e.Placed cx.absolute start c.last →
    Onward cx limit c (accesses cx inner start n e) fun e' c' => e'.Placed cx.absolute start c'.last
  | 0, _, _, he => onward_pure he
  | n + 1, e, c, he => by
    have again := @onward_accesses n
    have hstart := he.le
    unfold accesses
    refine onward_accept (fun c₁ hlast₁ hnext₁ _ => ?_) (onward_accept (fun c₁ hlast₁ hnext₁ _ => ?_)
      (onward_accept (fun c₁ hlast₁ hnext₁ _ => ?_) (onward_accept (fun c₁ hlast₁ hnext₁ _ => ?_)
      (onward_accept (fun c₁ hlast₁ _ _ => ?_) (onward_pure he)))))
    · have hr := he.mono (Nat.le_refl _) (hlast₁.trans hnext₁)
      exact onward_bind (onward_member h hr false) fun e' c₂ _ _ he' => again he'
    · have hr := he.mono (Nat.le_refl _) (hlast₁.trans hnext₁)
      exact onward_bind (onward_member h hr true) fun e' c₂ _ _ he' => again he'
    · refine onward_bind (h.pipe c₁) fun key c₂ hlast₂ _ hkey => onward_expect fun c₃ hlast₃ _ _ => ?_
      refine onward_accept (fun c₄ hlast₄ hnext₄ _ => ?_) (onward_placeFrom (again (.cover rfl (by omega) ?_)))
      · refine onward_allowAssignment (onward_bind (h.conditional c₄) fun value c₅ hlast₅ _ hvalue => ?_)
        refine onward_placeFrom (again (.cover rfl (by omega) (.cons (he.mono (Nat.le_refl _) (by omega)) ?_)))
        exact .cons (hkey.mono (by omega) (by omega)) (.one (hvalue.mono (by omega) (Nat.le_refl _)))
      · exact .cons (he.mono (Nat.le_refl _) (by omega)) (.one (hkey.mono (by omega) hlast₃))
    · refine onward_bind (onward_items h _ c₁) fun args c₂ hlast₂ _ hargs => ?_
      refine onward_expect fun c₃ hlast₃ _ _ => onward_placeFrom (again (.cover rfl (by omega) ?_))
      exact .cons (he.mono (Nat.le_refl _) (by omega)) (hargs.mono (by omega) hlast₃)
    · exact onward_placeFrom (again (.cover rfl (by omega) (.one (he.mono (Nat.le_refl _) hlast₁))))

theorem places_callChain : Places cx limit (callChain cx inner) := by
  intro c
  unfold callChain
  refine onward_position fun _ => onward_bind (places_primary h c) fun e c₁ _ _ he => ?_
  exact onward_remaining (onward_accesses h _ he)

theorem places_prefixed : ∀ n, Places cx limit (prefixed cx inner n)
  | 0 => places_callChain h
  | n + 1 => by
    have deeper := places_prefixed n
    intro c
    unfold prefixed
    refine onward_position fun _ => ?_
    refine onward_accept (fun c₁ _ hnext₁ hread₁ => ?_) (onward_accept (fun c₁ _ hnext₁ hread₁ => ?_)
      (onward_accept (fun c₁ _ hnext₁ hread₁ => ?_) (places_callChain h c)))
    · refine onward_bind (deeper c₁) fun e c₂ hlast₂ _ he => onward_placeFrom (onward_pure ?_)
      refine .cover rfl (by omega) (.cons (he.mono (by omega) (Nat.le_refl _)) (.one ?_))
      exact (Expr.placed_zero _ _).mono (Nat.le_refl _) (by omega)
    · refine onward_bind (deeper c₁) fun e c₂ hlast₂ _ he => onward_placeFrom (onward_pure ?_)
      refine .cover rfl (by omega) (.cons ?_ (.one (he.mono (by omega) (Nat.le_refl _))))
      exact (Expr.placed_zero _ _).mono (Nat.le_refl _) (by omega)
    · refine onward_bind (deeper c₁) fun e c₂ hlast₂ _ he => onward_placeFrom (onward_pure ?_)
      exact .cover rfl (by omega) (.one (he.mono (by omega) (Nat.le_refl _)))

omit h in
theorem onward_operands {operand : Reader Expr} (hoperand : Places cx limit operand) (operators : List Text) :
    ∀ (n : Nat) {left : Expr} {c : Cursor}, left.Placed cx.absolute start c.last →
      Onward cx limit c (operands cx operators operand start n left) fun e c' =>
        e.Placed cx.absolute start c'.last
  | 0, _, _, hleft => onward_pure hleft
  | n + 1, left, c, hleft => by
    have hstart := hleft.le
    unfold operands
    refine onward_acceptOperator (fun o c₁ hlast₁ hnext₁ _ => ?_) (onward_pure hleft)
    refine onward_bind (hoperand c₁) fun right c₂ hlast₂ _ hright => onward_placeFrom ?_
    refine onward_operands hoperand operators n (.cover rfl (by omega) ?_)
    exact .cons (hleft.mono (Nat.le_refl _) (by omega)) (.one (hright.mono (by omega) (Nat.le_refl _)))

theorem places_binary : ∀ levels, Places cx limit (binary cx inner levels)
  | [] => by
    intro c
    unfold binary
    exact onward_remaining (places_prefixed h _ c)
  | operators :: tighter => by
    have htighter := places_binary tighter
    intro c
    unfold binary
    refine onward_position fun _ => onward_bind (htighter c) fun left c₁ _ _ hleft => ?_
    exact onward_remaining (onward_operands htighter operators _ hleft)

theorem places_conditionalExpr : Places cx limit (conditionalExpr cx inner) := by
  intro c
  unfold conditionalExpr
  refine onward_position fun _ => onward_bind (places_binary h _ c) fun condition c₁ _ _ hc => ?_
  have hstart := hc.le
  refine onward_accept (fun c₂ hlast₂ hnext₂ _ => ?_) (onward_pure hc)
  refine onward_bind (h.pipe c₂) fun yes c₃ hlast₃ _ hyes => ?_
  refine onward_accept (fun c₄ hlast₄ hnext₄ _ => ?_) (onward_position fun _ => onward_failed)
  refine onward_bind (h.pipe c₄) fun no c₅ hlast₅ _ hno => onward_placeFrom (onward_pure ?_)
  refine .cover rfl (by omega) ?_
  refine .cons (hc.mono (Nat.le_refl _) (by omega)) (.cons (hyes.mono (by omega) (by omega)) (.one ?_))
  exact hno.mono (by omega) (Nat.le_refl _)

omit h in
theorem onward_pipeArguments {expression : Reader Expr} (hexpression : Places cx limit expression) :
    ∀ n c, Onward cx limit c (pipeArguments cx expression n) fun es c' =>
      Expr.PlacedAll cx.absolute c.last c'.last es
  | 0, _ => onward_pure .nil
  | n + 1, c => by
    unfold pipeArguments
    refine onward_accept (fun c₁ hlast₁ hnext₁ _ => ?_) (onward_pure .nil)
    refine onward_bind (hexpression c₁) fun e c₂ hlast₂ _ he => ?_
    refine onward_bind (onward_pipeArguments hexpression n c₂) fun es c₃ hlast₃ _ hes => onward_pure ?_
    exact .cons (he.mono (by omega) hlast₃) (hes.mono (by omega) (Nat.le_refl _))

omit h in
theorem onward_pipes {expression : Reader Expr} (hexpression : Places cx limit expression) :
    ∀ (n : Nat) {e : Expr} {c : Cursor}, e.Placed cx.absolute start c.last →
      Onward cx limit c (pipes cx expression start n e) fun e' c' => e'.Placed cx.absolute start c'.last
  | 0, _, _, he => onward_pure he
  | n + 1, e, c, he => by
    have hstart := he.le
    unfold pipes
    refine onward_accept (fun c₁ hlast₁ hnext₁ _ => onward_ite onward_failed ?_) (onward_pure he)
    refine onward_bind onward_name fun id c₂ hlast₂ _ _ => onward_remaining ?_
    refine onward_bind (onward_pipeArguments hexpression _ c₂) fun args c₃ hlast₃ _ hargs => onward_placeFrom ?_
    refine onward_pipes hexpression n (.cover rfl (by omega) ?_)
    exact .cons (he.mono (Nat.le_refl _) (by omega)) (hargs.mono (by omega) (Nat.le_refl _))

omit h in
theorem places_piped {expression : Reader Expr} (hexpression : Places cx limit expression) :
    Places cx limit (piped cx expression) := by
  intro c
  unfold piped
  refine onward_position fun _ => onward_bind (hexpression c) fun e c₁ _ _ he => ?_
  exact onward_remaining (onward_pipes hexpression _ he)

theorem placing_around : (around cx inner).Placing cx limit :=
  ⟨places_piped (places_conditionalExpr h), places_conditionalExpr h⟩

omit h in
theorem placing_ofDepth : ∀ n, (Nested.ofDepth cx n).Placing cx limit
  | 0 => ⟨fun _ => onward_fail, fun _ => onward_fail⟩
  | n + 1 => placing_around (placing_ofDepth n)

omit h in
theorem onward_semicolons : ∀ n c, Onward cx limit c (semicolons cx n) fun _ _ => True
  | 0, _ => onward_pure trivial
  | n + 1, c => by
    unfold semicolons
    exact onward_accept (fun c₁ _ _ _ => onward_semicolons n c₁) (onward_pure trivial)

/-- Without tokens the last one ended at the cursor, and otherwise there is an item behind it. -/
theorem onward_chainItems : ∀ n c, Onward cx limit c (chainItems cx inner n) fun es c' =>
    Expr.PlacedAll cx.absolute (c.position cx) c'.last es ∧
      (c.tokens.length ≤ n → c.position cx ≤ c'.last)
  | 0, ⟨[], _⟩ => onward_pure ⟨.nil, fun _ => Nat.le_refl _⟩
  | 0, ⟨_ :: _, _⟩ => onward_pure ⟨.nil, nofun⟩
  | n + 1, c => by
    unfold chainItems
    refine onward_peek fun next hpeek => ?_
    split
    · next hnone =>
        obtain ⟨_ | ⟨t, ts⟩, last⟩ := c
        · exact onward_pure ⟨.nil, fun _ => Nat.le_refl _⟩
        · rw [← hpeek] at hnone
          cases hnone
    · refine onward_bind (h.pipe c) fun e c₁ _ hnext₁ he => ?_
      have hread := he.le
      have hrest : ∀ c₂, c₁.last ≤ c₂.last → c₂.last ≤ c₂.position cx → Onward cx limit c₂
          (do return e :: (← chainItems cx inner n)) fun es c' =>
          Expr.PlacedAll cx.absolute (c.position cx) c'.last es ∧
            (c.tokens.length ≤ n + 1 → c.position cx ≤ c'.last) := by
        intro c₂ hlast₂ hnext₂
        refine onward_bind (onward_chainItems n c₂) fun es c₃ hlast₃ _ hes => onward_pure ⟨?_, fun _ => by omega⟩
        exact .cons (he.mono (Nat.le_refl _) (by omega)) (hes.1.mono (by omega) (Nat.le_refl _))
      refine onward_accept (fun c₂ hlast₂ _ _ => onward_ite (onward_remaining ?_) onward_failed) ?_
      · exact onward_bind (onward_semicolons _ c₂) fun _ c₃ hlast₃ hnext₃ _ => hrest c₃ (by omega) hnext₃
      · refine onward_peek fun next _ => onward_ite (onward_get fun _ => onward_failed) ?_
        exact hrest c₁ (Nat.le_refl _) hnext₁

theorem places_chain : Places cx limit (chain cx inner) := by
  intro c
  unfold chain
  refine onward_position fun _ => onward_remaining ?_
  refine onward_bind (onward_chainItems h _ c) fun es c₁ _ _ hes => ?_
  obtain ⟨hes, hread⟩ := hes
  split
  · exact onward_pure (hes _ List.mem_cons_self)
  · exact onward_placeFrom (onward_pure (.cover rfl (hread (Nat.le_refl _)) hes))

end Levels

/-- An expression covers bytes of its text. -/
theorem placed_of_parse {cx : Setting} {e : Expr} (h : parse cx = .ok e) :
    e.Placed cx.absolute cx.offset (cx.offset + cx.input.length) := by
  obtain ⟨herror, c, hrun⟩ := run_of_parse h
  have hordered : Cursor.Ordered cx (cx.offset + cx.input.length) ⟨tokenize cx.input, cx.offset⟩ := by
    have hinOrder : InOrder cx.offset _ _ _ := inOrder_of_tiling (tiling_tokenize cx.input) herror
    rwa [Nat.zero_add] at hinOrder
  obtain ⟨hc, -, he⟩ := places_chain (placing_ofDepth _) _ hordered e c hrun
  exact he.mono hordered.last_le_position hc.le

end Parser

/-! ### Texts that are read -/

/-- The ways a text is read. -/
inductive Mode where
  | action
  | binding
  | interpolation
  deriving DecidableEq, Repr

/-- Reads a text; without interpolations there is nothing to read in one of the ways. -/
def Mode.parse : Mode → (input location : Text) → (absolute : Int) → Option Parsed
  | action, input, location, absolute => some (parseAction input location absolute)
  | binding, input, location, absolute => some (parseBinding input location absolute)
  | interpolation, input, location, absolute => parseInterpolation input location absolute

theorem placed_of_parseExpression {cx : Parser.Setting} {e : Expr} (h : parseExpression cx = .ok e) :
    e.Placed cx.absolute cx.offset (cx.offset + cx.input.length) :=
  Parser.placed_of_parse (parse_of_parseExpression h)

/-- Every way of reading gives an expression within the text. -/
theorem Mode.placed_of_parse {mode : Mode} {input location : Text} {absolute : Int} {e : Expr}
    (h : mode.parse input location absolute = some (.ok e)) : e.Placed absolute 0 input.length := by
  cases mode with
  | action =>
      have he := placed_of_parseExpression (Option.some.inj h)
      rwa [Nat.zero_add] at he
  | binding =>
      rcases of_parseBinding (Option.some.inj h) with hquote | h
      · obtain ⟨scheme, text, rfl⟩ := eq_of_parseQuote? hquote
        exact .cover rfl (Nat.zero_le _) .nil
      · have he := placed_of_parseExpression h
        rwa [Nat.zero_add] at he
  | interpolation =>
      obtain ⟨t, es, hsplit, hes, rfl⟩ := eq_of_parseInterpolation h
      refine .cover rfl (Nat.zero_le _) fun x hx => ?_
      obtain ⟨p, hp, hx⟩ := exists_mem_of_forall₂ (forall₂_of_mapM hes) x hx
      have hinside := (Interpolated.of_splitInterpolation hsplit).1.inside hp
      rw [Nat.zero_add] at hinside
      exact (placed_of_parseExpression hx).mono (Nat.zero_le _) hinside

/-! ### Spans nest -/

namespace Expr

/-- A node has a span, which lies between two bounds. -/
def Between (lo hi : Int) (e : Expr) : Prop :=
  ∃ s, e.span = some s ∧ lo ≤ s.start ∧ s.start ≤ s.stop ∧ s.stop ≤ hi

/-- The spans of an expression that was read from a text. -/
structure SpansNest (input : Text) (e : Expr) : Prop where
  inside : e.Every fun x => x.Between 0 input.length
  /-- The span of a node contains those of its children. -/
  contained : e.Every fun x => ∃ s, x.span = some s ∧ ∀ c ∈ x.children, c.Between s.start s.stop
  /-- Every node of an expression between braces lies within that expression. -/
  slices : ∀ p texts es, e = .interpolation p texts es → ∃ t, splitInterpolation input = some t ∧
    List.Forall₂ (fun p x => x.Every fun y => y.Between p.offset (p.offset + p.expression.length)) t.pieces es

variable {absolute : Int} {lo hi : Nat} {e : Expr}

theorem Placed.between (h : e.Placed absolute lo hi) : e.Between lo hi := by
  obtain ⟨hplace, hlo, hle, hhi, -⟩ := h
  exact ⟨_, span_of_placeAt hplace, Int.ofNat_le.mpr hlo, Int.ofNat_le.mpr hle, Int.ofNat_le.mpr hhi⟩

theorem Placed.every_between (h : e.Placed absolute lo hi) : e.Every fun x => x.Between lo hi :=
  h.every.imp₂ (fun _ hx _ => hx.between) h.every

theorem Placed.every_contains (h : e.Placed absolute lo hi) :
    e.Every fun x => ∃ s, x.span = some s ∧ ∀ c ∈ x.children, c.Between s.start s.stop := by
  refine h.every.imp₂ (fun x hx _ => ?_) h.every
  obtain ⟨hplace, -, -, -, hchildren⟩ := hx
  exact ⟨_, span_of_placeAt hplace, fun c hc => (hchildren c hc).between⟩

end Expr

/-- The spans of an expression nest, whichever way it is read. -/
theorem spansNest_of_parse {mode : Mode} {input location : Text} {absolute : Int} {e : Expr}
    (h : mode.parse input location absolute = some (.ok e)) : e.SpansNest input := by
  have hplaced := Mode.placed_of_parse h
  refine ⟨hplaced.every_between, hplaced.every_contains, ?_⟩
  rintro p texts es rfl
  cases mode with
  | action => exact absurd (readable_of_parseAction (Option.some.inj h)).1 Bool.false_ne_true
  | binding => exact absurd (readable_of_parseBinding (Option.some.inj h)).1 Bool.false_ne_true
  | interpolation =>
      obtain ⟨t, es, hsplit, hes, heq⟩ := eq_of_parseInterpolation h
      cases heq
      refine ⟨t, hsplit, (forall₂_of_mapM hes).imp fun p x hx => ?_⟩
      have hbetween := (placed_of_parseExpression hx).every_between
      rwa [Int.natCast_add] at hbetween

namespace Sample

/-- The zero of a sign and the component of a bare name have spans without bytes, at the start of their
parents. -/
theorem spansNest_sign : ∃ e, Mode.interpolation.parse "a \x7b\x7b (-b.c) \x7d\x7d" [] 0 = some (.ok e) ∧
    e.SpansNest "a \x7b\x7b (-b.c) \x7d\x7d" := by
  refine ⟨_, rfl, ?_⟩
  exact spansNest_of_parse (rfl : Mode.interpolation.parse "a \x7b\x7b (-b.c) \x7d\x7d" [] 0 = some (.ok _))

end Sample

end TemplateCompiler
