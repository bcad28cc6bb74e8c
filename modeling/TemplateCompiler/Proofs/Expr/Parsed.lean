import Mathlib.Data.List.Forall2
import TemplateCompiler.Proofs.Expr.Every
import TemplateCompiler.Expr.Binding

/-!
# What expressions are read

Expressions that are read have no interpolations and no builtins, and their map literals have a value
for each key (`Expr.Readable`).

`Gives P p` says that whatever the reader `p` gives has the property `P`. There is a lemma `gives_` for
each level of the parser; those for repetitions are by induction on the number of tokens left, and
`sound_ofDepth` is by induction on the depth.

What was read came about in one way: `run_of_parse`, `parse_of_parseExpression`, `eq_of_parseQuote?`,
`of_parseBinding` and `eq_of_parseInterpolation` say which.
-/

namespace TemplateCompiler.Parser

variable {α β : Type}

def Gives (P : α → Prop) (p : Reader α) : Prop := ∀ c a c', p c = .ok (a, c') → P a

section Rules

variable {P : α → Prop} {Q : β → Prop}

theorem gives_pure {a : α} (h : P a) : Gives P (pure a) := by
  intro c a' c' heq
  cases heq
  exact h

theorem gives_fail (cx : Setting) (cause : SyntaxCause) : Gives P (fail cx cause) := by
  intro c a c' heq
  cases heq

theorem gives_bind {p : Reader β} {f : β → Reader α} (hp : Gives Q p)
    (hf : ∀ b, Q b → Gives P (f b)) : Gives P (p >>= f) := by
  intro c a c' heq
  obtain ⟨⟨b, c₁⟩, hb, ha⟩ := except_bind_ok.mp heq
  exact hf b (hp c b c₁ hb) c₁ a c' ha

/-- A step whose result does not matter. -/
theorem gives_then {p : Reader β} {f : β → Reader α} (hf : ∀ b, Gives P (f b)) :
    Gives P (p >>= f) :=
  gives_bind (Q := fun _ => True) (fun _ _ _ _ => trivial) fun b _ => hf b

theorem gives_ite {c : Prop} [Decidable c] {p q : Reader α} (hp : Gives P p) (hq : Gives P q) :
    Gives P (if c then p else q) := by
  split
  · exact hp
  · exact hq

end Rules

end TemplateCompiler.Parser

namespace TemplateCompiler

/-- Whether a node is one that can be read: neither an interpolation nor a builtin, nor a map literal
with keys and values left over. -/
def Expr.isReadable : Expr → Bool
  | interpolation .. | builtin .. => false
  | map _ keys values => keys.length == values.length
  | _ => true

/-- Every node of an expression is one that can be read. -/
def Expr.Readable (e : Expr) : Prop := e.Every fun x => x.isReadable = true

/-- Every node of several expressions is one that can be read. -/
def Expr.ReadableAll (es : List Expr) : Prop := Expr.EveryAll (fun x => x.isReadable = true) es

namespace Parser

/-- Parsers that read what can be read. -/
structure Nested.Sound (inner : Nested) : Prop where
  pipe : Gives Expr.Readable inner.pipe
  conditional : Gives Expr.Readable inner.conditional

section Levels

variable (cx : Setting) {inner : Nested} (h : inner.Sound)

include h

theorem gives_itemsAfterCommas : ∀ n, Gives Expr.ReadableAll (itemsAfterCommas cx inner n)
  | 0 => gives_pure trivial
  | n + 1 => by
    unfold itemsAfterCommas
    refine gives_then fun b => gives_ite ?_ (gives_pure trivial)
    refine gives_bind h.pipe fun e he => gives_bind (gives_itemsAfterCommas n) fun es hes => ?_
    exact gives_pure ⟨he, hes⟩

theorem gives_items (close : UInt8) : Gives Expr.ReadableAll (items cx inner close) := by
  unfold items
  refine gives_then fun b => gives_ite (gives_pure trivial) ?_
  refine gives_bind h.pipe fun e he => gives_then fun n => ?_
  exact gives_bind (gives_itemsAfterCommas cx h n) fun es hes => gives_pure ⟨he, hes⟩

theorem gives_mapEntry : Gives (fun entry => entry.2.Readable) (mapEntry cx inner) := by
  unfold mapEntry
  refine gives_then fun key => gives_then fun _ => gives_bind h.pipe fun e he => ?_
  exact gives_pure he

theorem gives_entriesAfterCommas : ∀ n,
    Gives (fun entries => Expr.ReadableAll (entries.map (·.2))) (entriesAfterCommas cx inner n)
  | 0 => gives_pure trivial
  | n + 1 => by
    unfold entriesAfterCommas
    refine gives_then fun b => gives_ite ?_ (gives_pure trivial)
    refine gives_bind (gives_mapEntry cx h) fun e he => ?_
    exact gives_bind (gives_entriesAfterCommas n) fun es hes => gives_pure ⟨he, hes⟩

theorem gives_mapLiteral (start : Nat) : Gives Expr.Readable (mapLiteral cx inner start) := by
  unfold mapLiteral
  refine gives_then fun _ => gives_then fun b => gives_ite ?_ ?_
  · exact gives_then fun place => gives_pure ⟨rfl, trivial⟩
  · refine gives_bind (gives_mapEntry cx h) fun e he => gives_then fun n => ?_
    refine gives_bind (gives_entriesAfterCommas cx h n) fun es hes => gives_then fun _ => ?_
    refine gives_then fun place => gives_pure ⟨?_, he, hes⟩
    simp [Expr.isReadable]

theorem gives_member {receiver : Expr} (hr : receiver.Readable) (start : Nat) (safe : Bool) :
    Gives Expr.Readable (member cx inner receiver start safe) := by
  unfold member
  refine gives_then fun name => gives_then fun called => gives_ite ?_ (gives_ite ?_ ?_)
  · refine gives_bind (gives_items cx h _) fun args hargs => gives_then fun _ => ?_
    refine gives_then fun place => gives_pure ?_
    split
    · exact ⟨rfl, hr, hargs⟩
    · exact ⟨rfl, hr, hargs⟩
  · refine gives_then fun next => gives_ite (gives_then fun _ => ?_) ?_
    · exact gives_then fun place => gives_pure ⟨rfl, hr⟩
    · exact gives_then fun place => gives_pure ⟨rfl, hr⟩
  · refine gives_then fun assigned => gives_ite ?_ ?_
    · refine gives_then fun _ => gives_bind h.conditional fun value hvalue => ?_
      exact gives_then fun place => gives_pure ⟨rfl, hr, hvalue⟩
    · exact gives_then fun place => gives_pure ⟨rfl, hr⟩

theorem gives_primary : Gives Expr.Readable (primary cx inner) := by
  unfold primary
  refine gives_then fun start => gives_then fun next => ?_
  have hliteral : ∀ value, Gives Expr.Readable (do
      advance cx
      return .literal (← placeFrom cx start) value) := fun value =>
    gives_then fun _ => gives_then fun place => gives_pure rfl
  split
  · exact gives_fail cx _
  · exact hliteral _
  · exact hliteral _
  · have hcontext : Expr.Readable (.context (Place.shifted cx.absolute ⟨start, start⟩)) := rfl
    exact gives_member cx h hcontext start false
  · refine gives_ite ?_ (gives_ite ?_ (gives_ite ?_ (gives_ite ?_ (gives_ite ?_ (gives_ite ?_ (gives_ite ?_ ?_))))))
    · refine gives_then fun _ => gives_bind h.pipe fun e he => ?_
      exact gives_then fun _ => gives_pure he
    · exact hliteral _
    · exact hliteral _
    · exact hliteral _
    · exact gives_then fun _ => gives_then fun place => gives_pure rfl
    · refine gives_then fun _ => gives_bind (gives_items cx h _) fun es hes => ?_
      exact gives_then fun _ => gives_then fun place => gives_pure ⟨rfl, hes⟩
    · exact gives_mapLiteral cx h start
    · exact gives_fail cx _

theorem gives_accesses (start : Nat) : ∀ (n : Nat) {e : Expr}, e.Readable →
    Gives Expr.Readable (accesses cx inner start n e)
  | 0, _, he => gives_pure he
  | n + 1, e, he => by
    have again := @gives_accesses start n
    unfold accesses
    refine gives_then fun read => gives_ite ?_ (gives_then fun safe => gives_ite ?_
      (gives_then fun keyed => gives_ite ?_ (gives_then fun called => gives_ite ?_
      (gives_then fun asserted => gives_ite ?_ (gives_pure he)))))
    · exact gives_bind (gives_member cx h he start false) fun e' he' => again he'
    · exact gives_bind (gives_member cx h he start true) fun e' he' => again he'
    · refine gives_bind h.pipe fun key hkey => gives_then fun _ => gives_then fun assigned => ?_
      refine gives_ite ?_ (gives_then fun place => again ⟨rfl, he, hkey⟩)
      refine gives_then fun _ => gives_bind h.conditional fun value hvalue => ?_
      exact gives_then fun place => again ⟨rfl, he, hkey, hvalue⟩
    · refine gives_bind (gives_items cx h _) fun args hargs => gives_then fun _ => ?_
      exact gives_then fun place => again ⟨rfl, he, hargs⟩
    · exact gives_then fun place => again ⟨rfl, he⟩

theorem gives_callChain : Gives Expr.Readable (callChain cx inner) := by
  unfold callChain
  refine gives_then fun start => gives_bind (gives_primary cx h) fun e he => ?_
  exact gives_then fun n => gives_accesses cx h start n he

theorem gives_prefixed : ∀ n, Gives Expr.Readable (prefixed cx inner n)
  | 0 => gives_callChain cx h
  | n + 1 => by
    have deeper := gives_prefixed n
    unfold prefixed
    refine gives_then fun start => ?_
    refine gives_then fun plus => gives_ite ?_ (gives_then fun minus => gives_ite ?_
      (gives_then fun negated => gives_ite ?_ (gives_callChain cx h)))
    · exact gives_bind deeper fun e he => gives_then fun place => gives_pure ⟨rfl, he, rfl⟩
    · exact gives_bind deeper fun e he => gives_then fun place => gives_pure ⟨rfl, rfl, he⟩
    · exact gives_bind deeper fun e he => gives_then fun place => gives_pure ⟨rfl, he⟩

omit h in
theorem gives_operands {operand : Reader Expr} (hoperand : Gives Expr.Readable operand)
    (operators : List Text) (start : Nat) : ∀ (n : Nat) {left : Expr}, left.Readable →
    Gives Expr.Readable (operands cx operators operand start n left)
  | 0, _, hleft => gives_pure hleft
  | n + 1, _, hleft => by
    unfold operands
    refine gives_then fun found => ?_
    split
    · refine gives_bind hoperand fun right hright => gives_then fun place => ?_
      exact gives_operands hoperand operators start n ⟨rfl, hleft, hright⟩
    · exact gives_pure hleft

theorem gives_binary : ∀ levels, Gives Expr.Readable (binary cx inner levels)
  | [] => by
    unfold binary
    exact gives_then fun n => gives_prefixed cx h n
  | operators :: tighter => by
    have htighter := gives_binary tighter
    unfold binary
    refine gives_then fun start => gives_bind htighter fun left hleft => ?_
    exact gives_then fun n => gives_operands cx htighter operators start n hleft

theorem gives_conditionalExpr : Gives Expr.Readable (conditionalExpr cx inner) := by
  unfold conditionalExpr
  refine gives_then fun start => gives_bind (gives_binary cx h _) fun c hc => ?_
  refine gives_then fun asked => gives_ite ?_ (gives_pure hc)
  refine gives_bind h.pipe fun yes hyes => gives_then fun colon => ?_
  have hrest : Gives Expr.Readable (do
      let no ← inner.pipe
      return .conditional (← placeFrom cx start) c yes no) :=
    gives_bind h.pipe fun no hno => gives_then fun place => gives_pure ⟨rfl, hc, hyes, hno⟩
  exact gives_ite hrest (gives_then fun stop => gives_then fun _ => hrest)

omit h in
theorem gives_pipeArguments {expression : Reader Expr} (he : Gives Expr.Readable expression) :
    ∀ n, Gives Expr.ReadableAll (pipeArguments cx expression n)
  | 0 => gives_pure trivial
  | n + 1 => by
    unfold pipeArguments
    refine gives_then fun b => gives_ite ?_ (gives_pure trivial)
    refine gives_bind he fun e he' => gives_bind (gives_pipeArguments he n) fun es hes => ?_
    exact gives_pure ⟨he', hes⟩

omit h in
theorem gives_pipes {expression : Reader Expr} (hexpression : Gives Expr.Readable expression)
    (start : Nat) : ∀ (n : Nat) {e : Expr}, e.Readable →
    Gives Expr.Readable (pipes cx expression start n e)
  | 0, _, he => gives_pure he
  | n + 1, e, he => by
    unfold pipes
    refine gives_then fun piped => gives_ite ?_ (gives_pure he)
    have hrest : Gives Expr.Readable (do
        let id ← name cx
        let args ← pipeArguments cx expression (← remaining)
        pipes cx expression start n (.pipe (← placeFrom cx start) e id args)) := by
      refine gives_then fun id => gives_then fun m => ?_
      refine gives_bind (gives_pipeArguments cx hexpression m) fun args hargs => ?_
      exact gives_then fun place => gives_pipes hexpression start n ⟨rfl, he, hargs⟩
    exact gives_ite (gives_then fun _ => hrest) hrest

omit h in
theorem gives_piped {expression : Reader Expr} (hexpression : Gives Expr.Readable expression) :
    Gives Expr.Readable (piped cx expression) := by
  unfold piped
  refine gives_then fun start => gives_bind hexpression fun e he => ?_
  exact gives_then fun n => gives_pipes cx hexpression start n he

theorem sound_around : (around cx inner).Sound :=
  ⟨gives_piped cx (gives_conditionalExpr cx h), gives_conditionalExpr cx h⟩

omit h in
theorem sound_ofDepth : ∀ n, (Nested.ofDepth cx n).Sound
  | 0 => ⟨gives_fail cx _, gives_fail cx _⟩
  | n + 1 => sound_around cx (sound_ofDepth n)

theorem gives_chainItems : ∀ n, Gives Expr.ReadableAll (chainItems cx inner n)
  | 0 => gives_pure trivial
  | n + 1 => by
    unfold chainItems
    refine gives_then fun next => gives_ite (gives_pure trivial) ?_
    refine gives_bind h.pipe fun e he => gives_then fun separated => ?_
    have hrest : Gives Expr.ReadableAll (do return e :: (← chainItems cx inner n)) :=
      gives_bind (gives_chainItems n) fun es hes => gives_pure ⟨he, hes⟩
    refine gives_ite (gives_ite ?_ ?_) ?_
    · exact gives_then fun m => gives_then fun _ => hrest
    · exact gives_then fun _ => gives_then fun m => gives_then fun _ => hrest
    · refine gives_then fun next => gives_ite ?_ hrest
      exact gives_then fun cursor => gives_then fun _ => hrest

theorem gives_chain : Gives Expr.Readable (chain cx inner) := by
  unfold chain
  refine gives_then fun start => gives_then fun n => ?_
  refine gives_bind (gives_chainItems cx h n) fun es hes => ?_
  split
  · exact gives_pure hes.1
  · exact gives_then fun place => gives_pure ⟨rfl, hes⟩

end Levels

/-- What is read has no lexical error, and the chain of its tokens is the expression. -/
theorem run_of_parse {cx : Setting} {e : Expr} (h : parse cx = .ok e) :
    (∀ t ∈ tokenize cx.input, ∀ m, t.lexeme ≠ .error m) ∧
      ∃ c, (chain cx (Nested.ofDepth cx (tokenize cx.input).length)).run ⟨tokenize cx.input, cx.offset⟩ =
        .ok (e, c) := by
  unfold parse at h
  dsimp only at h
  split at h
  · cases h
  · next hfound =>
      refine ⟨fun t ht m hlexeme => ?_, ?_⟩
      · have hnone := List.findSome?_eq_none_iff.mp hfound t ht
        rw [hlexeme] at hnone
        cases hnone
      · split at h
        · cases h
        · rcases hrun : (chain cx (Nested.ofDepth cx (tokenize cx.input).length)).run
            ⟨tokenize cx.input, cx.offset⟩ with _ | ⟨e', c⟩
          · rw [hrun] at h
            cases h
          · rw [hrun] at h
            cases h
            exact ⟨c, rfl⟩

/-- Every node of an expression that is read is one that can be read. -/
theorem readable_of_parse {cx : Setting} {e : Expr} (h : parse cx = .ok e) : e.Readable := by
  obtain ⟨-, c, hrun⟩ := run_of_parse h
  exact gives_chain cx (sound_ofDepth cx _) _ _ _ hrun

end Parser

/-! ### How texts are read -/

theorem parse_of_parseExpression {cx : Parser.Setting} {e : Expr} (h : parseExpression cx = .ok e) :
    Parser.parse cx = .ok e := by
  unfold parseExpression at h
  cases hparse : Parser.parse cx with
  | error err =>
      rw [hparse] at h
      cases h
  | ok e' =>
      rw [hparse] at h
      cases h
      rfl

theorem eq_of_parseQuote? {input location : Text} {absolute : Int} {e : Expr}
    (h : parseQuote? input location absolute = some e) :
    ∃ scheme text, e = .quote (Place.shifted absolute ⟨0, input.length⟩) scheme text location := by
  obtain ⟨⟨front, text⟩, -, h⟩ := Option.bind_eq_some_iff.mp h
  dsimp only at h
  split at h
  · cases h
    exact ⟨_, _, rfl⟩
  · cases h

/-- The value of a property is a quote or one expression. -/
theorem of_parseBinding {input location : Text} {absolute : Int} {e : Expr}
    (h : parseBinding input location absolute = .ok e) :
    parseQuote? input location absolute = some e ∨
      parseExpression ⟨input, location, absolute, 0, false⟩ = .ok e := by
  unfold parseBinding at h
  split at h
  · next q hquote =>
      cases h
      exact .inl hquote
  · split at h
    · exact .inr h
    · cases h

/-- An interpolation covers its text, and each of its expressions is read on its own. -/
theorem eq_of_parseInterpolation {input location : Text} {absolute : Int} {e : Expr}
    (h : parseInterpolation input location absolute = some (.ok e)) :
    ∃ t es, splitInterpolation input = some t ∧
      t.pieces.mapM (fun p => parseExpression ⟨p.expression, location, absolute, p.offset, false⟩) = .ok es ∧
      e = .interpolation (Place.shifted absolute ⟨0, input.length⟩) t.texts es := by
  obtain ⟨t, hsplit, h⟩ := Option.map_eq_some_iff.mp h
  split at h
  · obtain ⟨es, hes, h⟩ := except_bind_ok.mp h
    cases h
    exact ⟨t, es, hsplit, hes, rfl⟩
  · cases h

theorem forall₂_of_mapM {α β ε : Type} {f : α → Except ε β} :
    ∀ {xs : List α} {ys : List β}, xs.mapM f = .ok ys → List.Forall₂ (fun x y => f x = .ok y) xs ys
  | [], _, h => by
    cases h
    exact .nil
  | x :: xs, _, h => by
    rw [List.mapM_cons] at h
    obtain ⟨y, hy, h⟩ := except_bind_ok.mp h
    obtain ⟨ys, hys, h⟩ := except_bind_ok.mp h
    cases h
    exact .cons hy (forall₂_of_mapM hys)

theorem exists_mem_of_forall₂ {α β : Type} {R : α → β → Prop} {xs : List α} {ys : List β}
    (h : List.Forall₂ R xs ys) : ∀ y ∈ ys, ∃ x ∈ xs, R x y := by
  induction h with
  | nil => exact List.forall_mem_nil _
  | cons hxy _ ih =>
      refine List.forall_mem_cons.mpr ⟨⟨_, List.mem_cons_self, hxy⟩, fun y hy => ?_⟩
      obtain ⟨x, hx, hxy⟩ := ih y hy
      exact ⟨x, List.mem_cons_of_mem _ hx, hxy⟩

/-! ### What is read can be read -/

theorem readable_of_parseExpression {cx : Parser.Setting} {e : Expr} (h : parseExpression cx = .ok e) :
    e.Readable :=
  Parser.readable_of_parse (parse_of_parseExpression h)

theorem readable_of_parseAction {input location : Text} {absolute : Int} {e : Expr}
    (h : parseAction input location absolute = .ok e) : e.Readable :=
  readable_of_parseExpression h

theorem readable_of_parseBinding {input location : Text} {absolute : Int} {e : Expr}
    (h : parseBinding input location absolute = .ok e) : e.Readable := by
  rcases of_parseBinding h with hquote | h
  · obtain ⟨scheme, text, rfl⟩ := eq_of_parseQuote? hquote
    rfl
  · exact readable_of_parseExpression h

end TemplateCompiler
