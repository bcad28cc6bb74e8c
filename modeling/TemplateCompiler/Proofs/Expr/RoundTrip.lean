import TemplateCompiler.Proofs.Expr.Parenthesized
import TemplateCompiler.Proofs.Expr.Reads
import TemplateCompiler.Expr.Binding

/-!
# Reading what was written

An expression in full parentheses is read back as it was (`parseAction_program`).

`Ready inner ls x` says that the parsers `inner` read the lexemes `ls` as the expression `x`, whatever
closing punctuation follows. There is a lemma `ready_` for each kind of expression: it is read by the
parsers around those that read its operands. The parsers are deep enough because every operand is written
with fewer lexemes than the expression it stands in.
-/

namespace TemplateCompiler.Parser

def Never (_ : SyntaxError) : Prop := False

/-- The expression that was read is `x` up to places, and `us` is left. -/
def Restores (x : Expr) (us : List Lexeme) (e : Expr) (us' : List Lexeme) : Prop :=
  e.unplaced = x.unplaced ∧ us' = us

def closers : List Lexeme := [mark ')', mark ']', mark '\x7d', mark ',', mark ':', mark ';']

/-- At the end, or before what closes an expression. -/
def Closing (us : List Lexeme) : Prop := ∀ w, us.head? = some w → w ∈ closers

/-- The first lexeme is none of the given ones. -/
def Avoids (ws : List Lexeme) (us : List Lexeme) : Prop := ∀ w ∈ ws, us.head? ≠ some w

/-- The parsers read lexemes as an expression, whatever closing punctuation follows. -/
structure Ready (inner : Nested) (ls : List Lexeme) (x : Expr) : Prop where
  pipe : ∀ {us}, Closing us → Reads Never (ls ++ us) inner.pipe (Restores x us)
  conditional : ∀ {us}, Closing us → Reads Never (ls ++ us) inner.conditional (Restores x us)

def accessMarks : List Lexeme := [mark '.', .operator "?.", mark '[', mark '(', .operator "!"]

section Levels

variable {cx : Setting} {inner : Nested} {x : Expr} {ls us : List Lexeme}

theorem head?_ne {w w' : Lexeme} (h : w ≠ w') (us : List Lexeme) : (w :: us).head? ≠ some w' :=
  fun heq => h (Option.some.inj heq)

theorem avoids_cons {w : Lexeme} {ws : List Lexeme} (h : w ∉ ws) (us : List Lexeme) : Avoids ws (w :: us) :=
  fun _ hw' heq => h (Option.some.inj heq ▸ hw')

theorem Closing.avoids (h : Closing us) {ws : List Lexeme} (hws : ∀ w ∈ ws, w ∉ closers) : Avoids ws us :=
  fun w hw hhead => hws w hw (h w hhead)

/-- Nothing is read after an expression that no access follows. -/
theorem reads_accesses_done {E : SyntaxError → Prop} {Q : Expr → List Lexeme → Prop} {start : Nat}
    {e : Expr} (h : Avoids accessMarks us) (hQ : Q e us) : ∀ n,
    Reads E us (accesses cx inner start n e) Q
  | 0 => reads_pure hQ
  | n + 1 => by
    unfold accesses
    refine reads_refused (h _ (by decide)) (reads_refused (h _ (by decide)) (reads_refused (h _ (by decide))
      (reads_refused (h _ (by decide)) (reads_refused (h _ (by decide)) (reads_pure hQ)))))

theorem reads_callChain_of_primary (hprimary : Reads Never (ls ++ us) (primary cx inner) (Restores x us))
    (hus : Avoids accessMarks us) : Reads Never (ls ++ us) (callChain cx inner) (Restores x us) := by
  unfold callChain
  refine reads_position fun start => reads_bind hprimary ?_
  rintro e _ ⟨he, rfl⟩
  exact reads_remaining (reads_accesses_done hus ⟨he, rfl⟩ _)

theorem reads_primary_group (h : Ready inner ls x) (us : List Lexeme) :
    Reads Never (group ls ++ us) (primary cx inner) (Restores x us) := by
  unfold primary
  refine reads_position fun start => reads_peek ?_
  change Reads Never _ (do
    advance cx
    let e ← inner.pipe
    expect cx ')'.toUInt8
    return e) _
  have heq : group ls ++ us = mark '(' :: (ls ++ mark ')' :: us) := by simp [group]
  rw [heq]
  refine reads_advance (reads_bind (h.pipe ?_) ?_)
  · intro w hw
    obtain rfl := Option.some.inj hw
    decide
  · rintro e _ ⟨he, rfl⟩
    exact reads_expected (reads_pure ⟨he, rfl⟩)

/-! ### Climbing the levels -/

/-- Without a sign in front, a prefixed expression is a chain of accesses. -/
theorem reads_prefixed_of_callChain {E : SyntaxError → Prop} {Q : Expr → List Lexeme → Prop}
    (hls : ∀ o, ls.head? ≠ some (.operator o)) (h : Reads E ls (callChain cx inner) Q) :
    ∀ n, Reads E ls (prefixed cx inner n) Q
  | 0 => h
  | n + 1 => by
    unfold prefixed
    exact reads_position fun start =>
      reads_refused (hls _) (reads_refused (hls _) (reads_refused (hls _) h))

theorem reads_operands_done {E : SyntaxError → Prop} {Q : Expr → List Lexeme → Prop} {operators : List Text}
    {operand : Reader Expr} {start : Nat} {e : Expr} (h : Avoids (operators.map .operator) us) (hQ : Q e us) :
    ∀ n, Reads E us (operands cx operators operand start n e) Q
  | 0 => reads_pure hQ
  | n + 1 => by
    unfold operands
    refine reads_acceptOperator ?_ fun _ => reads_pure hQ
    rintro o us' ho rfl
    exact absurd rfl (h _ (List.mem_map_of_mem ho))

/-- What is read without operators is read at every binary level. -/
theorem reads_binary_of_prefixed (h : Reads Never ls (prefixed cx inner ls.length) (Restores x us)) :
    ∀ {levels : List (List Text)}, Avoids (levels.flatten.map .operator) us →
    Reads Never ls (binary cx inner levels) (Restores x us)
  | [], _ => by
    unfold binary
    exact reads_remaining h
  | operators :: tighter, hus => by
    have hoperators : Avoids (operators.map .operator) us := fun w hw => hus w (by simp_all)
    have htighter : Avoids (tighter.flatten.map .operator) us := fun w hw => hus w (by simp_all)
    unfold binary
    refine reads_position fun start => reads_bind (reads_binary_of_prefixed h htighter) ?_
    rintro e _ ⟨he, rfl⟩
    exact reads_remaining (reads_operands_done hoperators ⟨he, rfl⟩ _)

/-- No pipe follows: the expression is done. -/
theorem reads_pipes_done {E : SyntaxError → Prop} {Q : Expr → List Lexeme → Prop} {expression : Reader Expr}
    {start : Nat} {e : Expr} (h : us.head? ≠ some (.operator "|")) (hQ : Q e us) :
    ∀ n, Reads E us (pipes cx expression start n e) Q
  | 0 => reads_pure hQ
  | n + 1 => by
    unfold pipes
    exact reads_refused h (reads_pure hQ)

theorem ready_of_conditional (h : ∀ {us}, Closing us →
    Reads Never (ls ++ us) (conditionalExpr cx inner) (Restores x us)) :
    Ready (around cx inner) ls x := by
  refine ⟨fun {us} hus => ?_, h⟩
  change Reads Never _ (piped cx (conditionalExpr cx inner)) _
  unfold piped
  refine reads_position fun start => reads_bind (h hus) ?_
  have hbar : Avoids [.operator "|"] us := hus.avoids (by decide)
  rintro e _ ⟨he, rfl⟩
  exact reads_remaining (reads_pipes_done (hbar _ List.mem_cons_self) ⟨he, rfl⟩ _)

theorem ready_of_binary (h : ∀ {us}, Closing us →
    Reads Never (ls ++ us) (binary cx inner binaryLevels) (Restores x us)) :
    Ready (around cx inner) ls x := by
  refine ready_of_conditional fun {us} hus => ?_
  unfold conditionalExpr
  refine reads_position fun start => reads_bind (h hus) ?_
  have hmark : Avoids [.operator "?"] us := hus.avoids (by decide)
  rintro e _ ⟨he, rfl⟩
  exact reads_refused (hmark _ List.mem_cons_self) (reads_pure ⟨he, rfl⟩)

def Leads (ls : List Lexeme) : Prop := ∃ w us, ls = w :: us ∧ ∀ o, w ≠ .operator o

theorem Leads.head? (h : Leads ls) (o : Text) : ls.head? ≠ some (.operator o) := by
  obtain ⟨w, ls, rfl, hw⟩ := h
  exact fun heq => hw o (Option.some.inj heq)

theorem Leads.append (h : Leads ls) (us : List Lexeme) : Leads (ls ++ us) := by
  obtain ⟨w, ls, rfl, hw⟩ := h
  exact ⟨w, ls ++ us, rfl, hw⟩

theorem leads_group (ls us : List Lexeme) : Leads (group ls ++ us) :=
  ⟨_, _, rfl, (fun _ h => nomatch h)⟩

theorem ready_of_callChain (hls : Leads ls)
    (h : ∀ {us}, Closing us → Reads Never (ls ++ us) (callChain cx inner) (Restores x us)) :
    Ready (around cx inner) ls x :=
  ready_of_binary fun {us} hus =>
    reads_binary_of_prefixed (reads_prefixed_of_callChain (hls.append us).head? (h hus) _)
      (hus.avoids (by decide))

theorem ready_of_primary (hls : Leads ls)
    (h : ∀ {us}, Closing us → Reads Never (ls ++ us) (primary cx inner) (Restores x us)) :
    Ready (around cx inner) ls x :=
  ready_of_callChain hls fun hus => reads_callChain_of_primary (h hus) (hus.avoids (by decide))

theorem Ready.group (h : Ready inner ls x) : Ready (around cx inner) (group ls) x :=
  ready_of_primary ⟨_, _, rfl, (fun _ h => nomatch h)⟩ fun {us} _ => reads_primary_group h us

/-! ### Lists -/

/-- The parsers read an operand, with its parentheses and without. -/
structure Operand (inner : Nested) (x : Expr) : Prop where
  bare : Ready inner x.spelled x
  grouped : Ready inner (TemplateCompiler.group x.spelled) x

theorem closing_mark {c : Char} (hc : mark c ∈ closers) (us : List Lexeme) : Closing (mark c :: us) := by
  intro w hw
  obtain rfl := Option.some.inj hw
  exact hc

/-- Items behind commas are read one by one, up to something that closes them. -/
theorem reads_itemsAfterCommas {us : List Lexeme} (hus : Closing us) (hcomma : us.head? ≠ some (mark ',')) :
    ∀ {es : List Expr}, (∀ e ∈ es, Operand inner e) → ∀ n, (Expr.spelledAll es ++ us).length ≤ n →
    Reads Never (Expr.spelledAll es ++ us) (itemsAfterCommas cx inner n) fun es' us' =>
      Expr.unplacedAll es' = Expr.unplacedAll es ∧ us' = us
  | [], _, 0, _ => reads_pure ⟨rfl, rfl⟩
  | [], _, n + 1, _ => by
    unfold itemsAfterCommas
    exact reads_refused hcomma (reads_pure ⟨rfl, rfl⟩)
  | e :: es, he, 0, hn => by simp [Expr.spelledAll] at hn
  | e :: es, he, n + 1, hn => by
    obtain ⟨he, hes⟩ := List.forall_mem_cons.mp he
    have hmore : Closing (Expr.spelledAll es ++ us) := by
      cases es with
      | nil => exact hus
      | cons => exact closing_mark (by decide) _
    rw [Expr.spelledAll, List.cons_append, List.append_assoc] at hn ⊢
    unfold itemsAfterCommas
    refine reads_accepted (reads_bind (he.grouped.pipe hmore) ?_)
    rintro e' _ ⟨he', rfl⟩
    refine reads_bind (reads_itemsAfterCommas hus hcomma hes n ?_) ?_
    · simp at hn ⊢
      omega
    · rintro es' _ ⟨hes', rfl⟩
      refine reads_pure ⟨?_, rfl⟩
      rw [Expr.unplacedAll, he', hes', ← Expr.unplacedAll]

theorem reads_items {c : Char} (hc : mark c ∈ closers) (hcomma : mark c ≠ mark ',') {es : List Expr}
    (hes : ∀ e ∈ es, Operand inner e) (us : List Lexeme) :
    Reads Never ((Expr.spelledAll es).tail ++ mark c :: us) (items cx inner c.toUInt8) fun es' us' =>
      Expr.unplacedAll es' = Expr.unplacedAll es ∧ us' = mark c :: us := by
  unfold items
  refine reads_peek ?_
  cases es with
  | nil =>
      rw [if_pos (by rfl)]
      exact reads_pure ⟨rfl, rfl⟩
  | cons e es =>
      obtain ⟨he, hes⟩ := List.forall_mem_cons.mp hes
      have hopen : mark '(' ≠ mark c := by
        intro h
        rw [← h] at hc
        exact absurd hc (by decide)
      rw [if_neg (by exact fun h => hopen (Option.some.inj h)), Expr.spelledAll, List.tail_cons,
        List.append_assoc]
      have hmore : Closing (Expr.spelledAll es ++ mark c :: us) := by
        cases es with
        | nil => exact closing_mark hc us
        | cons => exact closing_mark (by decide) _
      refine reads_bind (he.grouped.pipe hmore) ?_
      rintro e' _ ⟨he', rfl⟩
      refine reads_remaining (reads_bind (reads_itemsAfterCommas (closing_mark hc us)
        (fun h => hcomma (Option.some.inj h)) hes _ (Nat.le_refl _)) ?_)
      rintro es' _ ⟨hes', rfl⟩
      refine reads_pure ⟨?_, rfl⟩
      rw [Expr.unplacedAll, he', hes', ← Expr.unplacedAll]

theorem reads_name {α : Type} {E : SyntaxError → Prop} {Q : α → List Lexeme → Prop} {f : Text → Reader α}
    {name : Text} (hf : Reads E us (f name) Q) : Reads E (.word name :: us) (Parser.name cx >>= f) Q := by
  refine reads_bind (S := fun found us' => found = name ∧ us' = us) ?_ ?_
  · unfold Parser.name Lexeme.word
    refine reads_peek ?_
    split <;> exact reads_advance (reads_pure ⟨rfl, rfl⟩)
  · rintro _ _ ⟨rfl, rfl⟩
    exact hf

theorem reads_mapEntry {k : MapKey} (he : Operand inner x) (hus : Closing us) :
    Reads Never (k.lexeme :: mark ':' :: (group x.spelled ++ us)) (mapEntry cx inner) fun entry us' =>
      entry.1 = k ∧ entry.2.unplaced = x.unplaced ∧ us' = us := by
  unfold mapEntry
  refine reads_bind (S := fun key us' => key = k ∧ us' = mark ':' :: (group x.spelled ++ us)) ?_ ?_
  · unfold mapKey MapKey.lexeme Lexeme.word
    refine reads_peek ?_
    obtain ⟨name, quoted⟩ := k
    cases quoted with
    | true => exact reads_advance (reads_pure ⟨rfl, rfl⟩)
    | false =>
        cases keywords.contains name <;> exact reads_advance (reads_pure ⟨rfl, rfl⟩)
  · rintro _ _ ⟨rfl, rfl⟩
    refine reads_expected (reads_bind (he.grouped.pipe hus) ?_)
    rintro e _ ⟨he, rfl⟩
    exact reads_pure ⟨rfl, he, rfl⟩

theorem closing_spelledEntries {keys : List MapKey} {es : List Expr} (hus : Closing us) :
    Closing (Expr.spelledEntries keys es ++ us) := by
  fun_cases Expr.spelledEntries keys es with
  | case1 => exact closing_mark (by decide) _
  | case2 => exact hus

/-- Entries behind commas are read one by one, up to something that closes them. -/
theorem reads_entriesAfterCommas {us : List Lexeme} (hus : Closing us) (hcomma : us.head? ≠ some (mark ',')) :
    ∀ {keys : List MapKey} {es : List Expr}, keys.length = es.length → (∀ e ∈ es, Operand inner e) →
    ∀ n, (Expr.spelledEntries keys es ++ us).length ≤ n →
    Reads Never (Expr.spelledEntries keys es ++ us) (entriesAfterCommas cx inner n) fun entries us' =>
      entries.map (·.1) = keys ∧ Expr.unplacedAll (entries.map (·.2)) = Expr.unplacedAll es ∧ us' = us
  | [], [], _, _, 0, _ => reads_pure ⟨rfl, rfl, rfl⟩
  | [], [], _, _, n + 1, _ => by
    unfold entriesAfterCommas
    exact reads_refused hcomma (reads_pure ⟨rfl, rfl, rfl⟩)
  | k :: keys, e :: es, _, he, 0, hn => by simp [Expr.spelledEntries] at hn
  | k :: keys, e :: es, hlength, he, n + 1, hn => by
    obtain ⟨he, hes⟩ := List.forall_mem_cons.mp he
    rw [Expr.spelledEntries] at hn ⊢
    simp only [List.cons_append, List.append_assoc] at hn ⊢
    unfold entriesAfterCommas
    refine reads_accepted (reads_bind (reads_mapEntry he (closing_spelledEntries hus)) ?_)
    rintro ⟨k', e'⟩ _ ⟨rfl, he', rfl⟩
    refine reads_bind (reads_entriesAfterCommas hus hcomma (Nat.succ.inj hlength) hes n ?_) ?_
    · simp at hn ⊢
      omega
    · rintro entries _ ⟨hkeys, hvalues, rfl⟩
      refine reads_pure ⟨?_, ?_, rfl⟩
      · rw [List.map_cons, hkeys]
      · rw [List.map_cons, Expr.unplacedAll, he', hvalues, ← Expr.unplacedAll]

/-! ### Kinds of expressions -/

theorem ready_context (p : Place) : Ready (around cx inner) (Expr.spelled (.context p)) (.context p) :=
  ready_of_primary ⟨_, _, rfl, (fun _ h => nomatch h)⟩ fun {us} _ => by
    unfold primary
    refine reads_position fun start => reads_peek ?_
    change Reads Never _ (do
      advance cx
      return Expr.context (← placeFrom cx start)) _
    exact reads_advance (reads_placeFrom fun place => reads_pure ⟨rfl, rfl⟩)

theorem ready_literal {v : Primitive} (hv : v.Spellable) (p : Place) :
    Ready (around cx inner) (Expr.spelled (.literal p v)) (.literal p v) := by
  have hread : ∀ (start : Nat) (us : List Lexeme), Reads Never (v.lexeme :: us) (do
      advance cx
      return .literal (← placeFrom cx start) v) (Restores (.literal p v) us) := fun start us =>
    reads_advance (reads_placeFrom fun place => reads_pure ⟨rfl, rfl⟩)
  refine ready_of_primary ⟨_, _, rfl, ?_⟩ fun {us} _ => ?_
  · cases v <;> exact fun _ h => nomatch h
  · unfold primary
    refine reads_position fun start => reads_peek ?_
    cases v with
    | null => exact hread start us
    | bool b => cases b <;> exact hread start us
    | text t => exact hread start us
    | _ => cases hv

theorem ready_array {es : List Expr} (hes : ∀ e ∈ es, Operand inner e) (p : Place) :
    Ready (around cx inner) (Expr.spelled (.array p es)) (.array p es) :=
  ready_of_primary ⟨_, _, rfl, (fun _ h => nomatch h)⟩ fun {us} _ => by
    unfold primary
    refine reads_position fun start => reads_peek ?_
    change Reads Never _ (do
      advance cx
      let es ← items cx inner ']'.toUInt8
      expect cx ']'.toUInt8
      return Expr.array (← placeFrom cx start) es) _
    rw [Expr.spelled, List.cons_append, List.append_assoc]
    refine reads_advance (reads_bind (reads_items (by decide) (by decide) hes us) ?_)
    rintro es' _ ⟨hes', rfl⟩
    refine reads_expected (reads_placeFrom fun place => reads_pure ⟨?_, rfl⟩)
    exact congrArg (Expr.array Expr.nowhere) hes'

theorem ready_map {keys : List MapKey} {es : List Expr} (hlength : keys.length = es.length)
    (hes : ∀ e ∈ es, Operand inner e) (p : Place) :
    Ready (around cx inner) (Expr.spelled (.map p keys es)) (.map p keys es) :=
  ready_of_primary ⟨_, _, rfl, (fun _ h => nomatch h)⟩ fun {us} _ => by
    unfold primary
    refine reads_position fun start => reads_peek ?_
    change Reads Never _ (mapLiteral cx inner start) _
    rw [Expr.spelled, List.cons_append, List.append_assoc]
    unfold mapLiteral
    refine reads_advance ?_
    match keys, es, hlength with
    | [], [], _ => exact reads_accepted (reads_placeFrom fun place => reads_pure ⟨rfl, rfl⟩)
    | k :: keys, e :: es, hlength =>
        obtain ⟨he, hes⟩ := List.forall_mem_cons.mp hes
        have hopen : k.lexeme ≠ mark '\x7d' := by
          unfold MapKey.lexeme Lexeme.word
          split
          · exact fun h => nomatch h
          · split <;> exact fun h => nomatch h
        have hclose : Closing (mark '\x7d' :: us) := closing_mark (by decide) us
        rw [Expr.spelledEntries, List.tail_cons]
        simp only [List.cons_append, List.append_assoc]
        refine reads_refused (fun h => hopen (Option.some.inj h)) ?_
        refine reads_bind (reads_mapEntry he (closing_spelledEntries hclose)) ?_
        rintro ⟨k', e'⟩ _ ⟨rfl, he', rfl⟩
        refine reads_remaining (reads_bind (reads_entriesAfterCommas hclose (fun h => nomatch h)
          (Nat.succ.inj hlength) hes _ (Nat.le_refl _)) ?_)
        rintro entries _ ⟨hkeys, hvalues, rfl⟩
        refine reads_expected (reads_placeFrom fun place => reads_pure ⟨?_, rfl⟩)
        rw [List.map_cons, List.map_cons, hkeys, Expr.unplaced, Expr.unplacedAll, he', hvalues,
          ← Expr.unplacedAll, ← Expr.unplaced]

/-! ### Members and accesses -/

section Members

variable {Q : Expr → List Lexeme → Prop} {r : Expr} {start : Nat} {safe : Bool} {name : Text}

theorem reads_member_read (hus : Closing us)
    (hQ : ∀ place, Q (if safe then .safeRead place r name else .read place r name) us) :
    Reads Never (.word name :: us) (member cx inner r start safe) Q := by
  have hcall : Avoids [mark '(', .operator "="] us := hus.avoids (by decide)
  unfold member
  refine reads_name (reads_refused (hcall _ (by decide)) ?_)
  cases safe with
  | true =>
      refine reads_peek ?_
      rw [if_neg (hcall _ (by decide))]
      exact reads_placeFrom fun place => reads_pure (hQ place)
  | false =>
      exact reads_refused (hcall _ (by decide)) (reads_placeFrom fun place => reads_pure (hQ place))

theorem reads_member_call {args : List Expr} (hargs : ∀ e ∈ args, Operand inner e)
    (hQ : ∀ place args', Expr.unplacedAll args' = Expr.unplacedAll args →
      Q (if safe then .safeMethod place r name args' else .method place r name args') us) :
    Reads Never (.word name :: mark '(' :: ((Expr.spelledAll args).tail ++ mark ')' :: us))
      (member cx inner r start safe) Q := by
  unfold member
  refine reads_name (reads_accepted (reads_bind (reads_items (by decide) (by decide) hargs us) ?_))
  rintro args' _ ⟨hargs', rfl⟩
  exact reads_expected (reads_placeFrom fun place => reads_pure (hQ place args' hargs'))

theorem reads_allowAssignment_action {α : Type} {E : SyntaxError → Prop} {Q : α → List Lexeme → Prop}
    {f : Unit → Reader α} (haction : cx.action = true) (hf : Reads E us (f ()) Q) :
    Reads E us (allowAssignment cx >>= f) Q := by
  unfold allowAssignment
  rw [haction]
  exact hf

theorem reads_member_write (haction : cx.action = true) {v : Expr} (hv : Operand inner v) (hus : Closing us)
    (hQ : ∀ place v', v'.unplaced = v.unplaced → Q (.write place r name v') us) :
    Reads Never (.word name :: .operator "=" :: (group v.spelled ++ us)) (member cx inner r start false) Q := by
  unfold member
  refine reads_name (reads_refused (fun h => nomatch h) (reads_accepted ?_))
  refine reads_allowAssignment_action haction (reads_bind (hv.grouped.conditional hus) ?_)
  rintro v' _ ⟨hv', rfl⟩
  exact reads_placeFrom fun place => reads_pure (hQ place v' hv')

/-- A bare name is a member of the context. -/
theorem reads_primary_bare {us : List Lexeme} (hname : name ∉ keywords)
    (h : ∀ start place, Reads Never (.word name :: us) (member cx inner (.context place) start false) Q) :
    Reads Never (.word name :: us) (primary cx inner) Q := by
  have hword : Lexeme.word name = .identifier name := by
    unfold Lexeme.word
    rw [if_neg fun h => hname (List.contains_iff_mem.mp h)]
  rw [hword] at h ⊢
  unfold primary
  exact reads_position fun start => reads_peek (h start _)

/-- An expression in parentheses, and what follows it. -/
theorem reads_callChain_access {us : List Lexeme} (hr : Operand inner r)
    (h : ∀ start r', r'.unplaced = r.unplaced → Reads Never us (accesses cx inner start us.length r') Q) :
    Reads Never (group r.spelled ++ us) (callChain cx inner) Q := by
  unfold callChain
  refine reads_position fun start => reads_bind (reads_primary_group hr.bare us) ?_
  rintro r' _ ⟨hr', rfl⟩
  exact reads_remaining (h start r' hr')

/-- A member is read as it was written, of the context or of another receiver. -/
theorem ready_member {ls : List Lexeme} (hr : r.isContext = false → Operand inner r)
    (hname : Expr.SpellableName r name)
    (h : ∀ {us}, Closing us → ∀ start r', r'.unplaced = r.unplaced →
      Reads Never (.word name :: (ls ++ us)) (member cx inner r' start false) (Restores x us)) :
    Ready (around cx inner) (Expr.spelled.receiver r r.spelled ++ .word name :: ls) x := by
  unfold Expr.spelled.receiver
  split
  · next hcontext =>
      have hplace : ∀ place, (Expr.context place).unplaced = r.unplaced := by
        cases r with
        | context => exact fun _ => rfl
        | _ => cases hcontext
      refine ready_of_primary ⟨_, _, rfl, ?_⟩ fun {us} hus =>
        reads_primary_bare (hname.2 hcontext) fun start place => h hus start _ (hplace place)
      intro o
      unfold Lexeme.word
      split <;> exact fun h => nomatch h
  · next hcontext =>
    refine ready_of_callChain (by rw [List.append_assoc]; exact leads_group _ _) fun {us} hus => ?_
    simp only [List.append_assoc, List.cons_append, List.nil_append]
    refine reads_callChain_access (hr (eq_false_of_ne_true hcontext)) fun start r' hr' => ?_
    rw [List.length_cons]
    unfold accesses
    refine reads_accepted (reads_bind (h hus start r' hr') ?_)
    rintro e _ ⟨he, rfl⟩
    exact reads_accesses_done (hus.avoids (by decide)) ⟨he, rfl⟩ _

theorem ready_read (hr : r.isContext = false → Operand inner r) (hname : Expr.SpellableName r name) (p : Place) :
    Ready (around cx inner) (Expr.spelled (.read p r name)) (.read p r name) :=
  ready_member hr hname fun hus _ _ hr' =>
    reads_member_read hus fun _ => ⟨congrArg (Expr.read Expr.nowhere · name) hr', rfl⟩

theorem ready_write (haction : cx.action = true) {v : Expr} (hr : r.isContext = false → Operand inner r)
    (hname : Expr.SpellableName r name) (hv : Operand inner v) (p : Place) :
    Ready (around cx inner) (Expr.spelled (.write p r name v)) (.write p r name v) :=
  ready_member hr hname fun hus _ r' hr' =>
    reads_member_write haction hv hus fun _ v' hv' => by
      refine ⟨?_, rfl⟩
      change Expr.write Expr.nowhere r'.unplaced name v'.unplaced = _
      rw [hr', hv']
      rfl

theorem ready_method {args : List Expr} (hr : r.isContext = false → Operand inner r)
    (hname : Expr.SpellableName r name) (hargs : ∀ e ∈ args, Operand inner e) (p : Place) :
    Ready (around cx inner) (Expr.spelled (.method p r name args)) (.method p r name args) := by
  refine ready_member hr hname fun {us} hus start r' hr' => ?_
  rw [List.cons_append, List.append_assoc]
  refine reads_member_call hargs fun place args' hargs' => ⟨?_, rfl⟩
  change Expr.method Expr.nowhere r'.unplaced name (Expr.unplacedAll args') = _
  rw [hr', hargs']
  rfl

/-- An access to an expression in parentheses is read as it was written. -/
theorem ready_access {ls : List Lexeme} (hr : Operand inner r)
    (h : ∀ {us}, Closing us → ∀ start r', r'.unplaced = r.unplaced →
      Reads Never (ls ++ us) (accesses cx inner start (ls ++ us).length r') (Restores x us)) :
    Ready (around cx inner) (group r.spelled ++ ls) x := by
  refine ready_of_callChain (leads_group _ _) fun {us} hus => ?_
  rw [List.append_assoc]
  exact reads_callChain_access hr fun start r' hr' => h hus start r' hr'

theorem ready_safeRead (hr : Operand inner r) (p : Place) :
    Ready (around cx inner) (Expr.spelled (.safeRead p r name)) (.safeRead p r name) := by
  refine ready_access hr fun {us} hus start r' hr' => ?_
  unfold accesses
  refine reads_refused (fun h => nomatch h) (reads_accepted (reads_bind
    (reads_member_read (Q := Restores (.safeRead p r name) us) hus fun place => ⟨?_, rfl⟩) ?_))
  · exact congrArg (Expr.safeRead Expr.nowhere · name) hr'
  · rintro e _ ⟨he, rfl⟩
    exact reads_accesses_done (hus.avoids (by decide)) ⟨he, rfl⟩ _

theorem ready_safeMethod {args : List Expr} (hr : Operand inner r) (hargs : ∀ e ∈ args, Operand inner e)
    (p : Place) :
    Ready (around cx inner) (Expr.spelled (.safeMethod p r name args)) (.safeMethod p r name args) := by
  refine ready_access hr fun {us} hus start r' hr' => ?_
  simp only [List.cons_append, List.append_assoc, List.nil_append, List.length_cons]
  unfold accesses
  refine reads_refused (fun h => nomatch h) (reads_accepted (reads_bind
    (reads_member_call (Q := Restores (.safeMethod p r name args) us) hargs fun place args' hargs' =>
      ⟨?_, rfl⟩) ?_))
  · change Expr.safeMethod Expr.nowhere r'.unplaced name (Expr.unplacedAll args') = _
    rw [hr', hargs']
    rfl
  · rintro e _ ⟨he, rfl⟩
    exact reads_accesses_done (hus.avoids (by decide)) ⟨he, rfl⟩ _

theorem ready_index {k : Expr} (hr : Operand inner r) (hk : Operand inner k) (p : Place) :
    Ready (around cx inner) (Expr.spelled (.index p r k)) (.index p r k) := by
  refine ready_access hr fun {us} hus start r' hr' => ?_
  simp only [List.cons_append, List.append_assoc, List.nil_append, List.length_cons]
  unfold accesses
  refine reads_refused (fun h => nomatch h) (reads_refused (fun h => nomatch h) (reads_accepted
    (reads_bind (hk.grouped.pipe (closing_mark (by decide) us)) ?_)))
  rintro k' _ ⟨hk', rfl⟩
  have hassign : Avoids [.operator "="] us := hus.avoids (by decide)
  refine reads_expected (reads_refused (hassign _ List.mem_cons_self) (reads_placeFrom fun place => ?_))
  refine reads_accesses_done (hus.avoids (by decide)) ⟨?_, rfl⟩ _
  change Expr.index Expr.nowhere r'.unplaced k'.unplaced = _
  rw [hr', hk']
  rfl

theorem ready_indexWrite (haction : cx.action = true) {k v : Expr} (hr : Operand inner r)
    (hk : Operand inner k) (hv : Operand inner v) (p : Place) :
    Ready (around cx inner) (Expr.spelled (.indexWrite p r k v)) (.indexWrite p r k v) := by
  refine ready_access hr fun {us} hus start r' hr' => ?_
  simp only [List.cons_append, List.append_assoc, List.length_cons]
  unfold accesses
  refine reads_refused (fun h => nomatch h) (reads_refused (fun h => nomatch h) (reads_accepted
    (reads_bind (hk.grouped.pipe (closing_mark (by decide) _)) ?_)))
  rintro k' _ ⟨hk', rfl⟩
  refine reads_expected (reads_accepted (reads_allowAssignment_action haction
    (reads_bind (hv.grouped.conditional hus) ?_)))
  rintro v' _ ⟨hv', rfl⟩
  refine reads_placeFrom fun place => reads_accesses_done (hus.avoids (by decide)) ⟨?_, rfl⟩ _
  change Expr.indexWrite Expr.nowhere r'.unplaced k'.unplaced v'.unplaced = _
  rw [hr', hk', hv']
  rfl

theorem ready_call {args : List Expr} (hr : Operand inner r) (hargs : ∀ e ∈ args, Operand inner e)
    (p : Place) : Ready (around cx inner) (Expr.spelled (.call p r args)) (.call p r args) := by
  refine ready_access hr fun {us} hus start r' hr' => ?_
  simp only [List.cons_append, List.append_assoc, List.nil_append, List.length_cons]
  unfold accesses
  refine reads_refused (fun h => nomatch h) (reads_refused (fun h => nomatch h)
    (reads_refused (head?_ne (by decide) _) (reads_accepted
      (reads_bind (reads_items (by decide) (by decide) hargs us) ?_))))
  rintro args' _ ⟨hargs', rfl⟩
  refine reads_expected (reads_placeFrom fun place => ?_)
  refine reads_accesses_done (hus.avoids (by decide)) ⟨?_, rfl⟩ _
  change Expr.call Expr.nowhere r'.unplaced (Expr.unplacedAll args') = _
  rw [hr', hargs']
  rfl

theorem ready_present (hr : Operand inner r) (p : Place) :
    Ready (around cx inner) (Expr.spelled (.present p r)) (.present p r) := by
  refine ready_access hr fun {us} hus start r' hr' => ?_
  simp only [List.cons_append, List.nil_append, List.length_cons]
  unfold accesses
  refine reads_refused (fun h => nomatch h) (reads_refused (head?_ne (by decide) _)
    (reads_refused (fun h => nomatch h)
    (reads_refused (fun h => nomatch h) (reads_accepted (reads_placeFrom fun place => ?_)))))
  exact reads_accesses_done (hus.avoids (by decide))
    ⟨congrArg (Expr.present Expr.nowhere) hr', rfl⟩ _

end Members

/-! ### Operators -/

/-- An operand is read at every binary level whose operators do not follow. -/
theorem reads_binary_group (hx : Operand inner x) {levels : List (List Text)} (haccess : Avoids accessMarks us)
    (hoperators : Avoids (levels.flatten.map .operator) us) :
    Reads Never (group x.spelled ++ us) (binary cx inner levels) (Restores x us) :=
  reads_binary_of_prefixed (reads_prefixed_of_callChain (leads_group _ us).head?
    (reads_callChain_of_primary (reads_primary_group hx.bare us) haccess) _) hoperators

theorem ready_not (hx : Operand inner x) (p : Place) :
    Ready (around cx inner) (Expr.spelled (.not p x)) (.not p x) := by
  refine ready_of_binary fun {us} hus => reads_binary_of_prefixed ?_ (hus.avoids (by decide))
  rw [Expr.spelled, List.cons_append, List.length_cons]
  unfold prefixed
  refine reads_position fun start => reads_refused (head?_ne (by decide) _)
    (reads_refused (head?_ne (by decide) _) (reads_accepted (reads_bind
      (reads_prefixed_of_callChain (leads_group _ us).head?
        (reads_callChain_of_primary (reads_primary_group hx.bare us) (hus.avoids (by decide))) _) ?_)))
  rintro e _ ⟨he, rfl⟩
  exact reads_placeFrom fun place => reads_pure ⟨congrArg (Expr.not Expr.nowhere) he, rfl⟩

/-- An operation is read at the level of its operator, and so at all weaker ones. -/
theorem reads_binary_operation {o : Text} {y : Expr} (haccess : .operator o ∉ accessMarks)
    (hx : Operand inner x) (hy : Operand inner y) (hus : Closing us) (p : Place) :
    ∀ {levels : List (List Text)}, o ∈ levels.flatten → Avoids (levels.flatten.map .operator) us →
    Reads Never (group x.spelled ++ .operator o :: (group y.spelled ++ us)) (binary cx inner levels)
      (Restores (.binary p o x y) us)
  | [], ho, _ => nomatch ho
  | operators :: tighter, ho, hoperators => by
    have hweak : Avoids (operators.map .operator) us := fun w hw => hoperators w (by simp_all)
    have htight : Avoids (tighter.flatten.map .operator) us := fun w hw => hoperators w (by simp_all)
    unfold binary
    refine reads_position fun start => ?_
    by_cases hmem : o ∈ tighter.flatten
    · refine reads_bind (reads_binary_operation haccess hx hy hus p hmem htight) ?_
      rintro e _ ⟨he, rfl⟩
      exact reads_remaining (reads_operands_done hweak ⟨he, rfl⟩ _)
    · have hhere : o ∈ operators := by
        rw [List.flatten_cons] at ho
        exact (List.mem_append.mp ho).resolve_right hmem
      have hother : Lexeme.operator o ∉ tighter.flatten.map .operator := by
        simpa using hmem
      refine reads_bind (reads_binary_group hx (avoids_cons haccess _) (avoids_cons hother _)) ?_
      rintro x' _ ⟨hx', rfl⟩
      refine reads_remaining ?_
      rw [List.length_cons]
      unfold operands
      refine reads_acceptOperator ?_ fun h => absurd rfl (h o hhere)
      rintro _ _ - ⟨⟩
      refine reads_bind (reads_binary_group hy (hus.avoids (by decide)) htight) ?_
      rintro y' _ ⟨hy', rfl⟩
      refine reads_placeFrom fun place => reads_operands_done hweak ⟨?_, rfl⟩ _
      change Expr.binary Expr.nowhere o x'.unplaced y'.unplaced = _
      rw [hx', hy']
      rfl

theorem ready_binary {o : Text} {y : Expr} (ho : o ∈ binaryLevels.flatten) (hx : Operand inner x)
    (hy : Operand inner y) (p : Place) :
    Ready (around cx inner) (Expr.spelled (.binary p o x y)) (.binary p o x y) := by
  have hall : ∀ o ∈ binaryLevels.flatten, .operator o ∉ accessMarks := by decide
  refine ready_of_binary fun {us} hus => ?_
  rw [Expr.spelled, List.append_assoc]
  exact reads_binary_operation (hall o ho) hx hy hus p ho (hus.avoids (by decide))

theorem ready_conditional {y n : Expr} (hx : Operand inner x) (hy : Operand inner y) (hn : Operand inner n)
    (p : Place) :
    Ready (around cx inner) (Expr.spelled (.conditional p x y n)) (.conditional p x y n) := by
  refine ready_of_conditional fun {us} hus => ?_
  rw [Expr.spelled]
  simp only [List.cons_append, List.append_assoc]
  unfold conditionalExpr
  refine reads_position fun start => reads_bind
    (reads_binary_group hx (avoids_cons (by decide) _) (avoids_cons (by decide) _)) ?_
  rintro x' _ ⟨hx', rfl⟩
  refine reads_accepted (reads_bind (hy.grouped.pipe (closing_mark (by decide) _)) ?_)
  rintro y' _ ⟨hy', rfl⟩
  refine reads_accepted (reads_bind (hn.grouped.pipe hus) ?_)
  rintro n' _ ⟨hn', rfl⟩
  refine reads_placeFrom fun place => reads_pure ⟨?_, rfl⟩
  change Expr.conditional Expr.nowhere x'.unplaced y'.unplaced n'.unplaced = _
  rw [hx', hy', hn']
  rfl

/-! ### Whole expressions -/

/-- Parsers that are deep enough read an operand with its parentheses and without. -/
theorem operand_of_ready (h : ∀ n, x.spelled.length ≤ n + 1 → Ready (Nested.ofDepth cx (n + 1)) x.spelled x)
    {n : Nat} (hn : x.spelled.length + 2 ≤ n) : Operand (Nested.ofDepth cx n) x := by
  obtain ⟨m, rfl⟩ : ∃ m, n = m + 2 := ⟨n - 2, by omega⟩
  exact ⟨h (m + 1) (by omega), (h m (by omega)).group⟩

end Levels

section Whole

theorem length_group (ls : List Lexeme) : (group ls).length = ls.length + 2 := by simp [group]

theorem length_receiver {r : Expr} (h : r.isContext = false) (ls : List Lexeme) :
    (Expr.spelled.receiver r ls).length = ls.length + 3 := by
  rw [Expr.spelled.receiver, if_neg (Bool.eq_false_iff.mp h), List.length_append, length_group]
  rfl

variable {cx : Setting}

mutual

/-- An expression is read by all parsers that are deep enough for its lexemes. -/
theorem ready_spelled (haction : cx.action = true) : ∀ {e : Expr}, e.Spellable → ∀ n, e.spelled.length ≤ n + 1 →
    Ready (Nested.ofDepth cx (n + 1)) e.spelled e
  | .context p, _, n, _ => ready_context p
  | .literal p v, h, n, _ => ready_literal h p
  | .conditional p c y e, h, n, hn => by
      simp only [Expr.spelled, List.length_append, List.length_cons, length_group] at hn
      exact ready_conditional (operand_of_ready (ready_spelled haction h.1) (by omega))
        (operand_of_ready (ready_spelled haction h.2.1) (by omega)) (operand_of_ready (ready_spelled haction h.2.2) (by omega)) p
  | .read p r x, h, n, hn => by
      refine ready_read (fun hr => operand_of_ready (ready_spelled haction h.1) ?_) h.2 p
      simp only [Expr.spelled, List.length_append, List.length_cons, length_receiver hr] at hn
      omega
  | .write p r x v, h, n, hn => by
      simp only [Expr.spelled, List.length_append, List.length_cons, length_group] at hn
      refine ready_write haction (fun hr => operand_of_ready (ready_spelled haction h.1) ?_) h.2.1
        (operand_of_ready (ready_spelled haction h.2.2) (by omega)) p
      rw [length_receiver hr] at hn
      omega
  | .safeRead p r x, h, n, hn => by
      simp only [Expr.spelled, List.length_append, List.length_cons, length_group] at hn
      exact ready_safeRead (operand_of_ready (ready_spelled haction h.1) (by omega)) p
  | .index p o k, h, n, hn => by
      simp only [Expr.spelled, List.length_append, List.length_cons, length_group] at hn
      exact ready_index (operand_of_ready (ready_spelled haction h.1) (by omega))
        (operand_of_ready (ready_spelled haction h.2) (by omega)) p
  | .indexWrite p o k v, h, n, hn => by
      simp only [Expr.spelled, List.length_append, List.length_cons, length_group] at hn
      exact ready_indexWrite haction (operand_of_ready (ready_spelled haction h.1) (by omega))
        (operand_of_ready (ready_spelled haction h.2.1) (by omega)) (operand_of_ready (ready_spelled haction h.2.2) (by omega)) p
  | .method p r x es, h, n, hn => by
      simp only [Expr.spelled, List.length_append, List.length_cons, List.length_tail] at hn
      refine ready_method (fun hr => operand_of_ready (ready_spelled haction h.1) ?_) h.2.1
        (operand_spelledAll haction h.2.2 n (by omega)) p
      rw [length_receiver hr] at hn
      omega
  | .safeMethod p r x es, h, n, hn => by
      simp only [Expr.spelled, List.length_append, List.length_cons, List.length_tail, length_group] at hn
      exact ready_safeMethod (operand_of_ready (ready_spelled haction h.1) (by omega))
        (operand_spelledAll haction h.2.2 n (by omega)) p
  | .call p f es, h, n, hn => by
      simp only [Expr.spelled, List.length_append, List.length_cons, List.length_tail, length_group] at hn
      exact ready_call (operand_of_ready (ready_spelled haction h.1) (by omega))
        (operand_spelledAll haction h.2 n (by omega)) p
  | .binary p o l r, h, n, hn => by
      simp only [Expr.spelled, List.length_append, List.length_cons, length_group] at hn
      exact ready_binary h.1 (operand_of_ready (ready_spelled haction h.2.1) (by omega))
        (operand_of_ready (ready_spelled haction h.2.2) (by omega)) p
  | .not p e, h, n, hn => by
      simp only [Expr.spelled, List.length_cons, length_group] at hn
      exact ready_not (operand_of_ready (ready_spelled haction (e := e) h) (by omega)) p
  | .present p e, h, n, hn => by
      simp only [Expr.spelled, List.length_append, List.length_cons, length_group] at hn
      exact ready_present (operand_of_ready (ready_spelled haction (e := e) h) (by omega)) p
  | .array p es, h, n, hn => by
      simp only [Expr.spelled, List.length_append, List.length_cons, List.length_tail] at hn
      have hes : Expr.SpellableAll es := h
      exact ready_array (operand_spelledAll haction hes n (by omega)) p
  | .map p keys es, h, n, hn => by
      simp only [Expr.spelled, List.length_append, List.length_cons, List.length_tail] at hn
      exact ready_map h.1 (operand_spelledEntries haction h.1 h.2.2 n (by omega)) p
  | .chain .., h, _, _ | .interpolation .., h, _, _ | .pipe .., h, _, _ | .quote .., h, _, _
  | .builtin .., h, _, _ => h.elim

theorem operand_spelledAll (haction : cx.action = true) : ∀ {es : List Expr}, Expr.SpellableAll es →
    ∀ n, (Expr.spelledAll es).length ≤ n + 1 → ∀ x ∈ es, Operand (Nested.ofDepth cx n) x
  | [], _, _, _ => List.forall_mem_nil _
  | e :: es, h, n, hn => by
      simp only [Expr.spelledAll, List.length_append, List.length_cons, length_group] at hn
      exact List.forall_mem_cons.mpr ⟨operand_of_ready (ready_spelled haction h.1) (by omega),
        operand_spelledAll haction h.2 n (by omega)⟩

theorem operand_spelledEntries (haction : cx.action = true) : ∀ {keys : List MapKey} {es : List Expr}, keys.length = es.length →
    Expr.SpellableAll es → ∀ n, (Expr.spelledEntries keys es).length ≤ n + 1 →
    ∀ x ∈ es, Operand (Nested.ofDepth cx n) x
  | _, [], _, _, _, _ => List.forall_mem_nil _
  | k :: keys, e :: es, hlength, h, n, hn => by
      simp only [Expr.spelledEntries, List.length_append, List.length_cons, length_group] at hn
      exact List.forall_mem_cons.mpr ⟨operand_of_ready (ready_spelled haction h.1) (by omega),
        operand_spelledEntries haction (Nat.succ.inj hlength) h.2 n (by omega)⟩

end

/-- An item of a chain is read with parentheses and without. -/
theorem ready_item (haction : cx.action = true) (grouped : Bool) {e : Expr} (h : e.Spellable) {n : Nat}
    (hn : (e.item grouped).length ≤ n) : Ready (Nested.ofDepth cx n) (e.item grouped) e := by
  have hlength : 0 < (e.item grouped).length := by
    obtain ⟨w, ls, hls, -⟩ := Expr.starts_item grouped h
    rw [hls]
    exact Nat.succ_pos _
  obtain ⟨n, rfl⟩ : ∃ m, n = m + 1 := ⟨n - 1, by omega⟩
  cases grouped with
  | true =>
      rw [Expr.item, if_pos rfl, length_group] at hn
      exact (operand_of_ready (ready_spelled haction h) hn).grouped
  | false => exact ready_spelled haction h n hn

end Whole

/-! ### Chains -/

section Chains

variable {cx : Setting} {inner : Nested}

theorem reads_chainItems_nil {E : SyntaxError → Prop} {Q : List Expr → List Lexeme → Prop} (hQ : Q [] []) :
    ∀ n, Reads E [] (chainItems cx inner n) Q
  | 0 => reads_pure hQ
  | n + 1 => by
    unfold chainItems
    exact reads_peek (reads_pure hQ)

theorem reads_semicolons_done {E : SyntaxError → Prop} {Q : Unit → List Lexeme → Prop} {us : List Lexeme}
    (h : us.head? ≠ some (mark ';')) (hQ : Q () us) : ∀ n, Reads E us (semicolons cx n) Q
  | 0 => reads_pure hQ
  | n + 1 => by
    unfold semicolons
    exact reads_refused h (reads_pure hQ)

theorem reads_chainItems_spelled (haction : cx.action = true) (grouped : Bool) (depth : Nat) :
    ∀ {e : Expr} {es : List Expr}, Expr.SpellableAll (e :: es) →
    (e.item grouped ++ Expr.spelledItems grouped es).length ≤ depth →
    ∀ n, (e.item grouped ++ Expr.spelledItems grouped es).length ≤ n →
    Reads Never (e.item grouped ++ Expr.spelledItems grouped es)
      (chainItems cx (Nested.ofDepth cx depth) n) fun es' us =>
        Expr.unplacedAll es' = Expr.unplacedAll (e :: es) ∧ us = []
  | e, es, h, hdepth, 0, hn => by
    obtain ⟨w, ls, hls, -⟩ := Expr.starts_item grouped h.1
    simp [hls] at hn
  | e, es, h, hdepth, n + 1, hn => by
    have hready : Ready (Nested.ofDepth cx depth) (e.item grouped) e := by
      refine ready_item haction grouped h.1 ?_
      rw [List.length_append] at hdepth
      omega
    have hclosing : Closing (Expr.spelledItems grouped es) := by
      cases es with
      | nil => exact fun _ h => nomatch h
      | cons => exact closing_mark (by decide) _
    have hsome : ¬ (e.item grouped ++ Expr.spelledItems grouped es).head?.isNone = true := by
      obtain ⟨w, ls, hls, -⟩ := Expr.starts_item grouped h.1
      rw [hls]
      exact Bool.false_ne_true
    unfold chainItems
    refine reads_peek ?_
    rw [if_neg hsome]
    refine reads_bind (hready.pipe hclosing) ?_
    rintro e' _ ⟨he', rfl⟩
    cases es with
    | nil =>
        refine reads_refused (fun h => nomatch h) (reads_peek ?_)
        refine reads_bind (reads_chainItems_nil (Q := fun es us => es = [] ∧ us = []) ⟨rfl, rfl⟩ n) ?_
        rintro _ _ ⟨rfl, rfl⟩
        exact reads_pure ⟨congrArg (· :: []) he', rfl⟩
    | cons x es =>
        have hnext : (x.item grouped ++ Expr.spelledItems grouped es).head? ≠ some (mark ';') := by
          obtain ⟨w, ls, hls, hw⟩ := Expr.starts_item grouped h.2.1
          rw [hls]
          exact head?_ne hw _
        rw [Expr.spelledItems_cons] at hn hdepth ⊢
        rw [List.length_append, List.length_cons] at hn hdepth
        refine reads_accepted ?_
        rw [haction, if_pos rfl]
        refine reads_remaining (reads_bind
          (reads_semicolons_done (Q := fun _ us => us = x.item grouped ++ Expr.spelledItems grouped es)
            hnext rfl _) ?_)
        rintro _ _ rfl
        refine reads_bind (reads_chainItems_spelled haction grouped depth h.2 (by omega) n (by omega)) ?_
        rintro es' _ ⟨hes', rfl⟩
        refine reads_pure ⟨?_, rfl⟩
        rw [Expr.unplacedAll, he', hes', ← Expr.unplacedAll]

/-- An expression or a chain is read as it was written. -/
theorem reads_chain_program (haction : cx.action = true) (grouped : Bool) {e : Expr} (h : e.SpellableProgram) :
    Reads Never (e.program grouped) (chain cx (Nested.ofDepth cx (e.program grouped).length)) fun e' us =>
      e'.unplaced = e.unplaced ∧ us = [] := by
  have hsingle : e.Spellable → e.program grouped = e.item grouped →
      Reads Never (e.program grouped) (chain cx (Nested.ofDepth cx (e.program grouped).length)) fun e' us =>
        e'.unplaced = e.unplaced ∧ us = [] := by
    intro he hprogram
    rw [hprogram, ← List.append_nil (e.item grouped)]
    have hall : Expr.SpellableAll [e] := ⟨he, trivial⟩
    unfold chain
    refine reads_position fun start => reads_remaining (reads_bind
      (reads_chainItems_spelled haction grouped _ hall (Nat.le_refl _) _ (Nat.le_refl _)) ?_)
    rintro es _ ⟨hes, rfl⟩
    have hlength := congrArg List.length hes
    rw [Expr.length_unplacedAll, Expr.length_unplacedAll] at hlength
    obtain ⟨e', rfl⟩ := List.length_eq_one_iff.mp hlength
    exact reads_pure ⟨(List.cons.inj hes).1, rfl⟩
  cases e with
  | chain p es =>
      obtain ⟨htwo, hes⟩ := h
      cases es with
      | nil => cases htwo
      | cons x es =>
          unfold chain
          refine reads_position fun start => reads_remaining (reads_bind
            (reads_chainItems_spelled haction grouped _ hes (Nat.le_refl _) _ (Nat.le_refl _)) ?_)
          rintro es' _ ⟨hes', rfl⟩
          have hlength := congrArg List.length hes'
          rw [Expr.length_unplacedAll, Expr.length_unplacedAll] at hlength
          split
          · rw [← hlength] at htwo
            exact absurd htwo (Nat.not_succ_le_self 1)
          · refine reads_placeFrom fun place => reads_pure ⟨?_, rfl⟩
            exact congrArg (Expr.chain Expr.nowhere) hes'
  | _ => exact hsingle h rfl

/-- A text that is not blank and has no lexical error is read by the parser for chains. -/
theorem parse_eq_chain (herror : ∀ t ∈ tokenize cx.input, ∀ m, t.lexeme ≠ .error m)
    (hblank : Text.isBlank cx.input = false) :
    parse cx = ((chain cx (Nested.ofDepth cx (tokenize cx.input).length)).run
      ⟨tokenize cx.input, cx.offset⟩).map (·.1) := by
  unfold parse
  dsimp only
  split
  · next m hfound =>
      obtain ⟨t, ht, hm⟩ := List.exists_of_findSome?_eq_some hfound
      split at hm
      · next m' hlexeme => exact absurd hlexeme (herror t ht m')
      · cases hm
  · rw [hblank, if_neg Bool.false_ne_true]

end Chains

end TemplateCompiler.Parser

namespace TemplateCompiler

open TemplateCompiler.Parser

/-- The text of an expression in full parentheses, with any separators between its lexemes, is read as the
expression. -/
theorem parseAction_program {e : Expr} (he : e.SpellableProgram) (grouped : Bool) {gaps : List Text}
    (hgaps : ∀ g ∈ gaps, g.all Lexer.isSeparator = true) (location : Text) (absolute : Int) :
    ∃ e', parseAction (spread gaps (e.program grouped)) location absolute = .ok e' ∧
      e'.unplaced = e.unplaced := by
  obtain ⟨hspellable, hjoined⟩ := Expr.writable_program grouped he
  have htokens : (tokenize (spread gaps (e.program grouped))).map Token.lexeme = e.program grouped :=
    lexemes_spread _ 0 hgaps hspellable hjoined
  have hlength := congrArg List.length htokens
  rw [List.length_map] at hlength
  have hblank : Text.isBlank (spread gaps (e.program grouped)) = false := by
    obtain ⟨w, ws, hprogram⟩ := Expr.program_eq_cons grouped he
    rw [hprogram] at hspellable ⊢
    refine isBlank_spread ?_ (hspellable w List.mem_cons_self) ws
    cases gaps with
    | nil => rfl
    | cons g gaps => exact hgaps g List.mem_cons_self
  have herror : ∀ t ∈ tokenize (spread gaps (e.program grouped)), ∀ m, t.lexeme ≠ .error m := by
    intro t ht m hlexeme
    have hspelled := hspellable t.lexeme (htokens ▸ List.mem_map_of_mem ht)
    rw [hlexeme] at hspelled
    exact hspelled
  let cx : Setting := ⟨spread gaps (e.program grouped), location, absolute, 0, true⟩
  have hreads := reads_chain_program (rfl : cx.action = true) grouped he
  rw [← hlength] at hreads
  obtain ⟨e', c, hrun, he', -⟩ | ⟨_, _, h⟩ :=
    hreads.run (c := ⟨tokenize (spread gaps (e.program grouped)), 0⟩) htokens
  · refine ⟨e', ?_, he'⟩
    rw [parseAction, parseExpression, parse_eq_chain herror hblank, hrun]
    rfl
  · exact h.elim

namespace Sample

/-- The chain `a?.b['\'\n'] = !c; {if: [x(this)!]}`. -/
def written : Expr :=
  let p : Place := ⟨none, none⟩
  let name (x : Text) : Expr := .read p (.context p) x
  .chain p [
    .indexWrite p (.safeRead p (name "a") "b") (.literal p (.text "'\n")) (.not p (name "c")),
    .map p [⟨"if", false⟩] [.array p [.present p (.method p (.context p) "x" [.context p])]]]

theorem spellable_written : written.SpellableProgram := by
  have hname : ∀ x ∈ ["a", "c", "x"], Expr.SpellableName (.context ⟨none, none⟩) (Text.ofString x) := by
    unfold Expr.SpellableName
    decide
  refine ⟨Nat.le_refl 2, ⟨⟨⟨trivial, hname "a" (by decide)⟩, rfl⟩, ?_, trivial, hname "c" (by decide)⟩, ?_, trivial⟩
  · exact (by decide : (0 : UInt8) ∉ Text.ofString "'\n")
  · refine ⟨rfl, List.forall_mem_singleton.mpr ?_, ⟨⟨trivial, hname "x" (by decide), trivial, trivial⟩, trivial⟩, trivial⟩
    exact (by decide : Text.isName (Text.ofString "if") = true)

/-- The chain is read back from its text, with gaps in front and before the first name. -/
theorem parseAction_written : written.SpellableProgram ∧
    spread ["\n", "", " "] (written.program false) =
      "\n(( a)?.b)[('\\'\\n')]=(!(c));\x7bif:([((x((this)))!)])\x7d" ∧
    ∃ e', parseAction (spread ["\n", "", " "] (written.program false)) "" 0 = .ok e' ∧
      e'.unplaced = written.unplaced := by
  refine ⟨spellable_written, by decide, ?_⟩
  exact parseAction_program spellable_written false (by decide) "" 0

end Sample

end TemplateCompiler
