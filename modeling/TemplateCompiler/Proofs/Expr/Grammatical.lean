import TemplateCompiler.Proofs.Expr.Grammar
import TemplateCompiler.Proofs.Expr.Reads

/-!
# What is read is grammatical

`Grammatical cx p D` says that the reader `p` takes lexemes off the front which are what it gives,
according to `D`, or fails with an error of the expression at hand. There is one lemma for each level of
the parser; those for repetitions are by induction on their bound, and `grammatical_ofDepth` is by
induction on the depth. `chain_program` is the statement for the whole parser: its result is a `Program`
of all its tokens, or one error.
-/

namespace TemplateCompiler.Parser

open Grammar

/-- The error is about the expression that is read. -/
def Concerns (cx : Setting) (err : SyntaxError) : Prop :=
  err.input = cx.input ∧ err.location = cx.location

/-- The lexemes taken off `ls` are `a`, according to `D`. -/
def Takes {α : Type} (D : List Lexeme → α → Prop) (ls : List Lexeme) (a : α) (us : List Lexeme) : Prop :=
  ∃ ts, ls = ts ++ us ∧ D ts a

def Grammatical {α : Type} (cx : Setting) (p : Reader α) (D : List Lexeme → α → Prop) : Prop :=
  ∀ ls, Reads (Concerns cx) ls p (Takes D ls)

/-- Parsers for expressions inside expressions that take expressions. -/
structure Nested.Grammatical (cx : Setting) (inner : Nested) : Prop where
  pipe : Parser.Grammatical cx inner.pipe (Derives cx.action .pipe)
  conditional : Parser.Grammatical cx inner.conditional (Derives cx.action .conditional)

section Steps

variable {cx : Setting} {α β : Type} {ls : List Lexeme} {Q : α → List Lexeme → Prop}

theorem reads_fail_concerns {cause : SyntaxCause} : Reads (Concerns cx) ls (fail cx cause : Reader α) Q :=
  reads_fail fun _ => ⟨rfl, rfl⟩

theorem reads_fail_then {cause : SyntaxCause} {f : β → Reader α} :
    Reads (Concerns cx) ls (fail cx cause >>= f) Q :=
  reads_bind (S := fun _ _ => False) reads_fail_concerns fun _ _ h => h.elim

/-- A reader that takes lexemes, and what comes after it. -/
theorem Grammatical.reads {p : Reader β} {D : List Lexeme → β → Prop} {f : β → Reader α}
    (hp : Grammatical cx p D)
    (hf : ∀ ts us b, ls = ts ++ us → D ts b → Reads (Concerns cx) us (f b) Q) :
    Reads (Concerns cx) ls (p >>= f) Q :=
  reads_bind (hp ls) fun b us ⟨ts, hls, hts⟩ => hf ts us b hls hts

theorem reads_closed {c : Char} {f : Unit → Reader α}
    (hf : ∀ us, ls = mark c :: us → Reads (Concerns cx) us (f ()) Q) :
    Reads (Concerns cx) ls (expect cx c.toUInt8 >>= f) Q :=
  reads_expect hf fun _ _ => ⟨rfl, rfl⟩

theorem grammatical_name : Grammatical cx (name cx) fun ts x => ∃ w, ts = [w] ∧ w.name? = some x := by
  intro ls
  unfold name
  refine reads_peek ?_
  cases ls with
  | nil => exact reads_fail_concerns
  | cons w us =>
      cases w with
      | identifier t => exact reads_advance (reads_pure ⟨[_], rfl, _, rfl, rfl⟩)
      | keyword t => exact reads_advance (reads_pure ⟨[_], rfl, _, rfl, rfl⟩)
      | _ => exact reads_fail_concerns

theorem grammatical_mapKey :
    Grammatical cx (mapKey cx) fun ts k => ∃ w, ts = [w] ∧ w.mapKey? = some k := by
  intro ls
  unfold mapKey
  refine reads_peek ?_
  cases ls with
  | nil => exact reads_fail_concerns
  | cons w us =>
      cases w with
      | identifier t => exact reads_advance (reads_pure ⟨[_], rfl, _, rfl, rfl⟩)
      | keyword t => exact reads_advance (reads_pure ⟨[_], rfl, _, rfl, rfl⟩)
      | string t => exact reads_advance (reads_pure ⟨[_], rfl, _, rfl, rfl⟩)
      | _ => exact reads_fail_concerns

theorem reads_allowAssignment {f : Unit → Reader α}
    (hf : cx.action = true → Reads (Concerns cx) ls (f ()) Q) :
    Reads (Concerns cx) ls (allowAssignment cx >>= f) Q := by
  unfold allowAssignment
  cases haction : cx.action with
  | true => exact hf haction
  | false => exact reads_fail_then

end Steps

section Levels

variable (cx : Setting) {inner : Nested} (h : inner.Grammatical cx)

include h

theorem grammatical_itemsAfterCommas : ∀ n,
    Grammatical cx (itemsAfterCommas cx inner n) (Each cx.action (mark ',') .pipe)
  | 0 => fun _ => reads_pure ⟨[], rfl, .nil⟩
  | n + 1 => by
    intro ls
    unfold itemsAfterCommas
    refine reads_accept ?_ fun _ => reads_pure ⟨[], rfl, .nil⟩
    rintro _ rfl
    refine h.pipe.reads ?_
    rintro ts us e rfl he
    refine (grammatical_itemsAfterCommas n).reads ?_
    rintro ts' us es rfl hes
    exact reads_pure ⟨mark ',' :: ts ++ ts', by simp, .cons he hes⟩

theorem grammatical_items (close : UInt8) : Grammatical cx (items cx inner close) (Items cx.action) := by
  intro ls
  unfold items
  refine reads_peek ?_
  split
  · exact reads_pure ⟨[], rfl, .none⟩
  · refine h.pipe.reads ?_
    rintro ts us e rfl he
    refine reads_remaining ((grammatical_itemsAfterCommas cx h _).reads ?_)
    rintro ts' us es rfl hes
    exact reads_pure ⟨ts ++ ts', by simp, .some (.cons he hes)⟩

theorem grammatical_mapEntry : Grammatical cx (mapEntry cx inner) fun ts entry =>
    ∃ w us, ts = w :: mark ':' :: us ∧ w.mapKey? = some entry.1 ∧ Derives cx.action .pipe us entry.2 := by
  intro ls
  unfold mapEntry
  refine grammatical_mapKey.reads ?_
  rintro _ us k rfl ⟨w, rfl, hw⟩
  refine reads_closed ?_
  rintro us rfl
  refine h.pipe.reads ?_
  rintro ts us e rfl he
  exact reads_pure ⟨w :: mark ':' :: ts, rfl, w, ts, rfl, hw, he⟩

theorem grammatical_entriesAfterCommas : ∀ n,
    Grammatical cx (entriesAfterCommas cx inner n) fun ts entries =>
      Entries cx.action ts (entries.map (·.1)) (entries.map (·.2))
  | 0 => fun _ => reads_pure ⟨[], rfl, .nil⟩
  | n + 1 => by
    intro ls
    unfold entriesAfterCommas
    refine reads_accept ?_ fun _ => reads_pure ⟨[], rfl, .nil⟩
    rintro _ rfl
    refine (grammatical_mapEntry cx h).reads ?_
    rintro _ us e rfl ⟨w, ts, rfl, hw, he⟩
    refine (grammatical_entriesAfterCommas n).reads ?_
    rintro ts' us es rfl hes
    exact reads_pure ⟨mark ',' :: w :: mark ':' :: ts ++ ts', by simp, .cons hw he hes⟩

theorem reads_mapLiteral (start : Nat) (us : List Lexeme) :
    Reads (Concerns cx) (mark '\x7b' :: us) (mapLiteral cx inner start)
      (Takes (Derives cx.action .primary) (mark '\x7b' :: us)) := by
  unfold mapLiteral
  refine reads_advance (reads_accept ?_ fun _ => ?_)
  · rintro us rfl
    exact reads_placeFrom fun place => reads_pure ⟨[_, _], rfl, .emptyMap place⟩
  · refine (grammatical_mapEntry cx h).reads ?_
    rintro _ us e rfl ⟨w, ts, rfl, hw, he⟩
    refine reads_remaining ((grammatical_entriesAfterCommas cx h _).reads ?_)
    rintro ts' us es rfl hes
    refine reads_closed ?_
    rintro us rfl
    refine reads_placeFrom fun place => reads_pure ?_
    exact ⟨mark '\x7b' :: (w :: mark ':' :: ts ++ ts') ++ [mark '\x7d'], by simp, .map place (.cons hw he hes)⟩

theorem grammatical_member (receiver : Expr) (start : Nat) (safe : Bool) :
    Grammatical cx (member cx inner receiver start safe) (Member cx.action safe receiver) := by
  intro ls
  unfold member
  refine grammatical_name.reads ?_
  rintro _ us x rfl ⟨w, rfl, hw⟩
  refine reads_accept ?_ fun _ => ?_
  · rintro us rfl
    refine (grammatical_items cx h _).reads ?_
    rintro ts us args rfl hargs
    refine reads_closed ?_
    rintro us rfl
    refine reads_placeFrom fun place => reads_pure ⟨w :: mark '(' :: ts ++ [mark ')'], by simp, ?_⟩
    cases safe with
    | true => exact .safeMethod place hw hargs
    | false => exact .method place hw hargs
  · cases safe with
    | true =>
        refine reads_peek ?_
        split
        · exact reads_fail_then
        · exact reads_placeFrom fun place => reads_pure ⟨[w], rfl, .safeRead place hw⟩
    | false =>
        refine reads_accept ?_ fun _ => ?_
        · rintro us rfl
          refine reads_allowAssignment fun haction => h.conditional.reads ?_
          rintro ts us v rfl hv
          exact reads_placeFrom fun place =>
            reads_pure ⟨w :: .operator "=" :: ts, rfl, .write place haction hw hv⟩
        · exact reads_placeFrom fun place => reads_pure ⟨[w], rfl, .read place hw⟩

theorem grammatical_primary : Grammatical cx (primary cx inner) (Derives cx.action .primary) := by
  intro ls
  unfold primary
  refine reads_position fun start => reads_peek ?_
  have hliteral : ∀ {w : Lexeme} {us : List Lexeme} {v : Primitive}, w.literal? = some v →
      Reads (Concerns cx) (w :: us) (do
        advance cx
        return .literal (← placeFrom cx start) v)
        (Takes (Derives cx.action .primary) (w :: us)) := fun hv =>
    reads_advance (reads_placeFrom fun place => reads_pure ⟨[_], rfl, .literal place hv⟩)
  split
  · exact reads_fail_concerns
  · next d hhead =>
      obtain ⟨us, rfl⟩ := List.head?_eq_some_iff.mp hhead
      exact hliteral rfl
  · next t hhead =>
      obtain ⟨us, rfl⟩ := List.head?_eq_some_iff.mp hhead
      exact hliteral rfl
  · next t hhead =>
      obtain ⟨us, rfl⟩ := List.head?_eq_some_iff.mp hhead
      refine (grammatical_member cx h _ start false _).mono ?_
      rintro e us' ⟨ts, hts, he⟩
      obtain ⟨rfl, -⟩ | ⟨ts, rfl, -⟩ := List.cons_eq_append_iff.mp hts
      · exact absurd rfl he.ne_nil
      · exact ⟨_, hts, .bare _ he⟩
  · next w _ _ _ hhead =>
      obtain ⟨us, rfl⟩ := List.head?_eq_some_iff.mp hhead
      -- the cases of the other lexemes, in the order of the parser
      split
      · next hw =>
          subst hw
          refine reads_advance (h.pipe.reads ?_)
          rintro ts us e rfl he
          refine reads_closed ?_
          rintro us rfl
          exact reads_pure ⟨mark '(' :: ts ++ [mark ')'], by simp, .group he⟩
      split
      · next hw => rcases hw with rfl | rfl <;> exact hliteral rfl
      split
      · next hw =>
          subst hw
          exact hliteral rfl
      split
      · next hw =>
          subst hw
          exact hliteral rfl
      split
      · next hw =>
          subst hw
          exact reads_advance (reads_placeFrom fun place => reads_pure ⟨[_], rfl, .this place⟩)
      split
      · next hw =>
          subst hw
          refine reads_advance ((grammatical_items cx h _).reads ?_)
          rintro ts us es rfl hes
          refine reads_closed ?_
          rintro us rfl
          exact reads_placeFrom fun place =>
            reads_pure ⟨mark '[' :: ts ++ [mark ']'], by simp, .array place hes⟩
      split
      · next hw =>
          subst hw
          exact reads_mapLiteral cx h start us
      · exact reads_fail_concerns

/-- An access goes on with the expression it is read after. -/
theorem reads_accesses (start : Nat) : ∀ (n : Nat) {e : Expr} {ts : List Lexeme} (ls : List Lexeme),
    Derives cx.action .callChain ts e →
    Reads (Concerns cx) ls (accesses cx inner start n e) (Takes (Derives cx.action .callChain) (ts ++ ls))
  | 0, _, ts, ls, he => reads_pure ⟨ts, rfl, he⟩
  | n + 1, e, ts, ls, he => by
    -- a longer expression, of the lexemes up to those left
    have again : ∀ {e' : Expr} {ts' : List Lexeme} (us : List Lexeme), ts ++ ls = ts' ++ us →
        Derives cx.action .callChain ts' e' → Reads (Concerns cx) us (accesses cx inner start n e')
          (Takes (Derives cx.action .callChain) (ts ++ ls)) := by
      intro e' ts' us heq he'
      rw [heq]
      exact reads_accesses start n us he'
    unfold accesses
    refine reads_accept ?_ fun _ => reads_accept ?_ fun _ => reads_accept ?_ fun _ =>
      reads_accept ?_ fun _ => reads_accept ?_ fun _ => reads_pure ⟨ts, rfl, he⟩
    · rintro us rfl
      refine (grammatical_member cx h e start false).reads ?_
      rintro ts' us e' rfl hmember
      exact again us (by simp) (.member he hmember)
    · rintro us rfl
      refine (grammatical_member cx h e start true).reads ?_
      rintro ts' us e' rfl hmember
      exact again us (by simp) (.safeMember he hmember)
    · rintro us rfl
      refine h.pipe.reads ?_
      rintro ts' us key rfl hkey
      refine reads_closed ?_
      rintro us rfl
      refine reads_accept ?_ fun _ => ?_
      · rintro us rfl
        refine reads_allowAssignment fun haction => h.conditional.reads ?_
        rintro ts'' us value rfl hvalue
        refine reads_placeFrom fun place => ?_
        exact again us (by simp) (.indexWrite place haction he hkey hvalue)
      · refine reads_placeFrom fun place => ?_
        exact again us (by simp) (.index place he hkey)
    · rintro us rfl
      refine (grammatical_items cx h _).reads ?_
      rintro ts' us args rfl hargs
      refine reads_closed ?_
      rintro us rfl
      refine reads_placeFrom fun place => ?_
      exact again us (by simp) (.call place he hargs)
    · rintro us rfl
      refine reads_placeFrom fun place => ?_
      exact again us (by simp) (.present place he)

theorem grammatical_callChain : Grammatical cx (callChain cx inner) (Derives cx.action .callChain) := by
  intro ls
  unfold callChain
  refine reads_position fun start => (grammatical_primary cx h).reads ?_
  rintro ts us e rfl he
  exact reads_remaining (reads_accesses cx h start _ us (.tighter rfl he))

theorem grammatical_prefixed : ∀ n, Grammatical cx (prefixed cx inner n) (Derives cx.action .prefixed)
  | 0 => fun ls => (grammatical_callChain cx h ls).mono fun _ _ ⟨ts, hts, he⟩ =>
      ⟨ts, hts, .tighter rfl he⟩
  | n + 1 => by
    have again := grammatical_prefixed n
    intro ls
    unfold prefixed
    refine reads_position fun start => reads_accept ?_ fun _ => reads_accept ?_ fun _ =>
      reads_accept ?_ fun _ => grammatical_prefixed 0 ls
    · rintro us rfl
      refine again.reads ?_
      rintro ts us e rfl he
      exact reads_placeFrom fun place => reads_pure ⟨.operator "+" :: ts, rfl, .plus place _ he⟩
    · rintro us rfl
      refine again.reads ?_
      rintro ts us e rfl he
      exact reads_placeFrom fun place => reads_pure ⟨.operator "-" :: ts, rfl, .minus place _ he⟩
    · rintro us rfl
      refine again.reads ?_
      rintro ts us e rfl he
      exact reads_placeFrom fun place => reads_pure ⟨.operator "!" :: ts, rfl, .not place he⟩

omit h in
/-- Further operands go on with the operation they are read after. -/
theorem reads_operands {operand : Reader Expr} {l l' : Level} (hl : l.tighter? = some l')
    (hoperand : Grammatical cx operand (Derives cx.action l')) (start : Nat) :
    ∀ (n : Nat) {left : Expr} {ts : List Lexeme} (ls : List Lexeme), Derives cx.action l ts left →
    Reads (Concerns cx) ls (operands cx l.operators operand start n left)
      (Takes (Derives cx.action l) (ts ++ ls))
  | 0, _, ts, ls, hleft => reads_pure ⟨ts, rfl, hleft⟩
  | n + 1, left, ts, ls, hleft => by
    unfold operands
    refine reads_acceptOperator ?_ fun _ => reads_pure ⟨ts, rfl, hleft⟩
    rintro o us ho rfl
    refine hoperand.reads ?_
    rintro ts' us right rfl hright
    refine reads_placeFrom fun place => ?_
    have heq : ts ++ .operator o :: (ts' ++ us) = (ts ++ .operator o :: ts') ++ us := by simp
    rw [heq]
    exact reads_operands hl hoperand start n us (.binary place hl ho hleft hright)

/-- Lists of operators that are those of the levels from `l` down to the prefixed expressions. -/
def Stacked : List (List Text) → Level → Prop
  | [], l => l = .prefixed
  | operators :: levels, l => l.operators = operators ∧ ∃ l', l.tighter? = some l' ∧ Stacked levels l'

theorem grammatical_binary : ∀ {levels : List (List Text)} {l : Level}, Stacked levels l →
    Grammatical cx (binary cx inner levels) (Derives cx.action l)
  | [], _, rfl => fun ls => by
    unfold binary
    exact reads_remaining (grammatical_prefixed cx h _ ls)
  | _ :: _, l, ⟨rfl, l', hl, hlevels⟩ => by
    have htighter := grammatical_binary hlevels
    intro ls
    unfold binary
    refine reads_position fun start => htighter.reads ?_
    rintro ts us left rfl hleft
    exact reads_remaining (reads_operands cx hl htighter start _ us (.tighter hl hleft))

omit h in
theorem stacked_binaryLevels : Stacked binaryLevels .or :=
  ⟨rfl, _, rfl, rfl, _, rfl, rfl, _, rfl, rfl, _, rfl, rfl, _, rfl, rfl, _, rfl, rfl⟩

theorem grammatical_conditionalExpr :
    Grammatical cx (conditionalExpr cx inner) (Derives cx.action .conditional) := by
  intro ls
  unfold conditionalExpr
  refine reads_position fun start => (grammatical_binary cx h stacked_binaryLevels).reads ?_
  rintro ts us c rfl hc
  refine reads_accept ?_ fun _ => reads_pure ⟨ts, rfl, .tighter rfl hc⟩
  rintro us rfl
  refine h.pipe.reads ?_
  rintro ts' us yes rfl hyes
  refine reads_accept ?_ fun _ => ?_
  · rintro us rfl
    refine h.pipe.reads ?_
    rintro ts'' us no rfl hno
    refine reads_placeFrom fun place => reads_pure ?_
    exact ⟨ts ++ .operator "?" :: ts' ++ mark ':' :: ts'', by simp, .conditional place hc hyes hno⟩
  · exact reads_position fun stop =>
      reads_fail_then

omit h

theorem grammatical_pipeArguments {expression : Reader Expr}
    (he : Grammatical cx expression (Derives cx.action .conditional)) : ∀ n,
    Grammatical cx (pipeArguments cx expression n) (Each cx.action (mark ':') .conditional)
  | 0 => fun _ => reads_pure ⟨[], rfl, .nil⟩
  | n + 1 => by
    intro ls
    unfold pipeArguments
    refine reads_accept ?_ fun _ => reads_pure ⟨[], rfl, .nil⟩
    rintro us rfl
    refine he.reads ?_
    rintro ts us e rfl he'
    refine (grammatical_pipeArguments he n).reads ?_
    rintro ts' us es rfl hes
    exact reads_pure ⟨mark ':' :: ts ++ ts', by simp, .cons he' hes⟩

theorem reads_pipes {expression : Reader Expr}
    (hexpression : Grammatical cx expression (Derives cx.action .conditional)) (start : Nat) :
    ∀ (n : Nat) {e : Expr} {ts : List Lexeme} (ls : List Lexeme), Derives cx.action .pipe ts e →
    Reads (Concerns cx) ls (pipes cx expression start n e) (Takes (Derives cx.action .pipe) (ts ++ ls))
  | 0, _, ts, ls, he => reads_pure ⟨ts, rfl, he⟩
  | n + 1, e, ts, ls, he => by
    unfold pipes
    refine reads_accept ?_ fun _ => reads_pure ⟨ts, rfl, he⟩
    rintro us rfl
    split
    · exact reads_fail_then
    · next haction =>
        refine grammatical_name.reads ?_
        rintro _ us x rfl ⟨w, rfl, hw⟩
        refine reads_remaining ((grammatical_pipeArguments cx hexpression _).reads ?_)
        rintro ts' us args rfl hargs
        refine reads_placeFrom fun place => ?_
        have heq : ts ++ .operator "|" :: ([w] ++ (ts' ++ us)) = (ts ++ .operator "|" :: w :: ts') ++ us := by
          simp
        rw [heq]
        refine reads_pipes hexpression start n us (.pipe place ?_ he hw hargs)
        exact eq_false_of_ne_true haction

theorem grammatical_piped {expression : Reader Expr}
    (hexpression : Grammatical cx expression (Derives cx.action .conditional)) :
    Grammatical cx (piped cx expression) (Derives cx.action .pipe) := by
  intro ls
  unfold piped
  refine reads_position fun start => hexpression.reads ?_
  rintro ts us e rfl he
  exact reads_remaining (reads_pipes cx hexpression start _ us (.tighter rfl he))

theorem grammatical_ofDepth : ∀ n, (Nested.ofDepth cx n).Grammatical cx
  | 0 => ⟨fun _ => reads_fail_concerns, fun _ => reads_fail_concerns⟩
  | n + 1 =>
    have hconditional := grammatical_conditionalExpr cx (grammatical_ofDepth n)
    ⟨grammatical_piped cx hconditional, hconditional⟩

/-! ### Chains -/

theorem grammatical_semicolons : ∀ n, Grammatical cx (semicolons cx n) fun ts _ =>
    ∃ m, ts = List.replicate m (mark ';')
  | 0 => fun _ => reads_pure ⟨[], rfl, 0, rfl⟩
  | n + 1 => by
    intro ls
    unfold semicolons
    refine reads_accept ?_ fun _ => reads_pure ⟨[], rfl, 0, rfl⟩
    rintro us rfl
    refine (grammatical_semicolons n us).mono ?_
    rintro _ us' ⟨_, rfl, m, rfl⟩
    exact ⟨List.replicate (m + 1) (mark ';'), rfl, m + 1, rfl⟩

include h

/-- All lexemes are the expressions of the chain: each of them takes at least one lexeme. -/
theorem reads_chainItems : ∀ (n : Nat) (ls : List Lexeme), ls.length ≤ n →
    Reads (Concerns cx) ls (chainItems cx inner n) fun es us => us = [] ∧ Sequence cx.action ls es
  | 0, ls, hn => by
    obtain rfl := List.eq_nil_of_length_eq_zero (Nat.le_zero.mp hn)
    exact reads_pure ⟨rfl, .nil⟩
  | n + 1, ls, hn => by
    unfold chainItems
    refine reads_peek ?_
    split
    · next hhead =>
        obtain rfl := List.head?_eq_none_iff.mp (Option.isNone_iff_eq_none.mp hhead)
        exact reads_pure ⟨rfl, .nil⟩
    · refine h.pipe.reads ?_
      rintro ts us e rfl he
      have hlength : 0 < ts.length := List.length_pos_iff.mpr he.proper.ne_nil
      refine reads_accept ?_ fun hno => reads_peek ?_
      · rintro us rfl
        split
        · next haction =>
            refine reads_remaining ((grammatical_semicolons cx _).reads ?_)
            rintro _ us _ rfl ⟨m, rfl⟩
            have hlength' : us.length ≤ n := by
              simp at hn
              omega
            refine reads_bind (reads_chainItems n us hlength') ?_
            rintro es _ ⟨rfl, hes⟩
            refine reads_pure ⟨rfl, ?_⟩
            have heq : ts ++ mark ';' :: (List.replicate m (mark ';') ++ us) =
                ts ++ List.replicate (m + 1) (mark ';') ++ us := by
              simp [List.replicate_succ]
            rw [heq]
            exact .cons m haction he hes
        · exact reads_fail_then
      · split
        · exact reads_get fun c => reads_fail_then
        · next hhead =>
            obtain rfl : us = [] := by simpa using hhead
            have hlength' : ([] : List Lexeme).length ≤ n := Nat.zero_le n
            refine reads_bind (reads_chainItems n [] hlength') ?_
            rintro es _ ⟨rfl, hes⟩
            obtain rfl := hes.eq_nil rfl
            refine reads_pure ⟨rfl, ?_⟩
            rw [List.append_nil]
            exact .last he

/-- The lexemes of a whole expression are read as it. -/
theorem reads_chain (ls : List Lexeme) :
    Reads (Concerns cx) ls (chain cx inner) fun e us => us = [] ∧ Program cx.action ls e := by
  unfold chain
  refine reads_position fun start => reads_remaining ?_
  refine reads_bind (reads_chainItems cx h ls.length ls (Nat.le_refl _)) ?_
  rintro es us ⟨rfl, hes⟩
  split
  · exact reads_pure ⟨rfl, .single hes⟩
  · next hne =>
      refine reads_placeFrom fun place => reads_pure ⟨rfl, .chain place hes ?_⟩
      intro hlength
      obtain ⟨e, rfl⟩ := List.length_eq_one_iff.mp hlength
      exact hne e rfl

end Levels

/-! ### The main statement -/

/-- Reading tokens, in actions and in bindings, ends with a tree or with one error, which is about the
expression at hand. If it ends with a tree, all tokens were read, and they derive the tree: one expression
as it is, several or none as a chain. Pipes were read in bindings only, assignments and semicolons in
actions only, and no chain stands below the root. -/
theorem chain_program (cx : Setting) (tokens : List Token) (last : Nat) :
    (∃ e c, (chain cx (Nested.ofDepth cx tokens.length)).run ⟨tokens, last⟩ = .ok (e, c) ∧
      c.tokens = [] ∧ Program cx.action (tokens.map Token.lexeme) e ∧
      (∀ t ∈ tokens, Permits cx.action t.lexeme) ∧ Expr.EveryAll (PermitsNode cx.action) e.parts) ∨
    ∃ err, (chain cx (Nested.ofDepth cx tokens.length)).run ⟨tokens, last⟩ = .error err ∧
      Concerns cx err := by
  have hreads := reads_chain cx (grammatical_ofDepth cx tokens.length) (tokens.map Token.lexeme)
  rcases hreads.run (c := ⟨tokens, last⟩) rfl with ⟨e, c, hrun, hleft, he⟩ | herror
  · refine .inl ⟨e, c, hrun, List.map_eq_nil_iff.mp hleft, he, fun t ht => ?_, he.proper.2⟩
    exact he.proper.1 _ (List.mem_map_of_mem ht)
  · exact .inr herror

end TemplateCompiler.Parser
