import TemplateCompiler.Proofs.Expr.Spelling
import TemplateCompiler.Expr.Printer

/-!
# Expressions in full parentheses

* `Expr.Spellable` : the expressions that can be written: all but pipes, numbers and nodes that only the
  compiler makes, with identifiers for names;
* `Expr.spelled` : their lexemes, with every operand in parentheses of its own. A member of the context is
  its bare name, and the context is `this`;
* `Expr.program` : the lexemes of an expression or a chain of several;
* `Expr.unplaced` : an expression without its places.

The lexemes of an expression can be written one after the other (`writable_program`).
-/

namespace TemplateCompiler

open TemplateCompiler.Parser (mark)

/-! ### Places -/

namespace Expr

def nowhere : Place := ⟨none, none⟩

mutual

/-- An expression without its places. -/
def unplaced : Expr → Expr
  | context _ => context nowhere
  | chain _ es => chain nowhere (unplacedAll es)
  | conditional _ c y n => conditional nowhere c.unplaced y.unplaced n.unplaced
  | read _ r x => read nowhere r.unplaced x
  | write _ r x v => write nowhere r.unplaced x v.unplaced
  | safeRead _ r x => safeRead nowhere r.unplaced x
  | index _ o k => index nowhere o.unplaced k.unplaced
  | indexWrite _ o k v => indexWrite nowhere o.unplaced k.unplaced v.unplaced
  | method _ r x es => method nowhere r.unplaced x (unplacedAll es)
  | safeMethod _ r x es => safeMethod nowhere r.unplaced x (unplacedAll es)
  | call _ f es => call nowhere f.unplaced (unplacedAll es)
  | binary _ o l r => binary nowhere o l.unplaced r.unplaced
  | not _ e => not nowhere e.unplaced
  | present _ e => present nowhere e.unplaced
  | literal _ v => literal nowhere v
  | array _ es => array nowhere (unplacedAll es)
  | map _ keys es => map nowhere keys (unplacedAll es)
  | interpolation _ ts es => interpolation nowhere ts (unplacedAll es)
  | pipe _ e x es => pipe nowhere e.unplaced x (unplacedAll es)
  | quote _ s t l => quote nowhere s t l
  | builtin _ k es => builtin nowhere k (unplacedAll es)

/-- Expressions without their places. -/
def unplacedAll : List Expr → List Expr
  | [] => []
  | e :: es => e.unplaced :: unplacedAll es

end

theorem length_unplacedAll : ∀ es : List Expr, (unplacedAll es).length = es.length
  | [] => rfl
  | _ :: es => congrArg (· + 1) (length_unplacedAll es)

end Expr

/-! ### What can be written -/

/-- Literals that can be written: all but numbers, and no text with a zero byte. -/
def Primitive.Spellable : Primitive → Prop
  | .null | .bool _ => True
  | .text t => 0 ∉ t
  | .int _ | .double _ => False

def MapKey.Spellable (k : MapKey) : Prop := if k.quoted then 0 ∉ k.name else Text.isName k.name = true

namespace Expr

/-- Names of members that can be written. -/
def SpellableName (receiver : Expr) (x : Text) : Prop :=
  Text.isName x = true ∧ (receiver.isContext = true → x ∉ keywords)

mutual

def Spellable : Expr → Prop
  | context _ => True
  | conditional _ c y n => c.Spellable ∧ y.Spellable ∧ n.Spellable
  | read _ r x => r.Spellable ∧ SpellableName r x
  | write _ r x v => r.Spellable ∧ SpellableName r x ∧ v.Spellable
  | safeRead _ r x => r.Spellable ∧ Text.isName x = true
  | index _ o k => o.Spellable ∧ k.Spellable
  | indexWrite _ o k v => o.Spellable ∧ k.Spellable ∧ v.Spellable
  | method _ r x es => r.Spellable ∧ SpellableName r x ∧ SpellableAll es
  | safeMethod _ r x es => r.Spellable ∧ Text.isName x = true ∧ SpellableAll es
  | call _ f es => f.Spellable ∧ SpellableAll es
  | binary _ o l r => o ∈ Parser.binaryLevels.flatten ∧ l.Spellable ∧ r.Spellable
  | not _ e | present _ e => e.Spellable
  | literal _ v => v.Spellable
  | array _ es => SpellableAll es
  | map _ keys es => keys.length = es.length ∧ (∀ k ∈ keys, k.Spellable) ∧ SpellableAll es
  | _ => False

def SpellableAll : List Expr → Prop
  | [] => True
  | e :: es => e.Spellable ∧ SpellableAll es

end

/-- An expression that can be written, or a chain of at least two of them. -/
def SpellableProgram : Expr → Prop
  | chain _ es => 2 ≤ es.length ∧ SpellableAll es
  | e => e.Spellable

end Expr

/-! ### Lexemes -/

/-- The identifier or keyword that a name is. -/
def Lexeme.word (x : Text) : Lexeme := if keywords.contains x then .keyword x else .identifier x

def Primitive.lexeme : Primitive → Lexeme
  | .text t => .string t
  | v => .keyword (v.written false)

def MapKey.lexeme (k : MapKey) : Lexeme := if k.quoted then .string k.name else .word k.name

def group (ls : List Lexeme) : List Lexeme := mark '(' :: (ls ++ [mark ')'])

namespace Expr

mutual

/-- The lexemes of an expression, each operand in parentheses. -/
def spelled : Expr → List Lexeme
  | context _ => [.keyword "this"]
  | conditional _ c y n =>
    group c.spelled ++ .operator "?" :: (group y.spelled ++ mark ':' :: group n.spelled)
  | read _ r x => receiver r r.spelled ++ [.word x]
  | write _ r x v => receiver r r.spelled ++ .word x :: .operator "=" :: group v.spelled
  | safeRead _ r x => group r.spelled ++ [.operator "?.", .word x]
  | index _ o k => group o.spelled ++ mark '[' :: (group k.spelled ++ [mark ']'])
  | indexWrite _ o k v =>
    group o.spelled ++ mark '[' :: (group k.spelled ++ mark ']' :: .operator "=" :: group v.spelled)
  | method _ r x es =>
    receiver r r.spelled ++ .word x :: mark '(' :: ((spelledAll es).tail ++ [mark ')'])
  | safeMethod _ r x es =>
    group r.spelled ++ .operator "?." :: .word x :: mark '(' :: ((spelledAll es).tail ++ [mark ')'])
  | call _ f es => group f.spelled ++ mark '(' :: ((spelledAll es).tail ++ [mark ')'])
  | binary _ o l r => group l.spelled ++ .operator o :: group r.spelled
  | not _ e => .operator "!" :: group e.spelled
  | present _ e => group e.spelled ++ [.operator "!"]
  | literal _ v => [v.lexeme]
  | array _ es => mark '[' :: ((spelledAll es).tail ++ [mark ']'])
  | map _ keys es => mark '\x7b' :: ((spelledEntries keys es).tail ++ [mark '\x7d'])
  | _ => []
where
  /-- The context is not written before its members. -/
  receiver (r : Expr) (ls : List Lexeme) : List Lexeme :=
    if r.isContext then [] else group ls ++ [mark '.']

/-- The lexemes of expressions, each behind a comma. -/
def spelledAll : List Expr → List Lexeme
  | [] => []
  | e :: es => mark ',' :: (group e.spelled ++ spelledAll es)

/-- The lexemes of map entries, each behind a comma. -/
def spelledEntries : List MapKey → List Expr → List Lexeme
  | k :: keys, e :: es => mark ',' :: k.lexeme :: mark ':' :: (group e.spelled ++ spelledEntries keys es)
  | _, _ => []

end

/-- The lexemes of an expression of a chain, in parentheses or without. -/
def item (grouped : Bool) (e : Expr) : List Lexeme := if grouped then group e.spelled else e.spelled

/-- The lexemes of a chain, each expression behind a semicolon. -/
def spelledItems (grouped : Bool) (es : List Expr) : List Lexeme :=
  es.flatMap fun e => mark ';' :: e.item grouped

theorem spelledItems_cons (grouped : Bool) (e : Expr) (es : List Expr) :
    spelledItems grouped (e :: es) = mark ';' :: (e.item grouped ++ spelledItems grouped es) := rfl

def program (grouped : Bool) : Expr → List Lexeme
  | chain _ es => (spelledItems grouped es).tail
  | e => e.item grouped

end Expr

/-! ### Writing the lexemes -/

theorem Lexeme.spellable_word {x : Text} (hx : Text.isName x = true) : (Lexeme.word x).Spellable := by
  unfold Lexeme.word
  split
  · next h => exact List.contains_iff_mem.mp h
  · next h => exact ⟨hx, fun hmem => h (List.contains_iff_mem.mpr hmem)⟩

theorem Primitive.spellable_lexeme {v : Primitive} (hv : v.Spellable) : v.lexeme.Spellable := by
  cases v with
  | null => exact (by decide : Text.ofString "null" ∈ keywords)
  | bool b =>
      have hall : ∀ b, Text.ofBool b ∈ keywords := by decide
      exact hall b
  | text t => exact hv
  | _ => cases hv

theorem MapKey.spellable_lexeme {k : MapKey} (hk : k.Spellable) : k.lexeme.Spellable := by
  unfold MapKey.Spellable at hk
  unfold MapKey.lexeme
  split
  · next h =>
      rw [if_pos h] at hk
      exact hk
  · next h =>
      rw [if_neg h] at hk
      exact Lexeme.spellable_word hk

theorem Lexeme.fits_word_operator (x o : Text) : (Lexeme.word x).fits (.operator o) = true := by
  unfold Lexeme.word
  split <;> rfl

theorem Lexeme.fits_word_character (x : Text) (b : UInt8) :
    (Lexeme.word x).fits (.character b) = true := by
  unfold Lexeme.word
  split <;> rfl

theorem Lexeme.fits_operator_word (o x : Text) : (Lexeme.operator o).fits (.word x) = true := by
  unfold Lexeme.word
  split <;> rfl

/-- Whether a lexeme is punctuation that every lexeme fits before: all but the point. -/
def Lexeme.isBracket : Lexeme → Bool
  | character b => b != '.'.toUInt8
  | _ => false

theorem Lexeme.fits_of_isBracket {w w' : Lexeme} (h : w'.isBracket = true) : w.fits w' = true := by
  cases w' with
  | character b => cases w <;> first | rfl | exact h
  | _ => cases h

/-- Lexemes that can be written before all others that can. -/
structure Writable (ls : List Lexeme) : Prop where
  spellable : ∀ w ∈ ls, w.Spellable
  joined : ∀ us, Joined us → Joined (ls ++ us)

/-- Lexemes that can be written before punctuation. -/
structure WritableInside (ls : List Lexeme) : Prop where
  spellable : ∀ w ∈ ls, w.Spellable
  joined : ∀ us, Joined us → (∀ w, us.head? = some w → w.isBracket = true) → Joined (ls ++ us)

section Writable

variable {ls us : List Lexeme} {w w' : Lexeme}

theorem joined_cons (h : ∀ w', us.head? = some w' → w.fits w' = true) (hus : Joined us) :
    Joined (w :: us) := by
  cases us with
  | nil => trivial
  | cons w' us => exact ⟨h w' rfl, hus⟩

theorem Joined.tail (h : Joined ls) : Joined ls.tail := by
  match ls, h with
  | [], _ => trivial
  | [_], _ => trivial
  | _ :: _ :: _, h => exact h.2

theorem Writable.nil : Writable [] := ⟨List.forall_mem_nil _, fun _ h => h⟩

theorem Writable.inside (h : Writable ls) : WritableInside ls := ⟨h.spellable, fun us hus _ => h.joined us hus⟩

theorem Writable.append (h : Writable ls) (h' : Writable us) : Writable (ls ++ us) := by
  refine ⟨List.forall_mem_append.mpr ⟨h.spellable, h'.spellable⟩, fun vs hvs => ?_⟩
  rw [List.append_assoc]
  exact h.joined _ (h'.joined vs hvs)

theorem Writable.appendInside (h : Writable ls) (h' : WritableInside us) : WritableInside (ls ++ us) := by
  refine ⟨List.forall_mem_append.mpr ⟨h.spellable, h'.spellable⟩, fun vs hvs hhead => ?_⟩
  rw [List.append_assoc]
  exact h.joined _ (h'.joined vs hvs hhead)

/-- Punctuation can be written before everything. -/
theorem Writable.character {b : UInt8} (hb : b ∈ (".(){}[],:;" : Text)) (h : Writable ls) :
    Writable (.character b :: ls) :=
  ⟨List.forall_mem_cons.mpr ⟨hb, h.spellable⟩, fun us hus => joined_cons (fun _ _ => rfl) (h.joined us hus)⟩

theorem Writable.cons (hw : w.Spellable) (hfits : w.fits w' = true) (h : Writable (w' :: ls)) :
    Writable (w :: w' :: ls) :=
  ⟨List.forall_mem_cons.mpr ⟨hw, h.spellable⟩, fun us hus => ⟨hfits, h.joined us hus⟩⟩

theorem Writable.tail (h : Writable ls) : Writable ls.tail := by
  cases ls with
  | nil => exact .nil
  | cons w ls =>
      refine ⟨(List.forall_mem_cons.mp h.spellable).2, fun us hus => ?_⟩
      exact (h.joined us hus).tail

theorem WritableInside.cons (hw : w.Spellable) (hfits : w.fits w' = true)
    (h : WritableInside (w' :: ls)) : WritableInside (w :: w' :: ls) :=
  ⟨List.forall_mem_cons.mpr ⟨hw, h.spellable⟩, fun us hus hhead => ⟨hfits, h.joined us hus hhead⟩⟩

theorem WritableInside.single (hw : w.Spellable) : WritableInside [w] :=
  ⟨List.forall_mem_singleton.mpr hw, fun _ hus hhead =>
    joined_cons (fun w' hw' => Lexeme.fits_of_isBracket (hhead w' hw')) hus⟩

/-- Punctuation ends what can be written inside of it. -/
theorem WritableInside.closed {b : UInt8} (hb : b ∈ (".(){}[],:;" : Text)) (hpoint : b ≠ '.'.toUInt8)
    (h : WritableInside ls) : Writable (ls ++ [.character b]) := by
  refine ⟨List.forall_mem_append.mpr ⟨h.spellable, List.forall_mem_singleton.mpr hb⟩, fun us hus => ?_⟩
  rw [List.append_assoc]
  refine h.joined _ (joined_cons (fun _ _ => rfl) hus) fun w hw => ?_
  obtain rfl := Option.some.inj hw
  exact bne_iff_ne.mpr hpoint

/-- Lexemes between a bracket and its partner. -/
theorem Writable.bracketed {c d : Char} (h : Writable ls) (hc : c.toUInt8 ∈ (".(){}[],:;" : Text))
    (hd : d.toUInt8 ∈ (".(){}[],:;" : Text)) (hpoint : d.toUInt8 ≠ '.'.toUInt8) :
    Writable (mark c :: (ls ++ [mark d])) :=
  .character hc (h.inside.closed hd hpoint)

theorem WritableInside.group (h : WritableInside ls) : Writable (group ls) :=
  .character (by decide) (h.closed (by decide) (by decide))

end Writable

namespace Expr

theorem writable_receiver {r : Expr} {ls us : List Lexeme} (hls : WritableInside ls)
    (hus : WritableInside us) : WritableInside (spelled.receiver r ls ++ us) := by
  unfold spelled.receiver
  split
  · exact hus
  · exact (hls.group.append (.character (by decide) .nil)).appendInside hus

mutual

/-- The lexemes of an expression can be written before punctuation. -/
theorem writable_spelled : ∀ {e : Expr}, e.Spellable → WritableInside e.spelled
  | context _, _ => .single (by decide : Text.ofString "this" ∈ keywords)
  | conditional _ c y n, h => by
      have hy := (writable_spelled h.2.1).group.append
        (.character (b := ':'.toUInt8) (by decide) (writable_spelled h.2.2).group)
      exact ((writable_spelled h.1).group.append
        (.cons (w := .operator "?") (by decide : _ ∈ Lexeme.symbols) rfl hy)).inside
  | read _ r x, h => writable_receiver (writable_spelled h.1) (.single (Lexeme.spellable_word h.2.1))
  | write _ r x v, h => by
      refine writable_receiver (writable_spelled h.1) (Writable.inside ?_)
      exact .cons (Lexeme.spellable_word h.2.1.1) (Lexeme.fits_word_operator x _)
        (.cons (by decide : _ ∈ Lexeme.symbols) rfl (writable_spelled h.2.2).group)
  | safeRead _ r x, h =>
      (writable_spelled h.1).group.appendInside
        (.cons (by decide : _ ∈ Lexeme.symbols) (Lexeme.fits_operator_word _ x)
          (.single (Lexeme.spellable_word h.2)))
  | index _ o k, h =>
      ((writable_spelled h.1).group.append ((writable_spelled h.2).group.bracketed
        (by decide) (by decide) (by decide))).inside
  | indexWrite _ o k v, h => by
      have hv := Writable.cons (w := .operator "=") (by decide : _ ∈ Lexeme.symbols) rfl
        (writable_spelled h.2.2).group
      have hk := (writable_spelled h.2.1).group.append (.character (b := ']'.toUInt8) (by decide) hv)
      exact ((writable_spelled h.1).group.append (.character (b := '['.toUInt8) (by decide) hk)).inside
  | method _ r x es, h => by
      refine writable_receiver (writable_spelled h.1) (Writable.inside ?_)
      exact .cons (Lexeme.spellable_word h.2.1.1) (Lexeme.fits_word_character x _)
        ((writable_spelledAll h.2.2).tail.bracketed (by decide) (by decide) (by decide))
  | safeMethod _ r x es, h =>
      ((writable_spelled h.1).group.append
        (.cons (by decide : _ ∈ Lexeme.symbols) (Lexeme.fits_operator_word _ x)
          (.cons (Lexeme.spellable_word h.2.1) (Lexeme.fits_word_character x _)
            ((writable_spelledAll h.2.2).tail.bracketed (by decide) (by decide) (by decide))))).inside
  | call _ f es, h =>
      ((writable_spelled h.1).group.append ((writable_spelledAll h.2).tail.bracketed
        (by decide) (by decide) (by decide))).inside
  | binary _ o l r, h => by
      have hall : ∀ o ∈ Parser.binaryLevels.flatten, o ∈ Lexeme.symbols := by decide
      exact ((writable_spelled h.2.1).group.append
        (.cons (w := .operator o) (hall o h.1) rfl (writable_spelled h.2.2).group)).inside
  | not _ e, h =>
      (Writable.cons (w := .operator "!") (by decide : _ ∈ Lexeme.symbols) rfl
        (writable_spelled (e := e) h).group).inside
  | present _ e, h =>
      (writable_spelled (e := e) h).group.appendInside (.single (by decide : _ ∈ Lexeme.symbols))
  | literal _ v, h => .single (Primitive.spellable_lexeme h)
  | array _ es, h =>
      have hes : Writable (spelledAll es) := writable_spelledAll h
      (hes.tail.bracketed (by decide) (by decide) (by decide)).inside
  | map _ keys es, h =>
      ((writable_spelledEntries h.2.1 h.2.2).tail.bracketed (by decide) (by decide) (by decide)).inside
  | chain .., h | interpolation .., h | pipe .., h | quote .., h | builtin .., h => h.elim

theorem writable_spelledAll : ∀ {es : List Expr}, SpellableAll es →
    Writable (spelledAll es)
  | [], _ => .nil
  | e :: es, h => .character (by decide) ((writable_spelled h.1).group.append (writable_spelledAll h.2))

theorem writable_spelledEntries : ∀ {keys : List MapKey} {es : List Expr}, (∀ k ∈ keys, k.Spellable) →
    SpellableAll es → Writable (spelledEntries keys es)
  | [], _, _, _ => by
      rw [spelledEntries]
      · exact .nil
      · exact fun _ _ _ _ h => nomatch h
  | _ :: _, [], _, _ => .nil
  | k :: keys, e :: es, hkeys, h => by
      obtain ⟨hk, hkeys⟩ := List.forall_mem_cons.mp hkeys
      rw [spelledEntries]
      refine .character (by decide) (.cons (MapKey.spellable_lexeme hk) ?_ (.character (by decide) ?_))
      · exact Lexeme.fits_of_isBracket rfl
      · exact (writable_spelled h.1).group.append (writable_spelledEntries hkeys h.2)

end

theorem writable_item (grouped : Bool) {e : Expr} (h : e.Spellable) : WritableInside (e.item grouped) := by
  cases grouped with
  | true => exact (writable_spelled h).group.inside
  | false => exact writable_spelled h

/-- The lexemes of an expression do not start with a semicolon. -/
theorem starts_item (grouped : Bool) {e : Expr} (h : e.Spellable) :
    ∃ w ls, e.item grouped = w :: ls ∧ w ≠ mark ';' := by
  have hopen : mark '(' ≠ mark ';' := by decide
  have hword : ∀ x, Lexeme.word x ≠ mark ';' := by
    intro x
    unfold Lexeme.word
    split <;> exact fun h => nomatch h
  have hmember : ∀ (r : Expr) (ls us : List Lexeme) (x : Text),
      ∃ w ls', spelled.receiver r ls ++ .word x :: us = w :: ls' ∧ w ≠ mark ';' := by
    intro r ls us x
    unfold spelled.receiver
    split
    · exact ⟨_, _, rfl, hword x⟩
    · exact ⟨_, _, rfl, hopen⟩
  cases grouped with
  | true => exact ⟨_, _, rfl, hopen⟩
  | false =>
      cases e with
      | context => exact ⟨_, _, rfl, (fun h => nomatch h)⟩
      | read _ r x => exact hmember r r.spelled [] x
      | write _ r x v => exact hmember r r.spelled _ x
      | method _ r x es => exact hmember r r.spelled _ x
      | not => exact ⟨_, _, rfl, (fun h => nomatch h)⟩
      | literal _ v => exact ⟨_, _, rfl, by cases v <;> exact fun h => nomatch h⟩
      | array => exact ⟨_, _, rfl, by decide⟩
      | map => exact ⟨_, _, rfl, by decide⟩
      | chain => cases h
      | interpolation => cases h
      | pipe => cases h
      | quote => cases h
      | builtin => cases h
      | _ => exact ⟨_, _, rfl, hopen⟩

theorem isBracket_spelledItems {grouped : Bool} {es : List Expr} {w : Lexeme}
    (h : (spelledItems grouped es).head? = some w) : w.isBracket = true := by
  cases es with
  | nil => cases h
  | cons e es =>
      obtain rfl := Option.some.inj h
      rfl

theorem writable_spelledItems (grouped : Bool) : ∀ {es : List Expr}, SpellableAll es →
    (∀ w ∈ spelledItems grouped es, w.Spellable) ∧ Joined (spelledItems grouped es)
  | [], _ => ⟨List.forall_mem_nil _, trivial⟩
  | e :: es, h => by
      have he := writable_item grouped h.1
      obtain ⟨hspellable, hjoined⟩ := writable_spelledItems grouped h.2
      have hmark : (mark ';').Spellable := (by decide : ';'.toUInt8 ∈ (".(){}[],:;" : Text))
      constructor
      · exact List.forall_mem_append.mpr
          ⟨List.forall_mem_cons.mpr ⟨hmark, he.spellable⟩, hspellable⟩
      · exact joined_cons (fun _ _ => rfl) (he.joined _ hjoined fun _ => isBracket_spelledItems)

theorem program_eq_cons (grouped : Bool) {e : Expr} (h : e.SpellableProgram) :
    ∃ w ls, e.program grouped = w :: ls := by
  have hsingle : e.Spellable → ∃ w ls, e.item grouped = w :: ls := fun h =>
    have ⟨w, ls, hls, _⟩ := starts_item grouped h
    ⟨w, ls, hls⟩
  cases e with
  | chain p es =>
      cases es with
      | nil => exact absurd h.1 (Nat.not_succ_le_zero 1)
      | cons e es =>
          obtain ⟨w, ls, hls, -⟩ := starts_item grouped h.2.1
          refine ⟨w, ls ++ spelledItems grouped es, ?_⟩
          rw [program, spelledItems_cons, List.tail_cons, hls, List.cons_append]
  | _ => exact hsingle h

/-- The lexemes of an expression or a chain can be written. -/
theorem writable_program (grouped : Bool) {e : Expr} (h : e.SpellableProgram) :
    (∀ w ∈ e.program grouped, w.Spellable) ∧ Joined (e.program grouped) := by
  have hsingle : e.Spellable → (∀ w ∈ e.item grouped, w.Spellable) ∧ Joined (e.item grouped) := by
    intro h
    have he := writable_item grouped h
    have hjoined := he.joined [] trivial fun _ h => nomatch h
    rw [List.append_nil] at hjoined
    exact ⟨he.spellable, hjoined⟩
  cases e with
  | chain p es =>
      obtain ⟨hspellable, hjoined⟩ := writable_spelledItems grouped h.2
      exact ⟨fun w hw => hspellable w (List.mem_of_mem_tail hw), hjoined.tail⟩
  | _ => exact hsingle h

end Expr

end TemplateCompiler
