import TemplateCompiler.Proofs.Expr.Every
import TemplateCompiler.Expr.Parser

/-!
# The grammar of binding expressions

* `Level` : the levels of precedence, each with the next tighter one and its binary operators;
* `Derives action level ls e` : the lexemes `ls` are the expression `e` of a level. Nothing is said of
  the places of nodes. With `action`, assignments are allowed and pipes are not;
* `Program action ls e` : the lexemes `ls` are the whole expression `e`: one expression, or the chain of
  several or none.

A derivation uses only lexemes and nodes that its setting permits (`Derives.permitted`).
-/

namespace TemplateCompiler

/-! ### Levels and words -/

/-- The levels of precedence, the weakest first. -/
inductive Grammar.Level where
  | pipe
  | conditional
  | or
  | and
  | equality
  | relational
  | additive
  | multiplicative
  | prefixed
  | callChain
  | primary
  deriving DecidableEq

namespace Grammar.Level

def tighter? : Level → Option Level
  | pipe => some conditional
  | conditional => some or
  | or => some and
  | and => some equality
  | equality => some relational
  | relational => some additive
  | additive => some multiplicative
  | multiplicative => some prefixed
  | prefixed => some callChain
  | callChain => some primary
  | primary => none

def operators : Level → List Text
  | or => ["||"]
  | and => ["&&"]
  | equality => ["==", "===", "!=", "!=="]
  | relational => ["<", ">", "<=", ">="]
  | additive => ["+", "-"]
  | multiplicative => ["*", "%", "/"]
  | _ => []

end Grammar.Level

namespace Lexeme

def name? : Lexeme → Option Text
  | identifier t | keyword t => some t
  | _ => none

def mapKey? : Lexeme → Option MapKey
  | identifier t | keyword t => some ⟨t, false⟩
  | string t => some ⟨t, true⟩
  | _ => none

def literal? : Lexeme → Option Primitive
  | number d => some (.double d)
  | string t => some (.text t)
  | keyword t =>
    if t = "null" ∨ t = "undefined" then some .null
    else if t = "true" then some (.bool true)
    else if t = "false" then some (.bool false)
    else none
  | _ => none

end Lexeme

def Expr.zero (p : Place) : Expr := .literal p (.double Double.zero)

/-- The expressions of a chain; anything else is the only one. -/
def Expr.parts : Expr → List Expr
  | .chain _ es => es
  | e => [e]

/-! ### Derivations -/

namespace Grammar

open TemplateCompiler.Parser (mark)

mutual

/-- The lexemes of an expression of a level. -/
inductive Derives (action : Bool) : Level → List Lexeme → Expr → Prop
  | tighter {l l' ls e} : l.tighter? = some l' → Derives action l' ls e → Derives action l ls e
  | pipe {ls us w e x args} (p : Place) : action = false → Derives action .pipe ls e →
      w.name? = some x → Each action (mark ':') .conditional us args →
      Derives action .pipe (ls ++ .operator "|" :: w :: us) (.pipe p e x args)
  | conditional {ls us vs c y n} (p : Place) : Derives action .or ls c → Derives action .pipe us y →
      Derives action .pipe vs n →
      Derives action .conditional (ls ++ .operator "?" :: us ++ mark ':' :: vs) (.conditional p c y n)
  -- operators of a level associate to the left
  | binary {l l' o ls us x y} (p : Place) : l.tighter? = some l' → o ∈ l.operators →
      Derives action l ls x → Derives action l' us y →
      Derives action l (ls ++ .operator o :: us) (.binary p o x y)
  | plus {ls e} (p q : Place) : Derives action .prefixed ls e →
      Derives action .prefixed (.operator "+" :: ls) (.binary p "-" e (.zero q))
  | minus {ls e} (p q : Place) : Derives action .prefixed ls e →
      Derives action .prefixed (.operator "-" :: ls) (.binary p "-" (.zero q) e)
  | not {ls e} (p : Place) : Derives action .prefixed ls e →
      Derives action .prefixed (.operator "!" :: ls) (.not p e)
  | member {ls us r e} : Derives action .callChain ls r → Member action false r us e →
      Derives action .callChain (ls ++ mark '.' :: us) e
  | safeMember {ls us r e} : Derives action .callChain ls r → Member action true r us e →
      Derives action .callChain (ls ++ .operator "?." :: us) e
  | index {ls us o k} (p : Place) : Derives action .callChain ls o → Derives action .pipe us k →
      Derives action .callChain (ls ++ mark '[' :: us ++ [mark ']']) (.index p o k)
  | indexWrite {ls us vs o k v} (p : Place) : action = true → Derives action .callChain ls o →
      Derives action .pipe us k → Derives action .conditional vs v →
      Derives action .callChain (ls ++ mark '[' :: us ++ mark ']' :: .operator "=" :: vs)
        (.indexWrite p o k v)
  | call {ls us f args} (p : Place) : Derives action .callChain ls f → Items action us args →
      Derives action .callChain (ls ++ mark '(' :: us ++ [mark ')']) (.call p f args)
  | present {ls e} (p : Place) : Derives action .callChain ls e →
      Derives action .callChain (ls ++ [.operator "!"]) (.present p e)
  | group {ls e} : Derives action .pipe ls e →
      Derives action .primary (mark '(' :: ls ++ [mark ')']) e
  | literal {w v} (p : Place) : w.literal? = some v → Derives action .primary [w] (.literal p v)
  | this (p : Place) : Derives action .primary [.keyword "this"] (.context p)
  | array {ls es} (p : Place) : Items action ls es →
      Derives action .primary (mark '[' :: ls ++ [mark ']']) (.array p es)
  | map {ls keys values} (p : Place) : Entries action (mark ',' :: ls) keys values →
      Derives action .primary (mark '\x7b' :: ls ++ [mark '\x7d']) (.map p keys values)
  | emptyMap (p : Place) : Derives action .primary [mark '\x7b', mark '\x7d'] (.map p [] [])
  -- a bare name is a member of the context
  | bare {x us e} (p : Place) : Member action false (.context p) (.identifier x :: us) e →
      Derives action .primary (.identifier x :: us) e

/-- The lexemes of a member of a receiver, behind the point. -/
inductive Member (action : Bool) : (safe : Bool) → (receiver : Expr) → List Lexeme → Expr → Prop
  | read {w x r} (p : Place) : w.name? = some x → Member action false r [w] (.read p r x)
  | safeRead {w x r} (p : Place) : w.name? = some x → Member action true r [w] (.safeRead p r x)
  | write {w x r ls v} (p : Place) : action = true → w.name? = some x →
      Derives action .conditional ls v → Member action false r (w :: .operator "=" :: ls) (.write p r x v)
  | method {w x r ls args} (p : Place) : w.name? = some x → Items action ls args →
      Member action false r (w :: mark '(' :: ls ++ [mark ')']) (.method p r x args)
  | safeMethod {w x r ls args} (p : Place) : w.name? = some x → Items action ls args →
      Member action true r (w :: mark '(' :: ls ++ [mark ')']) (.safeMethod p r x args)

/-- The lexemes of expressions with commas between them. -/
inductive Items (action : Bool) : List Lexeme → List Expr → Prop
  | none : Items action [] []
  | some {ls es} : Each action (mark ',') .pipe (mark ',' :: ls) es → Items action ls es

/-- The lexemes of expressions of a level, each behind a separator. -/
inductive Each (action : Bool) : (separator : Lexeme) → Level → List Lexeme → List Expr → Prop
  | nil {s l} : Each action s l [] []
  | cons {s l ls us e es} : Derives action l ls e → Each action s l us es →
      Each action s l (s :: ls ++ us) (e :: es)

/-- The lexemes of keys and values, each key behind a comma. -/
inductive Entries (action : Bool) : List Lexeme → List MapKey → List Expr → Prop
  | nil : Entries action [] [] []
  | cons {w k ls us e keys values} : w.mapKey? = some k → Derives action .pipe ls e →
      Entries action us keys values →
      Entries action (mark ',' :: w :: mark ':' :: ls ++ us) (k :: keys) (e :: values)

end

theorem Member.ne_nil {action safe : Bool} {r e : Expr} {ls : List Lexeme}
    (h : Member action safe r ls e) : ls ≠ [] := by
  cases h <;> exact List.cons_ne_nil _ _

/-- The lexemes of the expressions of a chain. Semicolons end an expression. -/
inductive Sequence (action : Bool) : List Lexeme → List Expr → Prop
  | nil : Sequence action [] []
  | last {ls e} : Derives action .pipe ls e → Sequence action ls [e]
  | cons {ls us e es} (n : Nat) : action = true → Derives action .pipe ls e → Sequence action us es →
      Sequence action (ls ++ List.replicate (n + 1) (mark ';') ++ us) (e :: es)

/-- The lexemes of a whole expression. -/
inductive Program (action : Bool) : List Lexeme → Expr → Prop
  | single {ls e} : Sequence action ls [e] → Program action ls e
  | chain {ls es} (p : Place) : Sequence action ls es → es.length ≠ 1 → Program action ls (.chain p es)

/-! ### What is permitted -/

/-- Pipes stand in bindings only, assignments and semicolons in actions only. -/
def Permits (action : Bool) (w : Lexeme) : Prop :=
  (w = .operator "|" → action = false) ∧ (w = .operator "=" → action = true) ∧
    (w = mark ';' → action = true)

/-- Nodes that stand for pipes are in bindings only, those for assignments in actions only, and those
for chains nowhere. -/
def PermitsNode (action : Bool) : Expr → Prop
  | .pipe .. => action = false
  | .write .. | .indexWrite .. => action = true
  | .chain .. => False
  | _ => True

/-- Whether a lexeme is permitted in actions and bindings alike. -/
def isCommon (w : Lexeme) : Bool := w != .operator "|" && w != .operator "=" && w != mark ';'

theorem permits_of_isCommon {action : Bool} {w : Lexeme} (h : isCommon w = true) : Permits action w := by
  simp only [isCommon, Bool.and_eq_true, bne_iff_ne] at h
  exact ⟨fun hw => absurd hw h.1.1, fun hw => absurd hw h.1.2, fun hw => absurd hw h.2⟩

theorem permits_bar {action : Bool} (h : action = false) : Permits action (.operator "|") :=
  ⟨fun _ => h, (fun h => nomatch h), (fun h => nomatch h)⟩

theorem permits_equals {action : Bool} (h : action = true) : Permits action (.operator "=") :=
  ⟨(fun h => nomatch h), fun _ => h, (fun h => nomatch h)⟩

theorem permits_semicolon {action : Bool} (h : action = true) : Permits action (mark ';') :=
  ⟨(fun h => nomatch h), (fun h => nomatch h), fun _ => h⟩

theorem isCommon_of_name? {w : Lexeme} {x : Text} (h : w.name? = some x) : isCommon w = true := by
  cases w <;> first | rfl | cases h

theorem isCommon_of_mapKey? {w : Lexeme} {k : MapKey} (h : w.mapKey? = some k) :
    isCommon w = true := by
  cases w <;> first | rfl | cases h

theorem isCommon_of_literal? {w : Lexeme} {v : Primitive} (h : w.literal? = some v) :
    isCommon w = true := by
  cases w <;> first | rfl | cases h

theorem isCommon_operator {l : Level} {o : Text} (h : o ∈ l.operators) :
    isCommon (.operator o) = true := by
  revert o
  cases l <;> decide

/-- Lexemes that are permitted, at least one, and an expression of permitted nodes. -/
structure Proper (action : Bool) (ls : List Lexeme) (e : Expr) : Prop where
  ne_nil : ls ≠ []
  lexemes : ∀ w ∈ ls, Permits action w
  nodes : e.Every (PermitsNode action)

section Permitted

variable {action : Bool} {w : Lexeme} {ls us : List Lexeme}

theorem permits_cons (hw : isCommon w = true) (h : ∀ w ∈ ls, Permits action w) :
    ∀ w' ∈ w :: ls, Permits action w' :=
  List.forall_mem_cons.mpr ⟨permits_of_isCommon hw, h⟩

theorem permits_append (h : ∀ w ∈ ls, Permits action w) (h' : ∀ w ∈ us, Permits action w) :
    ∀ w ∈ ls ++ us, Permits action w :=
  List.forall_mem_append.mpr ⟨h, h'⟩

theorem permits_singleton (hw : isCommon w = true) : ∀ w' ∈ [w], Permits action w' :=
  permits_cons hw (List.forall_mem_nil _)

theorem permits_bracketed {close : Lexeme} (hw : isCommon w = true) (hclose : isCommon close = true)
    (h : ∀ w ∈ ls, Permits action w) : ∀ w' ∈ w :: ls ++ [close], Permits action w' :=
  permits_append (permits_cons hw h) (permits_singleton hclose)

end Permitted

mutual

theorem Derives.proper {action : Bool} : ∀ {l : Level} {ls : List Lexeme} {e : Expr},
    Derives action l ls e → Proper action ls e
  | _, _, _, .tighter _ h => h.proper
  | _, _, _, .pipe _ haction h hname hargs => by
      obtain ⟨hlexemes, hnodes⟩ := hargs.proper rfl
      refine ⟨by simp, permits_append h.proper.lexemes ?_, haction, h.proper.nodes, hnodes⟩
      exact List.forall_mem_cons.mpr ⟨permits_bar haction, permits_cons (isCommon_of_name? hname) hlexemes⟩
  | _, _, _, .conditional _ hc hy hn => by
      refine ⟨by simp, ?_, trivial, hc.proper.nodes, hy.proper.nodes, hn.proper.nodes⟩
      refine permits_append (permits_append hc.proper.lexemes ?_) (permits_cons rfl hn.proper.lexemes)
      exact permits_cons rfl hy.proper.lexemes
  | _, _, _, .binary _ _ ho hx hy => by
      refine ⟨by simp, ?_, trivial, hx.proper.nodes, hy.proper.nodes⟩
      exact permits_append hx.proper.lexemes (permits_cons (isCommon_operator ho) hy.proper.lexemes)
  | _, _, _, .plus _ _ h =>
      ⟨List.cons_ne_nil _ _, permits_cons rfl h.proper.lexemes, trivial, h.proper.nodes, trivial⟩
  | _, _, _, .minus _ _ h =>
      ⟨List.cons_ne_nil _ _, permits_cons rfl h.proper.lexemes, trivial, trivial, h.proper.nodes⟩
  | _, _, _, .not _ h =>
      ⟨List.cons_ne_nil _ _, permits_cons rfl h.proper.lexemes, trivial, h.proper.nodes⟩
  | _, _, _, .member h hm => by
      have hmember := hm.proper h.proper.nodes
      refine ⟨by simp, ?_, hmember.nodes⟩
      exact permits_append h.proper.lexemes (permits_cons rfl hmember.lexemes)
  | _, _, _, .safeMember h hm => by
      have hmember := hm.proper h.proper.nodes
      refine ⟨by simp, ?_, hmember.nodes⟩
      exact permits_append h.proper.lexemes (permits_cons rfl hmember.lexemes)
  | _, _, _, .index _ ho hk => by
      refine ⟨by simp, ?_, trivial, ho.proper.nodes, hk.proper.nodes⟩
      rw [List.append_assoc]
      exact permits_append ho.proper.lexemes (permits_bracketed rfl rfl hk.proper.lexemes)
  | _, _, _, .indexWrite _ haction ho hk hv => by
      refine ⟨by simp, ?_, haction, ho.proper.nodes, hk.proper.nodes, hv.proper.nodes⟩
      refine permits_append (permits_append ho.proper.lexemes (permits_cons rfl hk.proper.lexemes)) ?_
      exact permits_cons rfl (List.forall_mem_cons.mpr ⟨permits_equals haction, hv.proper.lexemes⟩)
  | _, _, _, .call _ hf hargs => by
      obtain ⟨hlexemes, hnodes⟩ := hargs.proper
      refine ⟨by simp, ?_, trivial, hf.proper.nodes, hnodes⟩
      rw [List.append_assoc]
      exact permits_append hf.proper.lexemes (permits_bracketed rfl rfl hlexemes)
  | _, _, _, .present _ h =>
      ⟨by simp, permits_append h.proper.lexemes (permits_singleton rfl), trivial, h.proper.nodes⟩
  | _, _, _, .group h => ⟨by simp, permits_bracketed rfl rfl h.proper.lexemes, h.proper.nodes⟩
  | _, _, _, .literal _ hw =>
      ⟨List.cons_ne_nil _ _, permits_singleton (isCommon_of_literal? hw), trivial⟩
  | _, _, _, .this _ => ⟨List.cons_ne_nil _ _, permits_singleton rfl, trivial⟩
  | _, _, _, .array _ h => ⟨by simp, permits_bracketed rfl rfl h.proper.1, trivial, h.proper.2⟩
  | _, _, _, .map _ h =>
      ⟨by simp, permits_bracketed rfl rfl (List.forall_mem_cons.mp h.proper.1).2, trivial, h.proper.2⟩
  | _, _, _, .emptyMap _ =>
      ⟨List.cons_ne_nil _ _, permits_cons rfl (permits_singleton rfl), trivial, trivial⟩
  | _, _, _, .bare _ h => h.proper trivial

theorem Member.proper {action : Bool} : ∀ {safe : Bool} {r e : Expr} {ls : List Lexeme},
    Member action safe r ls e → r.Every (PermitsNode action) → Proper action ls e
  | _, _, _, _, .read _ hname, hr =>
      ⟨List.cons_ne_nil _ _, permits_singleton (isCommon_of_name? hname), trivial, hr⟩
  | _, _, _, _, .safeRead _ hname, hr =>
      ⟨List.cons_ne_nil _ _, permits_singleton (isCommon_of_name? hname), trivial, hr⟩
  | _, _, _, _, .write _ haction hname hv, hr => by
      refine ⟨List.cons_ne_nil _ _, permits_cons (isCommon_of_name? hname) ?_, haction, hr, hv.proper.nodes⟩
      exact List.forall_mem_cons.mpr ⟨permits_equals haction, hv.proper.lexemes⟩
  | _, _, _, _, .method _ hname hargs, hr =>
      ⟨List.cons_ne_nil _ _,
        permits_cons (isCommon_of_name? hname) (permits_bracketed rfl rfl hargs.proper.1), trivial, hr,
        hargs.proper.2⟩
  | _, _, _, _, .safeMethod _ hname hargs, hr =>
      ⟨List.cons_ne_nil _ _,
        permits_cons (isCommon_of_name? hname) (permits_bracketed rfl rfl hargs.proper.1), trivial, hr,
        hargs.proper.2⟩

theorem Items.proper {action : Bool} : ∀ {ls : List Lexeme} {es : List Expr}, Items action ls es →
    (∀ w ∈ ls, Permits action w) ∧ Expr.EveryAll (PermitsNode action) es
  | _, _, .none => ⟨List.forall_mem_nil _, trivial⟩
  | _, _, .some h => ⟨(List.forall_mem_cons.mp (h.proper rfl).1).2, (h.proper rfl).2⟩

theorem Each.proper {action : Bool} : ∀ {s : Lexeme} {l : Level} {ls : List Lexeme} {es : List Expr},
    Each action s l ls es → isCommon s = true →
    (∀ w ∈ ls, Permits action w) ∧ Expr.EveryAll (PermitsNode action) es
  | _, _, _, _, .nil, _ => ⟨List.forall_mem_nil _, trivial⟩
  | _, _, _, _, .cons h hmore, hs =>
      ⟨permits_append (permits_cons hs h.proper.lexemes) (hmore.proper hs).1,
        h.proper.nodes, (hmore.proper hs).2⟩

theorem Entries.proper {action : Bool} : ∀ {ls : List Lexeme} {keys : List MapKey}
    {values : List Expr}, Entries action ls keys values →
    (∀ w ∈ ls, Permits action w) ∧ Expr.EveryAll (PermitsNode action) values
  | _, _, _, .nil => ⟨List.forall_mem_nil _, trivial⟩
  | _, _, _, .cons hkey h hmore => by
      refine ⟨permits_append ?_ hmore.proper.1, h.proper.nodes, hmore.proper.2⟩
      exact permits_cons rfl (permits_cons (isCommon_of_mapKey? hkey) (permits_cons rfl h.proper.lexemes))

end

theorem Sequence.eq_nil {action : Bool} {ls : List Lexeme} {es : List Expr} (h : Sequence action ls es)
    (hls : ls = []) : es = [] := by
  cases h with
  | nil => rfl
  | last h => exact absurd hls h.proper.ne_nil
  | cons n => simp at hls

theorem Sequence.proper {action : Bool} {ls : List Lexeme} {es : List Expr}
    (h : Sequence action ls es) :
    (∀ w ∈ ls, Permits action w) ∧ Expr.EveryAll (PermitsNode action) es := by
  induction h with
  | nil => exact ⟨List.forall_mem_nil _, trivial⟩
  | last h => exact ⟨h.proper.lexemes, h.proper.nodes, trivial⟩
  | cons n haction h _ ih =>
      refine ⟨permits_append (permits_append h.proper.lexemes ?_) ih.1, h.proper.nodes, ih.2⟩
      intro w hw
      rw [List.eq_of_mem_replicate hw]
      exact permits_semicolon haction

theorem Program.proper {action : Bool} {ls : List Lexeme} {e : Expr} (h : Program action ls e) :
    (∀ w ∈ ls, Permits action w) ∧ Expr.EveryAll (PermitsNode action) e.parts := by
  cases h with
  | single h =>
      refine ⟨h.proper.1, ?_⟩
      have he := h.proper.2.1
      cases e with
      | chain p es => exact he.1.elim
      | _ => exact ⟨he, trivial⟩
  | chain p h _ => exact h.proper

end Grammar

end TemplateCompiler
