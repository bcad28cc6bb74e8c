import TemplateCompiler.Proofs.Expr.Spans

/-!
# Sources of expressions

In a binding that starts some bytes into its file, the source of a node is its span that many bytes further on,
unless the node is the zero of a sign (`shifted_iff_of_parse`).

* `e.sourced n` : the expression with the sources that its nodes are given in a binding at `n`. An expression
  that is read has the sources of its own binding (`Placed.sourced_eq`);
* `e.moved n` : the expression with its sources `n` bytes further on, but for the zeros of signs. From one
  binding to another the sources move by as much as the bindings are apart (`Placed.moved_eq`);
* `Alike n e e'` : two expressions differ by their sources only;
* `Agrees R p q` : two readers fail alike, or what they give is related and they leave the same cursor. There is
  a lemma `agrees_` for each level of the parser, read for two bindings that start at different places.
-/

namespace TemplateCompiler

/-! ### Shifts -/

theorem Span.shift_eq_shift_zero_iff {n : Int} {s : Span} : s.shift n = s.shift 0 ↔ Word.wrap n = 0 := by
  have hwrap : ∀ k : Int, Word.wrap (n + k) = Word.wrap (0 + k) ↔ Word.wrap n = 0 := by
    intro k
    have hsub : n + k - (0 + k) = n := by omega
    rw [Word.wrap, Word.wrap, Int.bmod_eq_bmod_iff_bmod_sub_eq_zero, hsub, Word.wrap]
  simp only [Span.shift, Span.mk.injEq, hwrap, and_self]

theorem Span.shift_shift (s : Span) (n m : Int) : (s.shift n).shift m = s.shift (m + n) := by
  simp only [Span.shift, Word.wrap, Int.add_bmod_bmod, Int.add_assoc]

namespace Expr

/-! ### Nodes with other sources -/

def withPlace (p : Place) : Expr → Expr
  | context _ => context p
  | chain _ es => chain p es
  | conditional _ c y n => conditional p c y n
  | read _ r x => read p r x
  | write _ r x v => write p r x v
  | safeRead _ r x => safeRead p r x
  | index _ o k => index p o k
  | indexWrite _ o k v => indexWrite p o k v
  | method _ r x es => method p r x es
  | safeMethod _ r x es => safeMethod p r x es
  | call _ f es => call p f es
  | binary _ o l r => binary p o l r
  | not _ e => not p e
  | present _ e => present p e
  | literal _ v => literal p v
  | array _ es => array p es
  | map _ ks es => map p ks es
  | interpolation _ ts es => interpolation p ts es
  | pipe _ e x es => pipe p e x es
  | quote _ s t l => quote p s t l
  | builtin _ k es => builtin p k es

theorem withPlace_place (e : Expr) : e.withPlace e.place = e := by
  cases e <;> rfl

/-- The node with the source of a binding that starts `absolute` bytes into its file. -/
def sourceAt (absolute : Int) (x : Expr) : Expr :=
  match x.span with
  | some s => x.withPlace (x.placeAt absolute s)
  | none => x

/-- An expression with the sources of a binding that starts `absolute` bytes into its file. -/
def sourced (absolute : Int) (e : Expr) : Expr := e.rebuild (sourceAt absolute)

/-- Expressions with the sources of such a binding. -/
def sourcedAll (absolute : Int) (es : List Expr) : List Expr := rebuildAll (sourceAt absolute) es

/-- The node with its source `n` bytes further on. The zero of a sign stays where it is. -/
def moveSource (n : Int) (x : Expr) : Expr :=
  if x.isSignZero then x else x.withPlace ⟨x.span, x.place.source.map (Span.shift n)⟩

/-- An expression with all its sources `n` bytes further on, but for the zeros of signs. -/
def moved (n : Int) (e : Expr) : Expr := e.rebuild (moveSource n)

variable {absolute : Int} {lo hi : Nat} {s : Span} {e : Expr}

theorem placeAt_withChildren (h : e.place = e.placeAt absolute s) (es : List Expr) :
    (e.withChildren es).place = (e.withChildren es).placeAt absolute s := by
  unfold withChildren
  split <;> exact h

/-- Changes that agree at the places that nodes are given change an expression alike. -/
theorem Placed.rebuild_congr {f g : Expr → Expr} (h : e.Placed absolute lo hi)
    (hfg : ∀ x s, x.place = x.placeAt absolute s → f x = g x) : e.rebuild f = e.rebuild g := by
  induction h with
  | node hplace _ _ _ _ ih =>
      rw [rebuild_eq, rebuild_eq, rebuildAll_eq_map, rebuildAll_eq_map, List.map_congr_left ih]
      exact hfg _ _ (placeAt_withChildren hplace _)

theorem sourceAt_eq (h : e.place = e.placeAt absolute s) (n : Int) :
    e.sourceAt n = e.withPlace (if e.isSignZero then .of (some s) none else .shifted n s) := by
  simp only [sourceAt, span_of_placeAt h, placeAt_eq h]

theorem Placed.sourced_eq (h : e.Placed absolute lo hi) : e.sourced absolute = e := by
  refine (h.rebuild_congr (g := id) fun x s hx => ?_).trans (rebuild_id e)
  rw [sourceAt_eq hx, ← placeAt_eq hx absolute, ← hx]
  exact withPlace_place x

theorem moveSource_of_shifted {x : Expr} (h : x.place = .shifted absolute s) (hzero : x.isSignZero = false)
    {n : Int} : x.moveSource (n - absolute) = x.withPlace (.shifted n s) := by
  rw [moveSource, hzero, if_neg Bool.false_ne_true, span, h, Place.shifted, Option.map_some, Span.shift_shift,
    Int.sub_add_cancel]
  rfl

/-- In a binding that starts elsewhere, the sources move by as much. -/
theorem Placed.moved_eq (h : e.Placed absolute lo hi) (n : Int) : e.moved (n - absolute) = e.sourced n := by
  refine h.rebuild_congr fun x s hx => ?_
  have hplace : x.place = if x.isSignZero then .of (some s) none else .shifted absolute s := by
    rw [hx, placeAt_eq hx]
  rw [sourceAt_eq hx]
  cases hzero : x.isSignZero with
  | true =>
      rw [hzero, if_pos rfl] at hplace
      rw [if_pos rfl, ← hplace, withPlace_place, moveSource, if_pos hzero]
  | false =>
      rw [hzero, if_neg Bool.false_ne_true] at hplace
      rw [if_neg Bool.false_ne_true, moveSource_of_shifted hplace hzero]

/-- The zero of a sign has the source of a binding at the start of its file, every other node that of the
binding. -/
theorem Placed.every_source (h : e.Placed absolute lo hi) : e.Every fun x => ∃ s, x.span = some s ∧
    x.place.source = some (s.shift (if x.isSignZero then 0 else absolute)) := by
  refine h.every.imp₂ (fun x hx _ => ?_) h.every
  obtain ⟨hplace, -, -, -, -⟩ := hx
  refine ⟨_, span_of_placeAt hplace, ?_⟩
  rw [hplace, placeAt_eq hplace]
  split
  · rfl
  · rfl

/-- A node has the source of its span in a binding that starts `absolute` bytes into its file. -/
def Shifted (absolute : Int) (e : Expr) : Prop :=
  ∃ s, e.span = some s ∧ e.place.source = some (s.shift absolute)

/-- All sources are those of a binding if it stands at the start of its file, or there are no signs. -/
theorem Placed.every_shifted_iff (h : e.Placed absolute lo hi) :
    e.Every (Shifted absolute) ↔ Word.wrap absolute = 0 ∨ e.Every fun x => x.isSignZero = false := by
  have hsource := h.every_source
  constructor
  · intro hshifted
    by_cases hstart : Word.wrap absolute = 0
    · exact .inl hstart
    · refine .inr (hsource.imp₂ (fun x hx hx' => ?_) hshifted)
      obtain ⟨s, hspan, hx⟩ := hx
      obtain ⟨s', hspan', hx'⟩ := hx'
      obtain rfl : s = s' := Option.some.inj (hspan.symm.trans hspan')
      cases hzero : x.isSignZero with
      | false => rfl
      | true =>
          rw [hzero, if_pos rfl, hx', Option.some.injEq, Span.shift_eq_shift_zero_iff] at hx
          exact absurd hx hstart
  · rintro (hstart | hnone)
    · refine hsource.imp₂ (fun x hx _ => ?_) hsource
      obtain ⟨s, hspan, hx⟩ := hx
      refine ⟨s, hspan, hx.trans ?_⟩
      split
      · rw [Span.shift_eq_shift_zero_iff.mpr hstart]
      · rfl
    · refine hsource.imp₂ (fun x hx hzero => ?_) hnone
      obtain ⟨s, hspan, hx⟩ := hx
      rw [hzero] at hx
      exact ⟨s, hspan, hx⟩

/-- Two expressions differ by their sources only: with the sources of one binding they are equal. -/
def Alike (n : Int) (e e' : Expr) : Prop := e.sourced n = e'.sourced n

def AllAlike (n : Int) (es es' : List Expr) : Prop := sourcedAll n es = sourcedAll n es'

theorem AllAlike.nil {n : Int} : AllAlike n [] [] := rfl

theorem AllAlike.cons {n : Int} {e e' : Expr} {es es' : List Expr} (h : e.Alike n e') (hs : AllAlike n es es') :
    AllAlike n (e :: es) (e' :: es') :=
  congrArg₂ List.cons h hs

theorem AllAlike.length_eq {n : Int} {es es' : List Expr} (h : AllAlike n es es') : es.length = es'.length := by
  rw [← length_rebuildAll (sourceAt n) es, ← length_rebuildAll (sourceAt n) es']
  exact congrArg List.length h

/-- Nodes over alike expressions. -/
theorem Alike.node {n : Int} {e e' : Expr} (hchildren : AllAlike n e.children e'.children)
    (hnode : (e.withChildren (sourcedAll n e.children)).sourceAt n =
      (e'.withChildren (sourcedAll n e.children)).sourceAt n) : e.Alike n e' := by
  rw [Alike, sourced, sourced, rebuild_eq, rebuild_eq]
  exact hnode.trans (congrArg (fun es => (e'.withChildren es).sourceAt n) hchildren)

end Expr

/-! ### Reading at two distances -/

namespace Parser

def Setting.startingAt (cx : Setting) (absolute : Int) : Setting := { cx with absolute := absolute }

variable {α β γ δ : Type}

/-- Two readers fail alike, or what they give is related and they leave the same cursor. -/
def Agrees (R : α → β → Prop) (p : Reader α) (q : Reader β) : Prop :=
  ∀ c, (∃ err, p c = .error err ∧ q c = .error err) ∨
    ∃ a b c', p c = .ok (a, c') ∧ q c = .ok (b, c') ∧ R a b

section Rules

variable {R : α → β → Prop} {S : γ → δ → Prop}

theorem agrees_pure {a : α} {b : β} (h : R a b) : Agrees R (pure a) (pure b) :=
  fun c => .inr ⟨a, b, c, rfl, rfl, h⟩

theorem agrees_fail {cx : Setting} {cause : SyntaxCause} : Agrees R (fail cx cause) (fail cx cause) :=
  fun _ => .inl ⟨_, rfl, rfl⟩

theorem agrees_bind {p : Reader γ} {q : Reader δ} {f : γ → Reader α} {g : δ → Reader β} (hp : Agrees S p q)
    (hf : ∀ a b, S a b → Agrees R (f a) (g b)) : Agrees R (p >>= f) (q >>= g) := by
  intro c
  rcases hp c with ⟨err, hpc, hqc⟩ | ⟨a, b, c', hpc, hqc, hab⟩
  · refine .inl ⟨err, ?_, ?_⟩
    · change p c >>= _ = _
      rw [hpc]
      rfl
    · change q c >>= _ = _
      rw [hqc]
      rfl
  · have hp' : (p >>= f) c = f a c' := by
      change p c >>= _ = _
      rw [hpc]
      rfl
    have hq' : (q >>= g) c = g b c' := by
      change q c >>= _ = _
      rw [hqc]
      rfl
    rw [hp', hq']
    exact hf a b hab c'

/-- A step that is the same for both. -/
theorem agrees_then {p : Reader γ} {f : γ → Reader α} {g : γ → Reader β} (hf : ∀ a, Agrees R (f a) (g a)) :
    Agrees R (p >>= f) (p >>= g) := by
  refine agrees_bind (S := Eq) (fun c => ?_) fun a b hab => hab ▸ hf a
  rcases h : p c with err | ⟨a, c'⟩
  · exact .inl ⟨err, rfl, rfl⟩
  · exact .inr ⟨a, a, c', rfl, rfl, rfl⟩

theorem agrees_ite {b : Prop} [Decidable b] {p p' : Reader α} {q q' : Reader β} (hp : Agrees R p q)
    (hp' : Agrees R p' q') : Agrees R (if b then p else p') (if b then q else q') := by
  split
  · exact hp
  · exact hp'

/-- The places differ by the distance only. -/
theorem agrees_placeFrom {cx : Setting} {A B : Int} {start : Nat} {f : Place → Reader α} {g : Place → Reader β}
    (hf : ∀ s, Agrees R (f (Place.shifted A s)) (g (Place.shifted B s))) :
    Agrees R (placeFrom (cx.startingAt A) start >>= f) (placeFrom (cx.startingAt B) start >>= g) :=
  fun c => hf ⟨start, c.last⟩ c

end Rules

/-- Parsers that read expressions alike. -/
structure Nested.Agree (n : Int) (inner inner' : Nested) : Prop where
  pipe : Agrees (Expr.Alike n) inner.pipe inner'.pipe
  conditional : Agrees (Expr.Alike n) inner.conditional inner'.conditional

section Levels

variable (cx : Setting) (A B : Int) {n : Int} {inner inner' : Nested} (h : inner.Agree n inner')

include h

theorem agrees_itemsAfterCommas : ∀ m, Agrees (Expr.AllAlike n) (itemsAfterCommas (cx.startingAt A) inner m)
    (itemsAfterCommas (cx.startingAt B) inner' m)
  | 0 => agrees_pure .nil
  | m + 1 => by
    unfold itemsAfterCommas
    refine agrees_then fun b => agrees_ite ?_ (agrees_pure .nil)
    refine agrees_bind h.pipe fun e e' he => agrees_bind (agrees_itemsAfterCommas m) fun es es' hes => ?_
    exact agrees_pure (.cons he hes)

theorem agrees_items (close : UInt8) : Agrees (Expr.AllAlike n) (items (cx.startingAt A) inner close)
    (items (cx.startingAt B) inner' close) := by
  unfold items
  refine agrees_then fun b => agrees_ite (agrees_pure .nil) ?_
  refine agrees_bind h.pipe fun e e' he => agrees_then fun m => ?_
  exact agrees_bind (agrees_itemsAfterCommas cx A B h m) fun es es' hes => agrees_pure (.cons he hes)

def AlikeEntries (n : Int) (xs ys : List (MapKey × Expr)) : Prop :=
  xs.map (·.1) = ys.map (·.1) ∧ Expr.AllAlike n (xs.map (·.2)) (ys.map (·.2))

theorem agrees_mapEntry : Agrees (fun x y => x.1 = y.1 ∧ Expr.Alike n x.2 y.2)
    (mapEntry (cx.startingAt A) inner) (mapEntry (cx.startingAt B) inner') := by
  unfold mapEntry
  refine agrees_then fun key => agrees_then fun _ => agrees_bind h.pipe fun e e' he => ?_
  exact agrees_pure ⟨rfl, he⟩

theorem agrees_entriesAfterCommas : ∀ m, Agrees (AlikeEntries n)
    (entriesAfterCommas (cx.startingAt A) inner m) (entriesAfterCommas (cx.startingAt B) inner' m)
  | 0 => agrees_pure ⟨rfl, .nil⟩
  | m + 1 => by
    unfold entriesAfterCommas
    refine agrees_then fun b => agrees_ite ?_ (agrees_pure ⟨rfl, .nil⟩)
    refine agrees_bind (agrees_mapEntry cx A B h) fun e e' he => ?_
    refine agrees_bind (agrees_entriesAfterCommas m) fun es es' hes => agrees_pure ?_
    exact ⟨congrArg₂ List.cons he.1 hes.1, .cons he.2 hes.2⟩

theorem agrees_mapLiteral (start : Nat) : Agrees (Expr.Alike n) (mapLiteral (cx.startingAt A) inner start)
    (mapLiteral (cx.startingAt B) inner' start) := by
  unfold mapLiteral
  refine agrees_then fun _ => agrees_then fun b => agrees_ite ?_ ?_
  · exact agrees_placeFrom fun s => agrees_pure rfl
  · refine agrees_bind (agrees_mapEntry cx A B h) fun e e' he => agrees_then fun m => ?_
    refine agrees_bind (agrees_entriesAfterCommas cx A B h m) fun es es' hes => agrees_then fun _ => ?_
    refine agrees_placeFrom fun s => agrees_pure ?_
    obtain ⟨hkey, he⟩ := he
    obtain ⟨hkeys, hes⟩ := hes
    rw [List.map_cons, List.map_cons, hkey, hkeys]
    exact .node (.cons he hes) rfl

theorem agrees_member {r r' : Expr} (hr : Expr.Alike n r r') (start : Nat) (safe : Bool) :
    Agrees (Expr.Alike n) (member (cx.startingAt A) inner r start safe)
      (member (cx.startingAt B) inner' r' start safe) := by
  unfold member
  refine agrees_then fun id => agrees_then fun called => agrees_ite ?_ (agrees_ite ?_ ?_)
  · refine agrees_bind (agrees_items cx A B h _) fun args args' hargs => agrees_then fun _ => ?_
    refine agrees_placeFrom fun s => agrees_pure ?_
    split
    · exact .node (.cons hr hargs) rfl
    · exact .node (.cons hr hargs) rfl
  · refine agrees_then fun next => agrees_ite (agrees_then fun _ => ?_) ?_
    · exact agrees_placeFrom fun s => agrees_pure (.node (.cons hr .nil) rfl)
    · exact agrees_placeFrom fun s => agrees_pure (.node (.cons hr .nil) rfl)
  · refine agrees_then fun assigned => agrees_ite ?_ ?_
    · refine agrees_then fun _ => agrees_bind h.conditional fun value value' hvalue => ?_
      exact agrees_placeFrom fun s => agrees_pure (.node (.cons hr (.cons hvalue .nil)) rfl)
    · exact agrees_placeFrom fun s => agrees_pure (.node (.cons hr .nil) rfl)

theorem agrees_primary : Agrees (Expr.Alike n) (primary (cx.startingAt A) inner)
    (primary (cx.startingAt B) inner') := by
  unfold primary
  refine agrees_then fun start => agrees_then fun next => ?_
  have hliteral : ∀ value, Agrees (Expr.Alike n)
      (do
        advance (cx.startingAt A)
        return .literal (← placeFrom (cx.startingAt A) start) value)
      (do
        advance (cx.startingAt B)
        return .literal (← placeFrom (cx.startingAt B) start) value) := fun value =>
    agrees_then fun _ => agrees_placeFrom fun s => agrees_pure rfl
  split
  · exact agrees_fail
  · exact hliteral _
  · exact hliteral _
  · have hcontext : Expr.Alike n (.context (Place.shifted A ⟨start, start⟩))
        (.context (Place.shifted B ⟨start, start⟩)) := rfl
    exact agrees_member cx A B h hcontext start false
  · refine agrees_ite ?_ (agrees_ite ?_ (agrees_ite ?_ (agrees_ite ?_ (agrees_ite ?_ (agrees_ite ?_
      (agrees_ite ?_ agrees_fail))))))
    · refine agrees_then fun _ => agrees_bind h.pipe fun e e' he => agrees_then fun _ => agrees_pure he
    · exact hliteral _
    · exact hliteral _
    · exact hliteral _
    · exact agrees_then fun _ => agrees_placeFrom fun s => agrees_pure rfl
    · refine agrees_then fun _ => agrees_bind (agrees_items cx A B h _) fun es es' hes => ?_
      exact agrees_then fun _ => agrees_placeFrom fun s => agrees_pure (.node hes rfl)
    · exact agrees_mapLiteral cx A B h start

theorem agrees_accesses (start : Nat) : ∀ (m : Nat) {e e' : Expr}, Expr.Alike n e e' →
    Agrees (Expr.Alike n) (accesses (cx.startingAt A) inner start m e)
      (accesses (cx.startingAt B) inner' start m e')
  | 0, _, _, he => agrees_pure he
  | m + 1, e, e', he => by
    have again := @agrees_accesses start m
    unfold accesses
    refine agrees_then fun read => agrees_ite ?_ (agrees_then fun safe => agrees_ite ?_
      (agrees_then fun keyed => agrees_ite ?_ (agrees_then fun called => agrees_ite ?_
      (agrees_then fun asserted => agrees_ite ?_ (agrees_pure he)))))
    · exact agrees_bind (agrees_member cx A B h he start false) fun x x' hx => again hx
    · exact agrees_bind (agrees_member cx A B h he start true) fun x x' hx => again hx
    · refine agrees_bind h.pipe fun key key' hkey => agrees_then fun _ => agrees_then fun assigned => ?_
      refine agrees_ite ?_ (agrees_placeFrom fun s => again (.node (.cons he (.cons hkey .nil)) rfl))
      refine agrees_then fun _ => agrees_bind h.conditional fun value value' hvalue => ?_
      exact agrees_placeFrom fun s => again (.node (.cons he (.cons hkey (.cons hvalue .nil))) rfl)
    · refine agrees_bind (agrees_items cx A B h _) fun args args' hargs => agrees_then fun _ => ?_
      exact agrees_placeFrom fun s => again (.node (.cons he hargs) rfl)
    · exact agrees_placeFrom fun s => again (.node (.cons he .nil) rfl)

theorem agrees_callChain : Agrees (Expr.Alike n) (callChain (cx.startingAt A) inner)
    (callChain (cx.startingAt B) inner') := by
  unfold callChain
  refine agrees_then fun start => agrees_bind (agrees_primary cx A B h) fun e e' he => ?_
  exact agrees_then fun m => agrees_accesses cx A B h start m he

theorem agrees_prefixed : ∀ m, Agrees (Expr.Alike n) (prefixed (cx.startingAt A) inner m)
    (prefixed (cx.startingAt B) inner' m)
  | 0 => agrees_callChain cx A B h
  | m + 1 => by
    have deeper := agrees_prefixed m
    unfold prefixed
    refine agrees_then fun start => ?_
    refine agrees_then fun plus => agrees_ite ?_ (agrees_then fun minus => agrees_ite ?_
      (agrees_then fun negated => agrees_ite ?_ (agrees_callChain cx A B h)))
    · refine agrees_bind deeper fun e e' he => agrees_placeFrom fun s => agrees_pure ?_
      exact .node (.cons he (.cons rfl .nil)) rfl
    · refine agrees_bind deeper fun e e' he => agrees_placeFrom fun s => agrees_pure ?_
      exact .node (.cons rfl (.cons he .nil)) rfl
    · refine agrees_bind deeper fun e e' he => agrees_placeFrom fun s => agrees_pure ?_
      exact .node (.cons he .nil) rfl

omit h in
theorem agrees_operands {operand operand' : Reader Expr} (hoperand : Agrees (Expr.Alike n) operand operand')
    (operators : List Text) (start : Nat) : ∀ (m : Nat) {left left' : Expr}, Expr.Alike n left left' →
    Agrees (Expr.Alike n) (operands (cx.startingAt A) operators operand start m left)
      (operands (cx.startingAt B) operators operand' start m left')
  | 0, _, _, hleft => agrees_pure hleft
  | m + 1, _, _, hleft => by
    unfold operands
    refine agrees_then fun found => ?_
    split
    · refine agrees_bind hoperand fun right right' hright => agrees_placeFrom fun s => ?_
      exact agrees_operands hoperand operators start m (.node (.cons hleft (.cons hright .nil)) rfl)
    · exact agrees_pure hleft

theorem agrees_binary : ∀ levels, Agrees (Expr.Alike n) (binary (cx.startingAt A) inner levels)
    (binary (cx.startingAt B) inner' levels)
  | [] => by
    unfold binary
    exact agrees_then fun m => agrees_prefixed cx A B h m
  | operators :: tighter => by
    have htighter := agrees_binary tighter
    unfold binary
    refine agrees_then fun start => agrees_bind htighter fun left left' hleft => ?_
    exact agrees_then fun m => agrees_operands cx A B htighter operators start m hleft

theorem agrees_conditionalExpr : Agrees (Expr.Alike n) (conditionalExpr (cx.startingAt A) inner)
    (conditionalExpr (cx.startingAt B) inner') := by
  unfold conditionalExpr
  refine agrees_then fun start => agrees_bind (agrees_binary cx A B h _) fun c c' hc => ?_
  refine agrees_then fun asked => agrees_ite ?_ (agrees_pure hc)
  refine agrees_bind h.pipe fun yes yes' hyes => agrees_then fun colon => ?_
  have hrest : Agrees (Expr.Alike n)
      (do
        let no ← inner.pipe
        return .conditional (← placeFrom (cx.startingAt A) start) c yes no)
      (do
        let no ← inner'.pipe
        return .conditional (← placeFrom (cx.startingAt B) start) c' yes' no) := by
    refine agrees_bind h.pipe fun no no' hno => agrees_placeFrom fun s => agrees_pure ?_
    exact .node (.cons hc (.cons hyes (.cons hno .nil))) rfl
  exact agrees_ite hrest (agrees_then fun stop => agrees_then fun _ => hrest)

omit h in
theorem agrees_pipeArguments {expression expression' : Reader Expr}
    (he : Agrees (Expr.Alike n) expression expression') : ∀ m,
    Agrees (Expr.AllAlike n) (pipeArguments (cx.startingAt A) expression m)
      (pipeArguments (cx.startingAt B) expression' m)
  | 0 => agrees_pure .nil
  | m + 1 => by
    unfold pipeArguments
    refine agrees_then fun b => agrees_ite ?_ (agrees_pure .nil)
    refine agrees_bind he fun e e' he' => agrees_bind (agrees_pipeArguments he m) fun es es' hes => ?_
    exact agrees_pure (.cons he' hes)

omit h in
theorem agrees_pipes {expression expression' : Reader Expr}
    (hexpression : Agrees (Expr.Alike n) expression expression') (start : Nat) :
    ∀ (m : Nat) {e e' : Expr}, Expr.Alike n e e' →
    Agrees (Expr.Alike n) (pipes (cx.startingAt A) expression start m e)
      (pipes (cx.startingAt B) expression' start m e')
  | 0, _, _, he => agrees_pure he
  | m + 1, e, e', he => by
    unfold pipes
    refine agrees_then fun piped => agrees_ite ?_ (agrees_pure he)
    have hrest : Agrees (Expr.Alike n)
        (do
          let id ← name (cx.startingAt A)
          let args ← pipeArguments (cx.startingAt A) expression (← remaining)
          pipes (cx.startingAt A) expression start m (.pipe (← placeFrom (cx.startingAt A) start) e id args))
        (do
          let id ← name (cx.startingAt B)
          let args ← pipeArguments (cx.startingAt B) expression' (← remaining)
          pipes (cx.startingAt B) expression' start m
            (.pipe (← placeFrom (cx.startingAt B) start) e' id args)) := by
      refine agrees_then fun id => agrees_then fun k => ?_
      refine agrees_bind (agrees_pipeArguments cx A B hexpression k) fun args args' hargs => ?_
      exact agrees_placeFrom fun s => agrees_pipes hexpression start m (.node (.cons he hargs) rfl)
    exact agrees_ite (agrees_then fun _ => hrest) hrest

omit h in
theorem agrees_piped {expression expression' : Reader Expr}
    (hexpression : Agrees (Expr.Alike n) expression expression') :
    Agrees (Expr.Alike n) (piped (cx.startingAt A) expression) (piped (cx.startingAt B) expression') := by
  unfold piped
  refine agrees_then fun start => agrees_bind hexpression fun e e' he => ?_
  exact agrees_then fun m => agrees_pipes cx A B hexpression start m he

theorem agree_around : (around (cx.startingAt A) inner).Agree n (around (cx.startingAt B) inner') :=
  ⟨agrees_piped cx A B (agrees_conditionalExpr cx A B h), agrees_conditionalExpr cx A B h⟩

omit h in
theorem agree_ofDepth : ∀ m, (Nested.ofDepth (cx.startingAt A) m).Agree n (Nested.ofDepth (cx.startingAt B) m)
  | 0 => ⟨agrees_fail, agrees_fail⟩
  | m + 1 => agree_around cx A B (agree_ofDepth m)

omit h in
theorem agrees_semicolons : ∀ m, Agrees Eq (semicolons (cx.startingAt A) m) (semicolons (cx.startingAt B) m)
  | 0 => agrees_pure rfl
  | m + 1 => by
    unfold semicolons
    exact agrees_then fun b => agrees_ite (agrees_semicolons m) (agrees_pure rfl)

theorem agrees_chainItems : ∀ m, Agrees (Expr.AllAlike n) (chainItems (cx.startingAt A) inner m)
    (chainItems (cx.startingAt B) inner' m)
  | 0 => agrees_pure .nil
  | m + 1 => by
    unfold chainItems
    refine agrees_then fun next => agrees_ite (agrees_pure .nil) ?_
    refine agrees_bind h.pipe fun e e' he => agrees_then fun separated => ?_
    have hrest : Agrees (Expr.AllAlike n) (do return e :: (← chainItems (cx.startingAt A) inner m))
        (do return e' :: (← chainItems (cx.startingAt B) inner' m)) :=
      agrees_bind (agrees_chainItems m) fun es es' hes => agrees_pure (.cons he hes)
    refine agrees_ite (agrees_ite ?_ ?_) ?_
    · exact agrees_then fun k => agrees_bind (agrees_semicolons cx A B k) fun _ _ _ => hrest
    · refine agrees_then fun _ => agrees_then fun k => ?_
      exact agrees_bind (agrees_semicolons cx A B k) fun _ _ _ => hrest
    · refine agrees_then fun next => agrees_ite ?_ hrest
      exact agrees_then fun cursor => agrees_then fun _ => hrest

theorem agrees_chain : Agrees (Expr.Alike n) (chain (cx.startingAt A) inner)
    (chain (cx.startingAt B) inner') := by
  unfold chain
  refine agrees_then fun start => agrees_then fun m => ?_
  refine agrees_bind (agrees_chainItems cx A B h m) fun es es' hes => ?_
  have hlength : es.length = es'.length := hes.length_eq
  match es, es', hlength with
  | [], [], _ => exact agrees_placeFrom fun s => agrees_pure rfl
  | [e], [e'], _ => exact agrees_pure (List.cons.inj hes).1
  | _ :: _ :: _, _ :: _ :: _, _ => exact agrees_placeFrom fun s => agrees_pure (.node hes rfl)

end Levels

/-- Two results are the same error, or expressions that differ by their sources only. -/
def AlikeResults (n : Int) (x y : Except SyntaxError Expr) : Prop :=
  (∃ err, x = .error err ∧ y = .error err) ∨ ∃ e e', x = .ok e ∧ y = .ok e' ∧ e.Alike n e'

theorem alike_parse (cx : Setting) (A B n : Int) :
    AlikeResults n (parse (cx.startingAt A)) (parse (cx.startingAt B)) := by
  have hchain := agrees_chain cx A B (agree_ofDepth (n := n) cx A B (tokenize cx.input).length)
    ⟨tokenize cx.input, cx.offset⟩
  unfold parse
  dsimp only [Setting.startingAt]
  split
  · exact .inl ⟨_, rfl, rfl⟩
  · change AlikeResults n (if Text.isBlank cx.input then _ else _) (if Text.isBlank cx.input then _ else _)
    split
    · exact .inl ⟨_, rfl, rfl⟩
    · rcases hchain with ⟨err, hA, hB⟩ | ⟨e, e', c, hA, hB, he⟩
      · exact .inl ⟨err, congrArg (Except.map _) hA, congrArg (Except.map _) hB⟩
      · exact .inr ⟨e, e', congrArg (Except.map _) hA, congrArg (Except.map _) hB, he⟩

/-- An expression of a binding that starts elsewhere is the same one with other sources. -/
theorem parse_startingAt (cx : Setting) (A B : Int) :
    parse (cx.startingAt B) = (parse (cx.startingAt A)).map (Expr.moved (B - A)) := by
  rcases alike_parse cx A B B with ⟨err, hA, hB⟩ | ⟨e, e', hA, hB, he⟩
  · rw [hA, hB]
    rfl
  · have hmoved : e.moved (B - A) = e.sourced B := (placed_of_parse hA).moved_eq B
    have hsourced : e'.sourced B = e' := (placed_of_parse hB).sourced_eq
    rw [hA, hB, Except.map, hmoved, he, hsourced]

end Parser

/-! ### Sources move with their binding -/

theorem parseExpression_startingAt (cx : Parser.Setting) (A B : Int) :
    parseExpression (cx.startingAt B) = (parseExpression (cx.startingAt A)).map (Expr.moved (B - A)) := by
  rw [parseExpression, parseExpression, Parser.parse_startingAt cx A B]
  cases Parser.parse (cx.startingAt A) <;> rfl

theorem mapM_startingAt (ps : List Piece) (location : Text) (A B : Int) :
    (ps.mapM fun p => parseExpression ⟨p.expression, location, B, p.offset, false⟩) =
      (ps.mapM fun p => parseExpression ⟨p.expression, location, A, p.offset, false⟩).map
        (List.map (Expr.moved (B - A))) := by
  induction ps with
  | nil => rfl
  | cons p ps ih =>
      have hp := parseExpression_startingAt ⟨p.expression, location, A, p.offset, false⟩ A B
      rw [List.mapM_cons, List.mapM_cons, ih]
      simp only [Parser.Setting.startingAt] at hp
      rw [hp]
      cases parseExpression ⟨p.expression, location, A, p.offset, false⟩ with
      | error errs => rfl
      | ok e => cases ps.mapM fun p => parseExpression ⟨p.expression, location, A, p.offset, false⟩ <;> rfl

theorem parseQuote?_startingAt (input location : Text) (A B : Int) :
    parseQuote? input location B = (parseQuote? input location A).map (Expr.moved (B - A)) := by
  unfold parseQuote?
  cases input.cut? ":" with
  | none => rfl
  | some cut =>
      obtain ⟨front, text⟩ := cut
      change (if Text.isName (Text.trim front) then _ else _) =
        Option.map _ (if Text.isName (Text.trim front) then _ else _)
      split
      · have hmoved : (Expr.quote (.shifted A ⟨0, input.length⟩) (Text.trim front) text location).moveSource
            (B - A) = .quote (.shifted B ⟨0, input.length⟩) (Text.trim front) text location :=
          Expr.moveSource_of_shifted rfl rfl
        exact congrArg some hmoved.symm
      · rfl

/-- A text of a binding that starts elsewhere is read as the same expression, with sources that are moved by as
much. -/
theorem Mode.parse_startingAt (mode : Mode) (input location : Text) (A B : Int) :
    mode.parse input location B = (mode.parse input location A).map (Except.map (Expr.moved (B - A))) := by
  cases mode with
  | action => exact congrArg some (parseExpression_startingAt ⟨input, location, 0, 0, true⟩ A B)
  | binding =>
      refine congrArg some ?_
      unfold parseBinding
      rw [parseQuote?_startingAt input location A B]
      cases parseQuote? input location A with
      | some q => rfl
      | none =>
          cases splitInterpolation input with
          | none => exact parseExpression_startingAt ⟨input, location, 0, 0, false⟩ A B
          | some t => rfl
  | interpolation =>
      change parseInterpolation input location B = Option.map _ (parseInterpolation input location A)
      unfold parseInterpolation
      rw [Option.map_map]
      refine congrArg (fun f => Option.map f (splitInterpolation input)) (funext fun t => ?_)
      dsimp only [Function.comp_apply]
      cases t.errors input location with
      | cons err errs => rfl
      | nil =>
          dsimp only
          rw [mapM_startingAt t.pieces location A B]
          cases t.pieces.mapM fun p => parseExpression ⟨p.expression, location, A, p.offset, false⟩ with
          | error errs => rfl
          | ok es =>
              have hmoved : (Expr.interpolation (.shifted A ⟨0, input.length⟩) t.texts
                  (es.map (Expr.moved (B - A)))).moveSource (B - A) =
                  .interpolation (.shifted B ⟨0, input.length⟩) t.texts (es.map (Expr.moved (B - A))) :=
                Expr.moveSource_of_shifted rfl rfl
              refine congrArg Except.ok (hmoved.symm.trans ?_)
              rw [Expr.moved, Expr.rebuild_eq, Expr.rebuildAll_eq_map]
              rfl

/-- Whichever way a text is read, the sources are the spans shifted by where the binding starts, unless a sign
is read in a binding that starts elsewhere than its file: the zero of a sign keeps the source of a binding at the
start of the file, and all other sources move with the binding. -/
theorem shifted_iff_of_parse {mode : Mode} {input location : Text} {absolute : Int} {e : Expr}
    (h : mode.parse input location absolute = some (.ok e)) :
    (e.Every (Expr.Shifted absolute) ↔ Word.wrap absolute = 0 ∨ e.Every fun x => x.isSignZero = false) ∧
      (e.Every fun x => ∃ s, x.span = some s ∧
        x.place.source = some (s.shift (if x.isSignZero then 0 else absolute))) ∧
      ∀ n, mode.parse input location n = some (.ok (e.moved (n - absolute))) := by
  have hplaced := Mode.placed_of_parse h
  refine ⟨hplaced.every_shifted_iff, hplaced.every_source, fun n => ?_⟩
  rw [Mode.parse_startingAt mode input location absolute n, h]
  rfl

namespace Sample

/-- Without a sign, all sources move with the binding. -/
theorem shifted_iff_name : ∃ e, Mode.binding.parse "a.b" [] 10 = some (.ok e) ∧ e.Every (Expr.Shifted 10) ∧
    Mode.binding.parse "a.b" [] 12 = some (.ok (e.moved 2)) := by
  refine ⟨_, rfl, ?_⟩
  obtain ⟨hiff, -, hmoved⟩ :=
    shifted_iff_of_parse (rfl : Mode.binding.parse "a.b" [] 10 = some (.ok _))
  exact ⟨hiff.mpr (.inr ⟨rfl, rfl, rfl⟩), hmoved 12⟩

/-- The zero of a sign stays behind: its span is empty and so is its source, but at the start of the file. -/
theorem not_shifted_sign : ∃ e, Mode.action.parse "-b" [] 10 = some (.ok e) ∧ ¬ e.Every (Expr.Shifted 10) := by
  refine ⟨_, rfl, ?_⟩
  rintro ⟨-, ⟨s, hspan, hsource⟩, -⟩
  cases hspan
  revert hsource
  decide

end Sample

end TemplateCompiler
