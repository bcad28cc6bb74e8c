import TemplateCompiler.Proofs.Expr.Children
import TemplateCompiler.Proofs.Expr.Grammatical
import TemplateCompiler.Proofs.Expr.Parsed
import TemplateCompiler.Expr.Binding
import TemplateCompiler.Lowering.Basic

/-!
# Expressions that have code

A chain has statements and no code of its own, an interpolation stands at the root of a binding only, and
an operator needs one of the generated code. All other nodes have code (`Expr.hasCode`), if their parts
have.

* `Derives.hasCode` : every node of an expression that is derived has code;
* `Expr.plain_of_replaceBuiltins` : so has every node after its literal collections and pipes were
  replaced, and none of them is left;
* `parts_of_parseAction` : the items of a handler have code;
* `valued_of_parseBinding`, `valued_of_parseInterpolation` : the expressions of a value have code, or they
  are blank: a text without a token is read as a chain without items.
-/

namespace TemplateCompiler

namespace Expr

/-- Whether a node has code, if its parts have. -/
def hasCode : Expr → Bool
  | chain .. | interpolation .. => false
  | binary _ o _ _ => (sourceOperator? o).isSome
  | _ => true

def isPipe : Expr → Bool
  | pipe .. => true
  | _ => false

/-- Whether an expression is a chain without items. -/
def isBlank : Expr → Bool
  | chain _ [] => true
  | _ => false

/-- Every node of an expression has code. -/
def Coded (e : Expr) : Prop := e.Every fun x => x.hasCode = true

/-- Every node of an expression has code as it is: its collections and pipes were replaced. -/
def Plain (e : Expr) : Prop := e.Every fun x => x.hasCode = true ∧ x.isCollection = false

/-- The expressions that a value is made of: those of an interpolation, or itself. -/
def values : Expr → List Expr
  | interpolation _ _ es => es
  | e => [e]

end Expr

/-! ### Derived expressions -/

namespace Grammar

theorem hasCode_binary {l : Level} {o : Text} (h : o ∈ l.operators) (p : Place) (x y : Expr) :
    (Expr.binary p o x y).hasCode = true := by
  have hall : ∀ o ∈ l.operators, (sourceOperator? o).isSome = true := by cases l <;> decide
  exact hall o h

mutual

/-- Every node of an expression that is derived has code. -/
theorem Derives.coded {action : Bool} : ∀ {l : Level} {ls : List Lexeme} {e : Expr},
    Derives action l ls e → e.Coded
  | _, _, _, .tighter _ h => h.coded
  | _, _, _, .pipe _ _ h _ hargs => ⟨rfl, h.coded, hargs.coded⟩
  | _, _, _, .conditional _ hc hy hn => ⟨rfl, hc.coded, hy.coded, hn.coded⟩
  | _, _, _, .binary _ _ ho hx hy => ⟨hasCode_binary ho _ _ _, hx.coded, hy.coded⟩
  | _, _, _, .plus _ _ h => ⟨rfl, h.coded, rfl⟩
  | _, _, _, .minus _ _ h => ⟨rfl, rfl, h.coded⟩
  | _, _, _, .not _ h => ⟨rfl, h.coded⟩
  | _, _, _, .member h hm => hm.coded h.coded
  | _, _, _, .safeMember h hm => hm.coded h.coded
  | _, _, _, .index _ ho hk => ⟨rfl, ho.coded, hk.coded⟩
  | _, _, _, .indexWrite _ _ ho hk hv => ⟨rfl, ho.coded, hk.coded, hv.coded⟩
  | _, _, _, .call _ hf hargs => ⟨rfl, hf.coded, hargs.coded⟩
  | _, _, _, .present _ h => ⟨rfl, h.coded⟩
  | _, _, _, .group h => h.coded
  | _, _, _, .literal _ _ => rfl
  | _, _, _, .this _ => rfl
  | _, _, _, .array _ h => ⟨rfl, h.coded⟩
  | _, _, _, .map _ h => ⟨rfl, h.coded⟩
  | _, _, _, .emptyMap _ => ⟨rfl, trivial⟩
  | _, _, _, .bare _ h => h.coded rfl

theorem Member.coded {action : Bool} : ∀ {safe : Bool} {r e : Expr} {ls : List Lexeme},
    Member action safe r ls e → r.Coded → e.Coded
  | _, _, _, _, .read _ _, hr | _, _, _, _, .safeRead _ _, hr => ⟨rfl, hr⟩
  | _, _, _, _, .write _ _ _ hv, hr => ⟨rfl, hr, hv.coded⟩
  | _, _, _, _, .method _ _ hargs, hr | _, _, _, _, .safeMethod _ _ hargs, hr => ⟨rfl, hr, hargs.coded⟩

theorem Items.coded {action : Bool} : ∀ {ls : List Lexeme} {es : List Expr}, Items action ls es →
    Expr.EveryAll (fun x => x.hasCode = true) es
  | _, _, .none => trivial
  | _, _, .some h => h.coded

theorem Each.coded {action : Bool} : ∀ {s : Lexeme} {l : Level} {ls : List Lexeme} {es : List Expr},
    Each action s l ls es → Expr.EveryAll (fun x => x.hasCode = true) es
  | _, _, _, _, .nil => trivial
  | _, _, _, _, .cons h hmore => ⟨h.coded, hmore.coded⟩

theorem Entries.coded {action : Bool} : ∀ {ls : List Lexeme} {keys : List MapKey}
    {values : List Expr}, Entries action ls keys values →
    Expr.EveryAll (fun x => x.hasCode = true) values
  | _, _, _, .nil => trivial
  | _, _, _, .cons _ h hmore => ⟨h.coded, hmore.coded⟩

end

theorem Sequence.coded {action : Bool} {ls : List Lexeme} {es : List Expr} (h : Sequence action ls es) :
    ∀ e ∈ es, e.Coded := by
  induction h with
  | nil => exact List.forall_mem_nil _
  | last h => exact List.forall_mem_singleton.mpr h.coded
  | cons _ _ h _ ih => exact List.forall_mem_cons.mpr ⟨h.coded, ih⟩

/-- Without semicolons there is one expression at most. -/
theorem Sequence.length_le {ls : List Lexeme} {es : List Expr} (h : Sequence false ls es) :
    es.length ≤ 1 := by
  cases h with
  | nil => exact Nat.zero_le 1
  | last _ => exact Nat.le_refl 1
  | cons _ haction => cases haction

/-- A whole expression is a chain of expressions that have code, or one of them. -/
theorem Program.coded {action : Bool} {ls : List Lexeme} {e : Expr} (h : Program action ls e) :
    ∀ x ∈ e.parts, x.Coded := by
  cases h with
  | chain p h _ => exact h.coded
  | single h =>
      have he := h.coded e List.mem_cons_self
      cases e with
      | chain p es => cases he.1
      | _ => exact List.forall_mem_singleton.mpr he

end Grammar

/-! ### Replacing collections and pipes -/

namespace Expr

theorem hasCode_withChildren {e : Expr} {es : List Expr} (h : es.length = e.children.length) :
    (e.withChildren es).hasCode = e.hasCode := by
  cases e <;> simp only [children, List.length_cons, List.length_nil] at h
  case context | literal | quote => rw [List.eq_nil_of_length_eq_zero h]; rfl
  case chain | array | map | interpolation | builtin => rfl
  case conditional | indexWrite =>
    match es, h with
    | [_, _, _], _ => rfl
  case read | safeRead | not | present =>
    match es, h with
    | [_], _ => rfl
  case write | index | binary =>
    match es, h with
    | [_, _], _ => rfl
  case method | safeMethod | call | pipe =>
    match es, h with
    | _ :: _, _ => rfl

theorem plainNode_of_replaceBuiltin {e e' : Expr} (h : replaceBuiltin BuiltinFactory.literal e = .ok e')
    (he : e.hasCode = true) :
    e'.hasCode = true ∧ e'.isCollection = false ∧ e'.children = e.children := by
  cases e <;> cases h <;> exact ⟨he, rfl, rfl⟩

theorem length_of_rebuildAllM {ε : Type} {g : Expr → Except ε Expr} {es es' : List Expr}
    (h : rebuildAllM g es = .ok es') : es'.length = es.length := by
  induction es generalizing es' with
  | nil =>
      cases h
      rfl
  | cons e es ih =>
      rw [rebuildAllM_cons] at h
      obtain ⟨e', -, h⟩ := except_bind_ok.mp h
      obtain ⟨es', hes, h⟩ := except_bind_ok.mp h
      cases h
      rw [List.length_cons, List.length_cons, ih hes]

theorem forall_of_rebuildAllM {ε : Type} {g : Expr → Except ε Expr} {P : Expr → Prop} :
    ∀ {es es' : List Expr}, (∀ e ∈ es, ∀ e', e.rebuildM g = .ok e' → P e') →
    rebuildAllM g es = .ok es' → ∀ e' ∈ es', P e'
  | [], _, _, h => by
    cases h
    exact List.forall_mem_nil _
  | e :: es, _, hP, h => by
    obtain ⟨he, hes⟩ := List.forall_mem_cons.mp hP
    rw [rebuildAllM_cons] at h
    obtain ⟨e', hrun, h⟩ := except_bind_ok.mp h
    obtain ⟨es', hruns, h⟩ := except_bind_ok.mp h
    cases h
    exact List.forall_mem_cons.mpr ⟨he e' hrun, forall_of_rebuildAllM hes hruns⟩

/-- What replacing a node gives holds of all nodes after the replacement, if it keeps what is below. -/
theorem every_of_replaceBuiltins {P R : Expr → Prop}
    (hchange : ∀ x es, es.length = x.children.length → P x → P (x.withChildren es))
    (hnode : ∀ x y, P x → replaceBuiltin BuiltinFactory.literal x = .ok y →
      R y ∧ y.children = x.children) (e : Expr) :
    ∀ {e' : Expr}, e.Every P → e.replaceBuiltins BuiltinFactory.literal = .ok e' → e'.Every R := by
  induction e using induct with
  | step e ih =>
      intro e' h hrun
      obtain ⟨hP, hchildren⟩ := every_iff.mp h
      rw [replaceBuiltins, rebuildM_eq] at hrun
      obtain ⟨es, hes, hrun⟩ := except_bind_ok.mp hrun
      have hlength := length_of_rebuildAllM hes
      obtain ⟨hR, hsame⟩ := hnode _ _ (hchange e es hlength hP) hrun
      refine every_iff.mpr ⟨hR, everyAll_iff.mpr ?_⟩
      rw [hsame, children_withChildren hlength]
      exact forall_of_rebuildAllM (fun c hc c' hrun =>
        ih c hc (everyAll_iff.mp hchildren c hc) hrun) hes

/-- After its collections and pipes were replaced, every node has code as it is. -/
theorem plain_of_replaceBuiltins (e : Expr) {e' : Expr} (h : e.Coded)
    (hrun : e.replaceBuiltins BuiltinFactory.literal = .ok e') : e'.Plain := by
  refine every_of_replaceBuiltins (fun x es hlength hx => (hasCode_withChildren hlength).trans hx)
    (fun x y hx hy => ?_) e h hrun
  obtain ⟨hcode, hcollection, hsame⟩ := plainNode_of_replaceBuiltin hy hx
  exact ⟨⟨hcode, hcollection⟩, hsame⟩

theorem rebuildAllM_eq_ok {es : List Expr}
    (h : ∀ e ∈ es, e.replaceBuiltins BuiltinFactory.literal = .ok e.written) :
    rebuildAllM (replaceBuiltin BuiltinFactory.literal) es = .ok (es.map written) := by
  induction es with
  | nil => rfl
  | cons e es ih =>
      obtain ⟨he, hes⟩ := List.forall_mem_cons.mp h
      rw [rebuildAllM_cons, show e.rebuildM _ = _ from he, ih hes]
      rfl

/-- Without pipes, the collections can be replaced. -/
theorem replaceBuiltins_eq_ok (e : Expr) (h : e.Every fun x => x.isPipe = false) :
    e.replaceBuiltins BuiltinFactory.literal = .ok e.written := by
  induction e using induct with
  | step e ih =>
      obtain ⟨hnode, hchildren⟩ := every_iff.mp h
      have hes := rebuildAllM_eq_ok fun c hc => ih c hc (everyAll_iff.mp hchildren c hc)
      rw [replaceBuiltins, rebuildM_eq, hes, written, rebuild_eq, rebuildAll_eq_map]
      change replaceBuiltin BuiltinFactory.literal (e.withChildren (e.children.map written)) = _
      cases e with
      | pipe => cases hnode
      | _ => rfl

end Expr

/-! ### What is read -/

open Grammar in
theorem Parser.program_of_parse {cx : Parser.Setting} {e : Expr} (h : Parser.parse cx = .ok e) :
    Program cx.action ((tokenize cx.input).map Token.lexeme) e := by
  obtain ⟨-, c, hrun⟩ := run_of_parse h
  rcases chain_program cx (tokenize cx.input) cx.offset with
    ⟨e', c', hrun', -, hprogram, -⟩ | ⟨err, hrun', -⟩
  · rw [hrun'] at hrun
    cases hrun
    exact hprogram
  · rw [hrun'] at hrun
    cases hrun

open Grammar in
theorem program_of_parseExpression {cx : Parser.Setting} {e : Expr} (h : parseExpression cx = .ok e) :
    Program cx.action ((tokenize cx.input).map Token.lexeme) e :=
  Parser.program_of_parse (parse_of_parseExpression h)

/-- The items of a handler have code, and there are no pipes in them. -/
theorem parts_of_parseAction {input location : Text} {absolute : Int} {e : Expr}
    (h : parseAction input location absolute = .ok e) :
    ∀ x ∈ e.parts, x.Coded ∧ x.Every fun y => y.isPipe = false := by
  have hprogram := program_of_parseExpression h
  intro x hx
  refine ⟨hprogram.coded x hx, ?_⟩
  have hpermits := Expr.everyAll_iff.mp hprogram.proper.2 x hx
  refine hpermits.imp₂ (fun y hy _ => ?_) hpermits
  cases y with
  | pipe => cases hy
  | _ => rfl

/-- A value of good shape: a text around each of its expressions, which are blank or have a property. -/
structure Expr.Valued (P : Expr → Prop) (e : Expr) : Prop where
  texts : ∀ p texts es, e = .interpolation p texts es → texts.length = es.length + 1
  values : ∀ x ∈ e.values, x.isBlank = true ∨ P x

theorem Expr.Valued.single {P : Expr → Prop} (hP : ∀ x, P x → x.isInterpolation = false) {e : Expr}
    (h : e.isBlank = true ∨ P e) : e.Valued P := by
  have hone : e.isInterpolation = false := by
    rcases h with h | h
    · cases e with
      | interpolation => cases h
      | _ => rfl
    · exact hP e h
  cases e with
  | interpolation => cases hone
  | _ => exact ⟨(fun _ _ _ heq => nomatch heq), List.forall_mem_singleton.mpr h⟩

theorem Expr.Coded.isInterpolation_eq_false (e : Expr) (h : e.Coded) : e.isInterpolation = false := by
  cases e with
  | interpolation => cases h.1
  | _ => rfl

theorem Expr.Plain.isInterpolation_eq_false (e : Expr) (h : e.Plain) : e.isInterpolation = false := by
  cases e with
  | interpolation => cases h.1.1
  | _ => rfl

/-- Replacing the collections and pipes of an expression that is blank or has code. -/
theorem Expr.blank_or_plain {e e' : Expr} (h : e.isBlank = true ∨ e.Coded)
    (hrun : e.replaceBuiltins BuiltinFactory.literal = .ok e') : e'.isBlank = true ∨ e'.Plain := by
  rcases h with h | h
  · cases e with
    | chain p es =>
        cases es with
        | nil =>
            cases hrun
            exact .inl rfl
        | cons => cases h
    | _ => cases h
  · exact .inr (plain_of_replaceBuiltins e h hrun)

/-- Replacing collections and pipes keeps the shape of a value. -/
theorem Expr.Valued.plain {e e' : Expr} (h : e.Valued Expr.Coded)
    (hrun : e.replaceBuiltins BuiltinFactory.literal = .ok e') : e'.Valued Expr.Plain := by
  cases e with
  | interpolation p texts es =>
      rw [replaceBuiltins, rebuildM_eq] at hrun
      obtain ⟨es', hes, hnode⟩ := except_bind_ok.mp hrun
      cases hnode
      refine ⟨fun _ _ _ heq => ?_, forall_of_rebuildAllM (fun x hx _ => blank_or_plain (h.values x hx)) hes⟩
      cases heq
      exact (h.texts p texts es rfl).trans (congrArg (· + 1) (length_of_rebuildAllM hes).symm)
  | _ =>
      exact .single Plain.isInterpolation_eq_false
        (blank_or_plain (h.values _ List.mem_cons_self) hrun)

/-- What is read without chains is blank, or it has code. -/
theorem blank_or_coded {cx : Parser.Setting} {e : Expr} (haction : cx.action = false)
    (h : parseExpression cx = .ok e) : e.isBlank = true ∨ e.Coded := by
  have hprogram := program_of_parseExpression h
  rw [haction] at hprogram
  cases hprogram with
  | single hseq => exact .inr (hseq.coded e List.mem_cons_self)
  | chain p hseq hlength =>
      rename_i es
      have hle := hseq.length_le
      obtain rfl : es = [] := List.eq_nil_of_length_eq_zero (by omega)
      exact .inl rfl

theorem valued_of_parseBinding {input location : Text} {absolute : Int} {e : Expr}
    (h : parseBinding input location absolute = .ok e) : e.Valued Expr.Coded := by
  rcases of_parseBinding h with hquote | h
  · obtain ⟨scheme, text, rfl⟩ := eq_of_parseQuote? hquote
    exact .single Expr.Coded.isInterpolation_eq_false (.inr rfl)
  · exact .single Expr.Coded.isInterpolation_eq_false (blank_or_coded rfl h)

theorem valued_of_parseInterpolation {input location : Text} {absolute : Int} {e : Expr}
    (h : parseInterpolation input location absolute = some (.ok e)) : e.Valued Expr.Coded := by
  obtain ⟨t, es, -, hes, rfl⟩ := eq_of_parseInterpolation h
  have hread := forall₂_of_mapM hes
  have hvalues : ∀ x ∈ es, x.isBlank = true ∨ x.Coded := by
    intro x hx
    obtain ⟨p, -, hp⟩ := exists_mem_of_forall₂ hread x hx
    exact blank_or_coded rfl hp
  refine ⟨fun _ _ _ heq => ?_, hvalues⟩
  cases heq
  rw [Interpolated.texts, List.length_append, List.length_map, hread.length_eq]
  rfl

end TemplateCompiler
