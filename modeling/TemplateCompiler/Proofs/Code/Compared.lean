import Mathlib.Data.List.Basic
import TemplateCompiler.Code.Equivalence
import TemplateCompiler.Proofs.Code.Nodes

/-!
# What is compared of generated code

Equivalence looks at one part of a term. `Term.form` keeps that part and puts something fixed in the place of
all others: the types and spans, the names of function literals, the sign of a zero, the keys of pooled
literals, which are what they currently stand for, and the parameters and modifiers of declared functions, of
which only the number of parameters is left.

Two terms are equivalent if and only if they have the same form and nothing that is compared is the number
that differs from itself (`Term.equiv_iff`). So equivalence is symmetric and transitive, and reflexive where
no such number is compared.
-/

namespace TemplateCompiler

/-! ### Values -/

/-- A double without the sign of a zero. -/
def Double.level (d : Double) : Double :=
  match d.value with
  | .finite _ 0 _ => .zero
  | _ => d

/-- A value without the sign of a zero. -/
def Primitive.level : Primitive → Primitive
  | double d => double d.level
  | v => v

/-- Two doubles are equal as numbers if they are the same but for the sign of a zero. -/
theorem Double.same_iff (a b : Double) : a.same b = true ↔ a.level = b.level ∧ a.value ≠ .nan := by
  have hzero : Double.zero.value = .finite false 0 (-1074) := by decide
  unfold same level
  grind

theorem Primitive.same_iff (v w : Primitive) : v.same w = true ↔ v.level = w.level ∧ v.isNaN = false := by
  cases v <;> cases w <;> simp [same, level, isNaN, Double.same_iff]

/-! ### Forms -/

mutual

/-- What is compared of a term. If it is `signed`, the parameters of declared functions and whether they are
exported are left in it. -/
def Term.form (signed : Bool) (names : Names) : Term → Term
  | .var _ x => .var {} x
  | .lit _ v => .lit {} v.level
  | .array _ ts => .array {} (Term.formAll signed names ts)
  | .map _ es => .map {} (Term.formEntries signed names es)
  | .prop _ r x => .prop {} (r.form signed names) x
  | .key _ r i => .key {} (r.form signed names) (i.form signed names)
  | .call _ f ts p => .call {} (f.form signed names) (Term.formAll signed names ts) p
  | .binary _ o l r => .binary {} o (l.form signed names) (r.form signed names)
  | .not _ t => .not {} (t.form signed names)
  | .present _ t => .present {} (t.form signed names)
  | .cast n t => .cast { type := n.type } (t.form signed names)
  | .cond _ c y n => .cond {} (c.form signed names) (y.form signed names) (Term.form? signed names n)
  | .external _ m x => .external {} m x
  | .function _ ps b _ => .function {} ps (Stmt.formAll signed names b) []
  | .pooled k t =>
    .pooled [] (match names k with
      | some x => .ofVar x
      | none => t.form signed names)

/-- What is compared of a term that may be missing. -/
def Term.form? (signed : Bool) (names : Names) : Option Term → Option Term
  | none => none
  | some t => some (t.form signed names)

/-- What is compared of terms one after the other. -/
def Term.formAll (signed : Bool) (names : Names) : List Term → List Term
  | [] => []
  | t :: ts => t.form signed names :: Term.formAll signed names ts

def Term.formEntries (signed : Bool) (names : Names) : List (MapKey × Term) → List (MapKey × Term)
  | [] => []
  | (k, t) :: es => (k, t.form signed names) :: Term.formEntries signed names es

def Stmt.form (signed : Bool) (names : Names) : Stmt → Stmt
  | .declare _ m x v => .declare none m x (Term.form? signed names v)
  | .function _ m x ps b =>
    .function none { exported := signed && m.exported } x (ps.map fun p => if signed then p else [])
      (Stmt.formAll signed names b)
  | .expr _ t => .expr none (t.form signed names)
  | .ret _ t => .ret none (t.form signed names)
  | .branch _ c y n =>
    .branch none (c.form signed names) (Stmt.formAll signed names y) (Stmt.formAll signed names n)

/-- What is compared of statements one after the other. -/
def Stmt.formAll (signed : Bool) (names : Names) : List Stmt → List Stmt
  | [] => []
  | s :: ss => s.form signed names :: Stmt.formAll signed names ss

end

/-- Whether a term is the number that differs from itself. -/
def Term.isNaN : Term → Bool
  | .lit _ v => v.isNaN
  | _ => false

/-- No term is the number that differs from itself. -/
def Comparable (ts : List Term) : Prop := ∀ t ∈ ts, t.isNaN = false

theorem comparable_nil : Comparable [] := nofun

theorem comparable_cons {t : Term} {ts : List Term} :
    Comparable (t :: ts) ↔ t.isNaN = false ∧ Comparable ts :=
  List.forall_mem_cons

theorem comparable_append {ts us : List Term} : Comparable (ts ++ us) ↔ Comparable ts ∧ Comparable us :=
  List.forall_mem_append

theorem Double.value_level_eq_nan (d : Double) : d.level.value = .nan ↔ d.value = .nan := by
  have hzero : Double.zero.value = .finite false 0 (-1074) := by decide
  unfold level
  grind

theorem Primitive.isNaN_level (v : Primitive) : v.level.isNaN = v.isNaN := by
  cases v with
  | double d => exact Bool.eq_iff_iff.mpr (by simp [level, isNaN, Double.value_level_eq_nan])
  | _ => rfl

theorem Term.isVar_iff (names : Names) (t : Term) (x : Text) :
    t.isVar x = true ↔ t.form false names = .ofVar x := by
  cases t <;> simp [isVar, form, ofVar]

theorem Term.comparable_ofVar (x : Text) : Comparable (Term.ofVar x).nodes := by
  simp [ofVar, nodes, comparable_cons, comparable_nil, isNaN]

/-! ### Equivalence is equality of forms -/

mutual

/-- Two terms are equivalent if and only if the same is compared of them, and no number that differs from
itself. -/
theorem Term.equiv_iff (names : Names) : ∀ a b : Term, a.equiv names b = true ↔
    a.form false names = b.form false names ∧ Comparable (a.form false names).nodes
  | .var n x, b => by
      have hvar : (Term.var n x).form false names = .ofVar x := rfl
      rw [Term.equiv, Term.isVar_iff names, hvar, and_iff_left (Term.comparable_ofVar x), eq_comm]
  | .lit n v, b => by
      cases b with
      | lit n' w =>
          simp [Term.equiv, Term.form, Term.nodes, comparable_cons, comparable_nil, Term.isNaN,
            Primitive.same_iff, Primitive.isNaN_level]
      | _ => simp [Term.equiv, Term.form]
  | .array n ts, b => by
      cases b with
      | array n' us =>
          simp [Term.equiv, Term.form, Term.nodes, comparable_cons, Term.isNaN, Term.equivAll_iff names ts us]
      | _ => simp [Term.equiv, Term.form]
  | .map n es, b => by
      cases b with
      | map n' fs =>
          simp [Term.equiv, Term.form, Term.nodes, comparable_cons, Term.isNaN,
            Term.equivEntries_iff names es fs]
      | _ => simp [Term.equiv, Term.form]
  | .prop n r x, b => by
      cases b with
      | prop n' s y =>
          simp only [Term.equiv, Term.form, Term.nodes, comparable_cons, Term.isNaN, Term.equiv_iff names r s,
            Bool.and_eq_true, beq_iff_eq, Term.prop.injEq, true_and]
          tauto
      | _ => simp [Term.equiv, Term.form]
  | .key n r i, b => by
      cases b with
      | key n' s j =>
          simp only [Term.equiv, Term.form, Term.nodes, comparable_cons, comparable_append, Term.isNaN,
            Term.equiv_iff names r s, Term.equiv_iff names i j, Bool.and_eq_true, Term.key.injEq, true_and]
          tauto
      | _ => simp [Term.equiv, Term.form]
  | .call n f ts p, b => by
      cases b with
      | call n' g us q =>
          simp only [Term.equiv, Term.form, Term.nodes, comparable_cons, comparable_append, Term.isNaN,
            Term.equiv_iff names f g, Term.equivAll_iff names ts us, Bool.and_eq_true, beq_iff_eq,
            Term.call.injEq, true_and]
          tauto
      | _ => simp [Term.equiv, Term.form]
  | .binary n o l r, b => by
      cases b with
      | binary n' o' l' r' =>
          simp only [Term.equiv, Term.form, Term.nodes, comparable_cons, comparable_append, Term.isNaN,
            Term.equiv_iff names l l', Term.equiv_iff names r r', Bool.and_eq_true, beq_iff_eq,
            Term.binary.injEq, true_and]
          tauto
      | _ => simp [Term.equiv, Term.form]
  | .not n t, b => by
      cases b with
      | not n' u =>
          simp [Term.equiv, Term.form, Term.nodes, comparable_cons, Term.isNaN, Term.equiv_iff names t u]
      | _ => simp [Term.equiv, Term.form]
  | .present n t, b => by
      cases b with
      | present n' u =>
          simp [Term.equiv, Term.form, Term.nodes, comparable_cons, Term.isNaN, Term.equiv_iff names t u]
      | _ => simp [Term.equiv, Term.form]
  | .cast n t, b => by
      cases b with
      | cast n' u =>
          simp only [Term.equiv, Term.form, Term.nodes, comparable_cons, Term.isNaN, Term.equiv_iff names t u,
            Bool.and_eq_true, beq_iff_eq, Term.cast.injEq, Note.mk.injEq, and_true, true_and]
          tauto
      | _ => simp [Term.equiv, Term.form]
  | .cond n c y none, b => by
      cases b with
      | cond n' c' y' e' =>
          cases e' with
          | none =>
              simp only [Term.equiv, Term.form, Term.form?, Term.nodes, comparable_cons, comparable_append,
                Term.isNaN, Term.equiv_iff names c c', Term.equiv_iff names y y', Bool.and_eq_true,
                Term.cond.injEq, true_and]
              tauto
          | some e' => simp [Term.equiv, Term.form, Term.form?]
      | _ => simp [Term.equiv, Term.form]
  | .cond n c y (some e), b => by
      cases b with
      | cond n' c' y' e' =>
          cases e' with
          | none => simp [Term.equiv, Term.form, Term.form?]
          | some e' =>
              simp only [Term.equiv, Term.form, Term.form?, Term.nodes, comparable_cons, comparable_append,
                Term.isNaN, Term.equiv_iff names c c', Term.equiv_iff names y y', Term.equiv_iff names e e',
                Bool.and_eq_true, Term.cond.injEq, Option.some.injEq, true_and]
              tauto
      | _ => simp [Term.equiv, Term.form]
  | .external n m x, b => by
      cases b with
      | external n' m' x' =>
          simp only [Term.equiv, Term.form, Term.nodes, comparable_cons, comparable_nil, Term.isNaN,
            Bool.and_eq_true, beq_iff_eq, Term.external.injEq, true_and]
          tauto
      | _ => simp [Term.equiv, Term.form]
  | .function n ps ss x, b => by
      cases b with
      | function n' qs tt x' =>
          simp only [Term.equiv, Term.form, Term.nodes, comparable_cons, Term.isNaN,
            Stmt.equivAll_iff names ss tt, Bool.and_eq_true, beq_iff_eq, Term.function.injEq, true_and]
          tauto
      | _ => simp [Term.equiv, Term.form]
  | .pooled k t, b => by
      cases b with
      | pooled k' u =>
          -- what a name stands for is a variable, which is compared by its name
          cases hk : names k with
          | some x =>
              cases hk' : names k' with
              | some x' =>
                  simp [Term.equiv, Term.form, Term.nodes, hk, hk', comparable_cons, comparable_nil, Term.isNaN,
                    Term.ofVar]
              | none =>
                  simp [Term.equiv, Term.form, Term.nodes, hk, hk', comparable_cons, Term.isNaN,
                    Term.comparable_ofVar, Term.isVar_iff names, eq_comm]
          | none =>
              cases hk' : names k' with
              | some x' =>
                  have h := Term.equiv_iff names t (.ofVar x')
                  have hvar : (Term.ofVar x').form false names = .ofVar x' := rfl
                  simp [Term.equiv, Term.form, Term.nodes, hk, hk', comparable_cons, Term.isNaN, h, hvar]
              | none =>
                  have h := Term.equiv_iff names t u
                  simp [Term.equiv, Term.form, Term.nodes, hk, hk', comparable_cons, Term.isNaN, h]
      | _ => simp [Term.equiv, Term.form]

theorem Term.equivAll_iff (names : Names) : ∀ as bs : List Term, Term.equivAll names as bs = true ↔
    Term.formAll false names as = Term.formAll false names bs ∧
      Comparable (Term.nodesAll (Term.formAll false names as))
  | [], bs => by cases bs <;> simp [Term.equivAll, Term.formAll, Term.nodesAll, comparable_nil]
  | a :: as, [] => by simp [Term.equivAll, Term.formAll]
  | a :: as, b :: bs => by
      simp only [Term.equivAll, Term.formAll, Term.nodesAll, comparable_append, Term.equiv_iff names a b,
        Term.equivAll_iff names as bs, Bool.and_eq_true, List.cons.injEq]
      tauto

theorem Term.equivEntries_iff (names : Names) : ∀ es fs : List (MapKey × Term),
    Term.equivEntries names es fs = true ↔
      Term.formEntries false names es = Term.formEntries false names fs ∧
        Comparable (Term.nodesEntries (Term.formEntries false names es))
  | [], fs => by cases fs <;> simp [Term.equivEntries, Term.formEntries, Term.nodesEntries, comparable_nil]
  | (k, a) :: es, [] => by simp [Term.equivEntries, Term.formEntries]
  | (k, a) :: es, (l, b) :: fs => by
      simp only [Term.equivEntries, Term.formEntries, Term.nodesEntries, comparable_append,
        Term.equiv_iff names a b, Term.equivEntries_iff names es fs, Bool.and_eq_true, beq_iff_eq,
        List.cons.injEq, Prod.mk.injEq]
      tauto

theorem Stmt.equiv_iff (names : Names) : ∀ s t : Stmt, s.equiv names t = true ↔
    s.form false names = t.form false names ∧ Comparable (s.form false names).nodes
  | .declare p m x none, b => by
      cases b with
      | declare p' m' x' v' =>
          cases v' with
          | none =>
              simp only [Stmt.equiv, Stmt.form, Term.form?, Stmt.nodes, comparable_nil, Bool.and_eq_true,
                beq_iff_eq, Stmt.declare.injEq, true_and]
              tauto
          | some v' => simp [Stmt.equiv, Stmt.form, Term.form?]
      | _ => simp [Stmt.equiv, Stmt.form]
  | .declare p m x (some v), b => by
      cases b with
      | declare p' m' x' v' =>
          cases v' with
          | none => simp [Stmt.equiv, Stmt.form, Term.form?]
          | some v' =>
              simp only [Stmt.equiv, Stmt.form, Term.form?, Stmt.nodes, Term.equiv_iff names v v',
                Bool.and_eq_true, beq_iff_eq, Stmt.declare.injEq, Option.some.injEq, true_and]
              tauto
      | _ => simp [Stmt.equiv, Stmt.form]
  | .function p m x ps ss, b => by
      cases b with
      | function p' m' x' qs tt =>
          have hparams : ps.map (fun _ => ([] : Text)) = qs.map (fun _ => []) ↔ ps.length = qs.length := by
            simp [List.map_const', List.replicate_inj]
          simp only [Stmt.equiv, Stmt.form, Stmt.nodes, Stmt.equivAll_iff names ss tt, Bool.and_eq_true,
            beq_iff_eq, Stmt.function.injEq, Bool.false_and, Bool.false_eq_true, if_false, hparams, true_and]
          tauto
      | _ => simp [Stmt.equiv, Stmt.form]
  | .expr p a, b => by
      cases b with
      | expr p' a' => simp [Stmt.equiv, Stmt.form, Stmt.nodes, Term.equiv_iff names a a']
      | _ => simp [Stmt.equiv, Stmt.form]
  | .ret p a, b => by
      cases b with
      | ret p' a' => simp [Stmt.equiv, Stmt.form, Stmt.nodes, Term.equiv_iff names a a']
      | _ => simp [Stmt.equiv, Stmt.form]
  | .branch p c y n, b => by
      cases b with
      | branch p' c' y' n' =>
          simp only [Stmt.equiv, Stmt.form, Stmt.nodes, comparable_append, Term.equiv_iff names c c',
            Stmt.equivAll_iff names y y', Stmt.equivAll_iff names n n', Bool.and_eq_true, Stmt.branch.injEq,
            true_and]
          tauto
      | _ => simp [Stmt.equiv, Stmt.form]

theorem Stmt.equivAll_iff (names : Names) : ∀ ss ts : List Stmt, Stmt.equivAll names ss ts = true ↔
    Stmt.formAll false names ss = Stmt.formAll false names ts ∧
      Comparable (Stmt.nodesAll (Stmt.formAll false names ss))
  | [], ts => by cases ts <;> simp [Stmt.equivAll, Stmt.formAll, Stmt.nodesAll, comparable_nil]
  | s :: ss, [] => by simp [Stmt.equivAll, Stmt.formAll]
  | s :: ss, t :: ts => by
      simp only [Stmt.equivAll, Stmt.formAll, Stmt.nodesAll, comparable_append, Stmt.equiv_iff names s t,
        Stmt.equivAll_iff names ss ts, Bool.and_eq_true, List.cons.injEq]
      tauto

end

/-! ### What follows of equivalence -/

section

variable (names : Names)

variable {names}

variable (signed : Bool) (names)

mutual

/-- A term without a number that differs from itself has none in what is compared of it. -/
theorem Term.comparable_form : ∀ {t : Term}, Comparable t.nodes → Comparable (t.form signed names).nodes
  | .var _ x, _ => Term.comparable_ofVar x
  | .lit _ v, h => by
      rw [Term.nodes, comparable_cons] at h
      exact comparable_cons.mpr ⟨v.isNaN_level.trans h.1, comparable_nil⟩
  | .array _ ts, h => comparable_cons.mpr ⟨rfl, Term.comparable_formAll (comparable_cons.mp h).2⟩
  | .map _ es, h => comparable_cons.mpr ⟨rfl, Term.comparable_formEntries (comparable_cons.mp h).2⟩
  | .prop _ r _, h => comparable_cons.mpr ⟨rfl, Term.comparable_form (t := r) (comparable_cons.mp h).2⟩
  | .key _ r i, h => by
      have h := comparable_append.mp (comparable_cons.mp h).2
      exact comparable_cons.mpr ⟨rfl,
        comparable_append.mpr ⟨Term.comparable_form h.1, Term.comparable_form h.2⟩⟩
  | .call _ f ts _, h => by
      have h := comparable_append.mp (comparable_cons.mp h).2
      exact comparable_cons.mpr ⟨rfl,
        comparable_append.mpr ⟨Term.comparable_form h.1, Term.comparable_formAll h.2⟩⟩
  | .binary _ _ l r, h => by
      have h := comparable_append.mp (comparable_cons.mp h).2
      exact comparable_cons.mpr ⟨rfl,
        comparable_append.mpr ⟨Term.comparable_form h.1, Term.comparable_form h.2⟩⟩
  | .not _ t, h => comparable_cons.mpr ⟨rfl, Term.comparable_form (t := t) (comparable_cons.mp h).2⟩
  | .present _ t, h => comparable_cons.mpr ⟨rfl, Term.comparable_form (t := t) (comparable_cons.mp h).2⟩
  | .cast _ t, h => comparable_cons.mpr ⟨rfl, Term.comparable_form (t := t) (comparable_cons.mp h).2⟩
  | .cond _ c y none, h => by
      have h := comparable_append.mp (comparable_cons.mp h).2
      exact comparable_cons.mpr ⟨rfl,
        comparable_append.mpr ⟨Term.comparable_form h.1, Term.comparable_form h.2⟩⟩
  | .cond _ c y (some n), h => by
      have h := comparable_append.mp (comparable_cons.mp h).2
      have h' := comparable_append.mp h.2
      refine comparable_cons.mpr ⟨rfl, comparable_append.mpr ⟨Term.comparable_form h.1, ?_⟩⟩
      exact comparable_append.mpr ⟨Term.comparable_form h'.1, Term.comparable_form h'.2⟩
  | .external .., _ => comparable_cons.mpr ⟨rfl, comparable_nil⟩
  | .function _ _ ss _, h => comparable_cons.mpr ⟨rfl, Stmt.comparable_formAll (comparable_cons.mp h).2⟩
  | .pooled k t, h => by
      refine comparable_cons.mpr ⟨rfl, ?_⟩
      split
      · exact Term.comparable_ofVar _
      · exact Term.comparable_form (comparable_cons.mp h).2

theorem Term.comparable_formAll : ∀ {ts : List Term}, Comparable (Term.nodesAll ts) →
    Comparable (Term.nodesAll (Term.formAll signed names ts))
  | [], _ => comparable_nil
  | _ :: _, h => by
      have h := comparable_append.mp h
      exact comparable_append.mpr ⟨Term.comparable_form h.1, Term.comparable_formAll h.2⟩

theorem Term.comparable_formEntries : ∀ {es : List (MapKey × Term)}, Comparable (Term.nodesEntries es) →
    Comparable (Term.nodesEntries (Term.formEntries signed names es))
  | [], _ => comparable_nil
  | (_, _) :: _, h => by
      have h := comparable_append.mp h
      exact comparable_append.mpr ⟨Term.comparable_form h.1, Term.comparable_formEntries h.2⟩

theorem Stmt.comparable_form : ∀ {s : Stmt}, Comparable s.nodes → Comparable (s.form signed names).nodes
  | .declare _ _ _ none, _ => comparable_nil
  | .declare _ _ _ (some t), h => Term.comparable_form (t := t) h
  | .function _ _ _ _ ss, h => by
      have hbody : Comparable (Stmt.nodesAll ss) := h
      exact Stmt.comparable_formAll hbody
  | .expr _ t, h => Term.comparable_form (t := t) h
  | .ret _ t, h => Term.comparable_form (t := t) h
  | .branch _ c y n, h => by
      have h := comparable_append.mp h
      have h' := comparable_append.mp h.2
      refine comparable_append.mpr ⟨Term.comparable_form h.1, ?_⟩
      exact comparable_append.mpr ⟨Stmt.comparable_formAll h'.1, Stmt.comparable_formAll h'.2⟩

theorem Stmt.comparable_formAll : ∀ {ss : List Stmt}, Comparable (Stmt.nodesAll ss) →
    Comparable (Stmt.nodesAll (Stmt.formAll signed names ss))
  | [], _ => comparable_nil
  | _ :: _, h => by
      have h := comparable_append.mp h
      exact comparable_append.mpr ⟨Stmt.comparable_form h.1, Stmt.comparable_formAll h.2⟩

end

variable {names} {names' : Names}

/-- The pooled literals among some terms stand for the same under both names. -/
def SameConstants (names names' : Names) (ts : List Term) : Prop :=
  ∀ t ∈ ts, ∀ k u, t = .pooled k u → names k = names' k

theorem sameConstants_cons {t : Term} {ts : List Term} : SameConstants names names' (t :: ts) ↔
    (∀ k u, t = .pooled k u → names k = names' k) ∧ SameConstants names names' ts :=
  List.forall_mem_cons

theorem sameConstants_append {ts us : List Term} : SameConstants names names' (ts ++ us) ↔
    SameConstants names names' ts ∧ SameConstants names names' us :=
  List.forall_mem_append

mutual

/-- What is compared of a term depends on what its pooled literals stand for, and on no other names. -/
theorem Term.form_congr : ∀ {t : Term}, SameConstants names names' t.nodes →
    t.form signed names = t.form signed names'
  | .var .., _ | .lit .., _ | .external .., _ => rfl
  | .array _ ts, h => by
      rw [Term.form, Term.form, Term.formAll_congr (sameConstants_cons.mp h).2]
  | .map _ es, h => by
      rw [Term.form, Term.form, Term.formEntries_congr (sameConstants_cons.mp h).2]
  | .prop _ t _, h | .not _ t, h | .present _ t, h | .cast _ t, h => by
      rw [Term.form, Term.form, Term.form_congr (t := t) (sameConstants_cons.mp h).2]
  | .key _ a b, h | .binary _ _ a b, h => by
      have h := sameConstants_append.mp (sameConstants_cons.mp h).2
      rw [Term.form, Term.form, Term.form_congr h.1, Term.form_congr h.2]
  | .call _ f ts _, h => by
      have h := sameConstants_append.mp (sameConstants_cons.mp h).2
      rw [Term.form, Term.form, Term.form_congr h.1, Term.formAll_congr h.2]
  | .cond _ c y none, h => by
      have h := sameConstants_append.mp (sameConstants_cons.mp h).2
      rw [Term.form, Term.form, Term.form_congr h.1, Term.form_congr h.2]
      rfl
  | .cond _ c y (some e), h => by
      have h := sameConstants_append.mp (sameConstants_cons.mp h).2
      have h' := sameConstants_append.mp h.2
      rw [Term.form, Term.form, Term.form_congr h.1, Term.form_congr h'.1, Term.form?, Term.form?,
        Term.form_congr h'.2]
  | .function _ _ ss _, h => by
      rw [Term.form, Term.form, Stmt.formAll_congr (sameConstants_cons.mp h).2]
  | .pooled k t, h => by
      have h := sameConstants_cons.mp h
      rw [Term.form, Term.form, h.1 k t rfl, Term.form_congr h.2]

theorem Term.formAll_congr : ∀ {ts : List Term}, SameConstants names names' (Term.nodesAll ts) →
    Term.formAll signed names ts = Term.formAll signed names' ts
  | [], _ => rfl
  | _ :: _, h => by
      have h := sameConstants_append.mp h
      rw [Term.formAll, Term.formAll, Term.form_congr h.1, Term.formAll_congr h.2]

theorem Term.formEntries_congr : ∀ {es : List (MapKey × Term)},
    SameConstants names names' (Term.nodesEntries es) →
      Term.formEntries signed names es = Term.formEntries signed names' es
  | [], _ => rfl
  | (_, _) :: _, h => by
      have h := sameConstants_append.mp h
      rw [Term.formEntries, Term.formEntries, Term.form_congr h.1, Term.formEntries_congr h.2]

theorem Stmt.form_congr : ∀ {s : Stmt}, SameConstants names names' s.nodes →
    s.form signed names = s.form signed names'
  | .declare _ _ _ none, _ => rfl
  | .declare _ _ _ (some t), h => by
      rw [Stmt.form, Stmt.form, Term.form?, Term.form?, Term.form_congr (t := t) h]
  | .function _ _ _ _ ss, h => by
      have hbody : SameConstants names names' (Stmt.nodesAll ss) := h
      rw [Stmt.form, Stmt.form, Stmt.formAll_congr hbody]
  | .expr _ t, h | .ret _ t, h => by rw [Stmt.form, Stmt.form, Term.form_congr (t := t) h]
  | .branch _ c y n, h => by
      have h := sameConstants_append.mp h
      have h' := sameConstants_append.mp h.2
      rw [Stmt.form, Stmt.form, Term.form_congr h.1, Stmt.formAll_congr h'.1, Stmt.formAll_congr h'.2]

theorem Stmt.formAll_congr : ∀ {ss : List Stmt}, SameConstants names names' (Stmt.nodesAll ss) →
    Stmt.formAll signed names ss = Stmt.formAll signed names' ss
  | [], _ => rfl
  | _ :: _, h => by
      have h := sameConstants_append.mp h
      rw [Stmt.formAll, Stmt.formAll, Stmt.form_congr h.1, Stmt.formAll_congr h.2]

end

theorem Term.equiv_cond (n n' : Note) (c c' y y' : Term) (no no' : Option Term) :
    (Term.cond n c y no).equiv names (.cond n' c' y' no') =
      (c.equiv names c' && y.equiv names y' && Term.equiv? names no no') := by
  cases no <;> cases no' <;> simp [Term.equiv, Term.equiv?]

end

end TemplateCompiler
