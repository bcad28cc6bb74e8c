import Mathlib.Data.List.Nodup
import TemplateCompiler.Template.Scope

/-!
# Scopes as an environment

A scope remembers what it found further out, and a variable is declared when it is first needed, so the
scopes change with every name that is read. What a name stands for does not: it depends on the bindings
alone, an `Env` of one frame for each scope from the inside out.

* `t.Shows ids env` : the scopes `ids` of the tree `t`, the nearest first, have the bindings `env`;
* `Shows.nest`, `Shows.bind`, `Shows.resolve` : each operation keeps this, and a name is found to be the
  variable that the environment has for it;
* `Extends ids t t'` : how a tree grows while the scopes `ids` are open.
-/

namespace TemplateCompiler

abbrev Bindings := List (Text × ScopeEntry)

/-- The bindings of scopes, the nearest first. -/
abbrev Env := List Bindings

namespace Env

def find? (name : Text) : Env → Option ScopeEntry
  | [] => none
  | own :: env => (own.lookup name).or (find? name env)

/-- No two bindings have the same variable. -/
def Distinct (env : Env) : Prop := (env.flatten.map (·.2.var)).Nodup

theorem mem_of_lookup {name : Text} {e : ScopeEntry} {own : Bindings} (h : own.lookup name = some e) :
    (name, e) ∈ own := by
  obtain ⟨before, after, rfl, -⟩ := List.lookup_eq_some_iff.mp h
  exact List.mem_append_right before List.mem_cons_self

theorem mem_flatten_of_find? {name : Text} {e : ScopeEntry} {env : Env}
    (h : env.find? name = some e) : (name, e) ∈ env.flatten := by
  induction env with
  | nil => cases h
  | cons own env ih =>
      rw [find?, Option.or_eq_some_iff] at h
      rw [List.flatten_cons, List.mem_append]
      rcases h with h | ⟨-, h⟩
      · exact .inl (mem_of_lookup h)
      · exact .inr (ih h)

/-- Names that stand for the same variable are the same. -/
theorem Distinct.name_eq {env : Env} (h : env.Distinct) {name name' : Text} {e e' : ScopeEntry}
    (he : env.find? name = some e) (he' : env.find? name' = some e') (hvar : e.var = e'.var) :
    name = name' :=
  congrArg Prod.fst
    (List.inj_on_of_nodup_map h (mem_flatten_of_find? he) (mem_flatten_of_find? he') hvar)

theorem Distinct.tail {own : Bindings} {env : Env} (h : Distinct (own :: env)) : env.Distinct := by
  rw [Distinct, List.flatten_cons, List.map_append] at h
  exact h.of_append_right

end Env

/-! ### One scope -/

namespace Scope

variable {s : Scope} {name : Text} {e : ScopeEntry}

theorem lookup_filter_of_ne {n : Text} (h : n ≠ name) (es : Bindings) :
    (es.filter (·.1 != name)).lookup n = es.lookup n := by
  induction es with
  | nil => rfl
  | cons p es ih =>
      obtain ⟨k, e⟩ := p
      by_cases hk : k = name
      · subst hk
        rw [List.filter_cons_of_neg (by simp), ih, List.lookup_cons, beq_false_of_ne h]
      · rw [List.filter_cons_of_pos (by simpa using hk), List.lookup_cons, List.lookup_cons, ih]

theorem entry?_put (n : Text) : Scope.entry? n (s.put name e) = if n = name then some e else s.entry? n := by
  by_cases h : n = name
  · simp [ entry?, put, h]
  · rw [if_neg h, entry?, put, List.lookup_cons, beq_false_of_ne h]
    exact lookup_filter_of_ne h s.entries

/-- A scope in which the variable of a name was declared. -/
theorem declare_cases (s : Scope) (name : Text) :
    (s.declare name = s ∧ ∀ e v, s.entry? name = some e → e.value = some v → e.declared = true) ∨
    ∃ var v owned, s.entry? name = some ⟨var, some v, false, owned⟩ ∧
      s.declare name = { s.put name ⟨var, some v, true, owned⟩ with
        declarations := if s.silent then s.declarations else s.declarations ++ [(var, v)] } := by
  unfold declare
  split
  · next var v owned h =>
      refine .inr ⟨var, v, owned, h, ?_⟩
      cases hs : s.silent <;> simp [put, hs]
  · next h =>
      refine .inl ⟨rfl, fun e v he hv => ?_⟩
      obtain ⟨var, value, declared, owned⟩ := e
      cases declared with
      | true => rfl
      | false =>
          cases hv
          exact absurd he (h var v owned)

/-- What a scope shows of its bindings `own` inside `env`; `outside` is what the scopes around it have
declared. -/
structure Shows (s : Scope) (own : Bindings) (env : Env) (outside : Text → Term → Prop) : Prop where
  binds : ∀ name e, own.lookup name = some e → ∃ d, s.entry? name = some { e with declared := d }
  /-- What it does not bind itself it has found further out. -/
  found : ∀ name e, own.lookup name = none → s.entry? name = some e →
    e.owned = false ∧ ∃ b, env.find? name = some b ∧ e.var = b.var ∧
      e.value = (if b.owned then none else b.value) ∧
      (b.owned = true → ∀ v, b.value = some v → outside b.var v)
  declared : ∀ name e v, s.entry? name = some e → e.value = some v → e.declared = true →
    (e.var, v) ∈ s.declarations
  declarations : ∀ var v, (var, v) ∈ s.declarations →
    ∃ name e, s.entry? name = some e ∧ e.var = var ∧ e.value = some v ∧ e.declared = true
  nodup : (s.declarations.map (·.1)).Nodup
  silent : s.silent = true → ∀ name e, s.entry? name = some e → e.value = none

namespace Shows

variable {own : Bindings} {env : Env} {outside outside' : Text → Term → Prop}

theorem mono (h : s.Shows own env outside) (ho : ∀ var v, outside var v → outside' var v) :
    s.Shows own env outside' := by
  refine ⟨h.binds, fun name e hnone he => ?_, h.declared, h.declarations, h.nodup, h.silent⟩
  obtain ⟨howned, b, hb, hvar, hvalue, hout⟩ := h.found name e hnone he
  exact ⟨howned, b, hb, hvar, hvalue, fun hbo v hv => ho _ _ (hout hbo v hv)⟩

/-- A name without an entry is not bound here. -/
theorem lookup_eq_none (h : s.Shows own env outside) (hnone : s.entry? name = none) :
    own.lookup name = none := by
  cases hl : own.lookup name with
  | none => rfl
  | some b =>
      obtain ⟨d, hd⟩ := h.binds name b hl
      rw [hnone] at hd
      cases hd

/-- An entry is that of the binding, but for whether it is declared or owned. -/
theorem binding (h : s.Shows own env outside) (he : s.entry? name = some e) :
    ∃ b, Env.find? name (own :: env) = some b ∧ e.var = b.var ∧
      (∀ v, e.value = some v → b.value = some v) := by
  cases hown : own.lookup name with
  | some b =>
      obtain ⟨d, hd⟩ := h.binds name b hown
      rw [he] at hd
      cases hd
      exact ⟨b, by rw [Env.find?, hown, Option.some_or], rfl, fun v hv => hv⟩
  | none =>
      obtain ⟨-, b, hb, hvar, hvalue, -⟩ := h.found name e hown he
      refine ⟨b, by rw [Env.find?, hown, Option.none_or, hb], hvar, fun v hv => ?_⟩
      rw [hvalue] at hv
      split at hv
      · cases hv
      · exact hv

/-- A scope has a declaration for a binding that is known and has a value, unless it is another's. -/
theorem declare (hd : Env.Distinct (own :: env)) (h : s.Shows own env outside) :
    (s.declare name).Shows own env outside := by
  rcases s.declare_cases name with ⟨heq, -⟩ | ⟨var, v, owned, he, heq⟩
  · rw [heq]
    exact h
  have hsilent : s.silent = false := by
    rw [Bool.eq_false_iff]
    intro hs
    cases h.silent hs name _ he
  have hentry : ∀ n, Scope.entry? n (s.declare name) =
      if n = name then some ⟨var, some v, true, owned⟩ else s.entry? n := by
    intro n
    rw [heq]
    exact entry?_put n
  have hdecls : (s.declare name).declarations = s.declarations ++ [(var, v)] := by
    rw [heq, hsilent]
    rfl
  -- what is declared so far has other names, and so other variables
  have hnew : ∀ v', (var, v') ∉ s.declarations := by
    intro v' hmem
    obtain ⟨n, e, hn, hvar, -, hdeclared⟩ := h.declarations var v' hmem
    obtain ⟨b, hb, hbvar, -⟩ := h.binding hn
    obtain ⟨b', hb', hbvar', -⟩ := h.binding he
    have hname : n = name := hd.name_eq hb hb' (by rw [← hbvar, ← hbvar', hvar])
    rw [hname, he] at hn
    cases hn
    cases hdeclared
  refine ⟨fun n e hn => ?_, fun n e hn hne => ?_, fun n e v' hn hv hde => ?_, fun var' v' hmem => ?_,
    ?_, fun hs => ?_⟩
  · obtain ⟨d, hd⟩ := h.binds n e hn
    rw [hentry]
    by_cases hname : n = name
    · rw [hname, he, Option.some_inj] at hd
      rw [if_pos hname]
      exact ⟨true, congrArg (fun x : ScopeEntry => some { x with declared := true }) hd⟩
    · rw [if_neg hname]
      exact ⟨d, hd⟩
  · rw [hentry] at hne
    by_cases hname : n = name
    · rw [if_pos hname] at hne
      cases hne
      exact h.found n ⟨var, some v, false, owned⟩ hn (hname ▸ he)
    · rw [if_neg hname] at hne
      exact h.found n e hn hne
  · rw [hentry] at hn
    rw [hdecls, List.mem_append, List.mem_singleton]
    by_cases hname : n = name
    · rw [if_pos hname] at hn
      cases hn
      cases hv
      exact .inr rfl
    · rw [if_neg hname] at hn
      exact .inl (h.declared n e v' hn hv hde)
  · rw [hdecls, List.mem_append, List.mem_singleton] at hmem
    rcases hmem with hmem | hmem
    · obtain ⟨n, e, hn, hvar, hv, hde⟩ := h.declarations var' v' hmem
      refine ⟨n, e, ?_, hvar, hv, hde⟩
      have hname : n ≠ name := by
        rintro rfl
        rw [he] at hn
        cases hn
        cases hde
      rw [hentry, if_neg hname, hn]
    · cases hmem
      exact ⟨name, ⟨var, some v, true, owned⟩, by rw [hentry, if_pos rfl], rfl, rfl, rfl⟩
  · rw [hdecls, List.map_append, List.nodup_append]
    refine ⟨h.nodup, List.nodup_singleton _, fun a ha b hb hab => ?_⟩
    obtain ⟨⟨var', v'⟩, hmem, rfl⟩ := List.mem_map.mp ha
    rw [List.mem_singleton.mp hb] at hab
    change var' = var at hab
    exact hnew v' (hab ▸ hmem)
  · have : (s.declare name).silent = s.silent := by rw [heq]; rfl
    rw [this, hsilent] at hs
    cases hs

/-- A scope remembers what it found further out. -/
theorem remember (h : s.Shows own env outside) (hnone : s.entry? name = none)
    (hloud : s.silent = false) (howned : e.owned = false) {b : ScopeEntry}
    (hb : env.find? name = some b) (hvar : e.var = b.var)
    (hvalue : e.value = if b.owned then none else b.value)
    (hout : b.owned = true → ∀ v, b.value = some v → outside b.var v)
    (hpending : e.declared = true → e.value = none) :
    (s.put name e).Shows own env outside := by
  have hown := h.lookup_eq_none hnone
  refine ⟨fun n e' hn => ?_, fun n e' hn hne => ?_, fun n e' v hn hv hde => ?_, fun var v hmem => ?_,
    h.nodup, fun hs => ?_⟩
  · have hname : n ≠ name := by
      rintro rfl
      rw [hown] at hn
      cases hn
    rw [entry?_put, if_neg hname]
    exact h.binds n e' hn
  · rw [entry?_put] at hne
    by_cases hname : n = name
    · rw [if_pos hname] at hne
      cases hne
      exact ⟨howned, b, hname ▸ hb, hvar, hvalue, hout⟩
    · rw [if_neg hname] at hne
      exact h.found n e' hn hne
  · rw [entry?_put] at hn
    by_cases hname : n = name
    · rw [if_pos hname] at hn
      cases hn
      rw [hpending hde] at hv
      cases hv
    · rw [if_neg hname] at hn
      exact h.declared n e' v hn hv hde
  · obtain ⟨n, e', hn, hrest⟩ := h.declarations var v hmem
    refine ⟨n, e', ?_, hrest⟩
    have hname : n ≠ name := by
      rintro rfl
      rw [hnone] at hn
      cases hn
    rw [entry?_put, if_neg hname, hn]
  · change s.silent = true at hs
    rw [hloud] at hs
    cases hs

/-- A scope binds a name it does not know. -/
theorem bind (h : s.Shows own env outside) (hnone : s.entry? name = none) (hloud : s.silent = false)
    (hpending : e.declared = false) :
    (s.put name e).Shows (own ++ [(name, e)]) env outside := by
  have hlookup : ∀ n, (own ++ [(name, e)]).lookup n =
      (own.lookup n).or (if n = name then some e else none) := by
    intro n
    rw [List.lookup_append, List.lookup_cons, List.lookup_nil]
    by_cases hname : n = name
    · simp [hname]
    · simp [hname, beq_false_of_ne hname]
  refine ⟨fun n e' hn => ?_, fun n e' hn hne => ?_, fun n e' v hn hv hde => ?_, fun var v hmem => ?_,
    h.nodup, fun hs => ?_⟩
  · rw [hlookup, Option.or_eq_some_iff] at hn
    rw [entry?_put]
    rcases hn with hn | ⟨-, hn⟩
    · obtain ⟨d, hd⟩ := h.binds n e' hn
      have hname : n ≠ name := by
        rintro rfl
        rw [hnone] at hd
        cases hd
      rw [if_neg hname]
      exact ⟨d, hd⟩
    · split at hn
      · next hname =>
          cases hn
          rw [if_pos hname]
          exact ⟨false, by rw [← hpending]⟩
      · cases hn
  · rw [hlookup, Option.or_eq_none_iff] at hn
    rw [entry?_put] at hne
    by_cases hname : n = name
    · rw [if_pos hname] at hn
      cases hn.2
    · rw [if_neg hname] at hne
      exact h.found n e' hn.1 hne
  · rw [entry?_put] at hn
    by_cases hname : n = name
    · rw [if_pos hname] at hn
      cases hn
      rw [hpending] at hde
      cases hde
    · rw [if_neg hname] at hn
      exact h.declared n e' v hn hv hde
  · obtain ⟨n, e', hn, hrest⟩ := h.declarations var v hmem
    refine ⟨n, e', ?_, hrest⟩
    have hname : n ≠ name := by
      rintro rfl
      rw [hnone] at hn
      cases hn
    rw [entry?_put, if_neg hname, hn]
  · change s.silent = true at hs
    rw [hloud] at hs
    cases hs

end Shows

end Scope

/-- The variable of a binding that has a value is declared. -/
theorem Scope.Shows.mem_declare {s : Scope} {own : Bindings} {env : Env}
    {outside : Text → Term → Prop} {name : Text} {e : ScopeEntry} {v : Term}
    (h : s.Shows own env outside) (he : s.entry? name = some e) (hv : e.value = some v) :
    (e.var, v) ∈ (s.declare name).declarations := by
  rcases s.declare_cases name with ⟨heq, hdeclared⟩ | ⟨var, v', owned, he', heq⟩
  · rw [heq]
    exact h.declared name e v he hv (hdeclared e v he hv)
  · have hsilent : s.silent = false := by
      rw [Bool.eq_false_iff]
      intro hs
      rw [h.silent hs name e he] at hv
      cases hv
    rw [he, Option.some_inj] at he'
    subst he'
    cases hv
    rw [heq, hsilent]
    exact List.mem_append_right s.declarations List.mem_cons_self

theorem Scope.subset_declarations_declare (s : Scope) (name : Text) :
    s.declarations ⊆ (s.declare name).declarations := by
  rcases s.declare_cases name with ⟨heq, -⟩ | ⟨var, v, owned, -, heq⟩
  · rw [heq]
    exact List.Subset.refl _
  · rw [heq]
    dsimp only
    split
    · exact List.Subset.refl _
    · exact List.subset_append_left _ _

/-! ### The scopes of a tree -/

namespace ScopeTree

variable {t t' : ScopeTree} {id : Nat} {ids : List Nat} {env : Env} {name : Text}

/-- The variables that a scope has declared, with their values. -/
def declared (id : Nat) (t : ScopeTree) : List (Text × Term) :=
  (t.scopes[id]?.map Scope.declarations).getD []

theorem declarations_eq_map (id : Nat) (t : ScopeTree) :
    t.declarations id = (t.declared id).map fun d => .const d.1 d.2 := by
  unfold declarations declared
  cases t.scopes[id]? <;> rfl

/-- One of several scopes has declared a variable. -/
def DeclaredIn (t : ScopeTree) (ids : List Nat) (var : Text) (v : Term) : Prop :=
  ∃ i ∈ ids, (var, v) ∈ t.declared i

/-- The scopes `ids` of a tree, the nearest first, have the bindings `env`. -/
def Shows (t : ScopeTree) : List Nat → Env → Prop
  | [], [] => True
  | id :: ids, own :: env =>
    (∃ s, t.scopes[id]? = some s ∧ s.outer = ids ∧ (s.silent = true → ids = []) ∧
      s.Shows own env (t.DeclaredIn ids)) ∧ (∀ i ∈ ids, i < id) ∧ Shows t ids env
  | _, _ => False

/-- A tree that has grown while the scopes `ids` were open: all others are as they were. -/
structure Extends (ids : List Nat) (t t' : ScopeTree) : Prop where
  length : t.scopes.length ≤ t'.scopes.length
  declared : ∀ i, t.declared i ⊆ t'.declared i
  frozen : ∀ i < t.scopes.length, i ∉ ids → t'.scopes[i]? = t.scopes[i]?

theorem Extends.refl (ids : List Nat) (t : ScopeTree) : Extends ids t t :=
  ⟨Nat.le_refl _, fun _ => List.Subset.refl _, fun _ _ _ => rfl⟩

theorem Extends.trans {t'' : ScopeTree} (h : Extends ids t t') (h' : Extends ids t' t'') :
    Extends ids t t'' := by
  refine ⟨Nat.le_trans h.length h'.length, fun i => List.Subset.trans (h.declared i) (h'.declared i), ?_⟩
  intro i hi hids
  rw [h'.frozen i (Nat.lt_of_lt_of_le hi h.length) hids, h.frozen i hi hids]

theorem Extends.declaredIn (h : Extends ids t t') {ids' : List Nat} {var : Text} {v : Term}
    (hd : t.DeclaredIn ids' var v) : t'.DeclaredIn ids' var v := by
  obtain ⟨i, hi, hmem⟩ := hd
  exact ⟨i, hi, h.declared i hmem⟩

theorem getElem?_change (f : Scope → Scope) (i : Nat) :
    (t.change id f).scopes[i]? = if id = i then t.scopes[i]?.map f else t.scopes[i]? := by
  rw [change, List.getElem?_modify]
  split <;> simp

theorem extends_change {f : Scope → Scope} (hid : id ∈ ids)
    (hf : ∀ s, s.declarations ⊆ (f s).declarations) : Extends ids t (t.change id f) := by
  refine ⟨?_, fun i => ?_, fun i _ hi => ?_⟩
  · have hlength : (t.change id f).scopes.length = t.scopes.length := by rw [change, List.length_modify]
    exact Nat.le_of_eq hlength.symm
  · unfold declared
    rw [getElem?_change]
    split
    · cases hs : t.scopes[i]? with
      | none => exact List.Subset.refl _
      | some s => exact hf s
    · exact List.Subset.refl _
  · rw [getElem?_change, if_neg]
    rintro rfl
    exact hi hid

namespace Shows

theorem chain {own : Bindings} (h : t.Shows (id :: ids) (own :: env)) : t.chain id = id :: ids := by
  obtain ⟨⟨s, hs, houter, -⟩, -⟩ := h
  rw [ScopeTree.chain, hs, ← houter]

theorem lt_length : ∀ {ids : List Nat} {env : Env}, t.Shows ids env → ∀ i ∈ ids, i < t.scopes.length
  | [], _, _ => fun _ hi => nomatch hi
  | _ :: _, [], h => h.elim
  | _ :: _, _ :: _, h => by
    obtain ⟨⟨s, hs, -⟩, -, hrest⟩ := h
    exact List.forall_mem_cons.mpr ⟨(List.getElem?_eq_some_iff.mp hs).1, lt_length hrest⟩

/-- What scopes show depends on these scopes alone. -/
theorem congr : ∀ {ids : List Nat} {env : Env}, t.Shows ids env →
    (∀ i ∈ ids, t'.scopes[i]? = t.scopes[i]?) → t'.Shows ids env
  | [], [], _, _ => trivial
  | [], _ :: _, h, _ => h.elim
  | _ :: _, [], h, _ => h.elim
  | id :: ids, own :: env, h, heq => by
    obtain ⟨hid, hids⟩ := List.forall_mem_cons.mp heq
    obtain ⟨⟨s, hs, houter, hsilent, hshows⟩, hlt, hrest⟩ := h
    refine ⟨⟨s, hid.trans hs, houter, hsilent, hshows.mono ?_⟩, hlt, congr hrest hids⟩
    rintro var v ⟨i, hi, hmem⟩
    refine ⟨i, hi, ?_⟩
    rwa [declared, hids i hi]

theorem ne_of_mem {own : Bindings} (h : t.Shows (id :: ids) (own :: env)) {i : Nat} (hi : i ∈ ids) :
    id ≠ i := Nat.ne_of_gt (h.2.1 i hi)

/-- Declaring a variable where it is bound or known. -/
theorem declare : ∀ {ids : List Nat} {env : Env}, t.Shows ids env → env.Distinct →
    ∀ i, (t.change i (Scope.declare name)).Shows ids env
  | [], [], _, _, _ => trivial
  | [], _ :: _, h, _, _ => h.elim
  | _ :: _, [], h, _, _ => h.elim
  | id :: ids, own :: env, h, hd, i => by
    have hrest := declare h.2.2 hd.tail i
    obtain ⟨⟨s, hs, houter, hsilent, hshows⟩, hlt, -⟩ := h
    have hout : ∀ var v, t.DeclaredIn ids var v →
        (t.change i (Scope.declare name)).DeclaredIn ids var v := fun var v hv =>
      Extends.declaredIn (extends_change (List.mem_singleton_self i)
        (Scope.subset_declarations_declare · name)) hv
    refine ⟨⟨if i = id then s.declare name else s, ?_, ?_⟩, hlt, hrest⟩
    · rw [getElem?_change, hs]
      split <;> rfl
    · split
      · have hkept : (s.declare name).outer = s.outer ∧ (s.declare name).silent = s.silent := by
          rcases s.declare_cases name with ⟨heq, -⟩ | ⟨_, _, _, -, heq⟩ <;> rw [heq] <;>
            exact ⟨rfl, rfl⟩
        rw [hkept.1, hkept.2]
        exact ⟨houter, hsilent, (hshows.declare hd).mono hout⟩
      · exact ⟨houter, hsilent, hshows.mono hout⟩

theorem change_head {own own' : Bindings} {f : Scope → Scope}
    (h : t.Shows (id :: ids) (own :: env))
    (hf : ∀ s, t.scopes[id]? = some s → s.Shows own env (t.DeclaredIn ids) →
      (s.silent = true → ids = []) → (f s).outer = s.outer ∧ (f s).silent = s.silent ∧
        (f s).Shows own' env (t.DeclaredIn ids)) :
    (t.change id f).Shows (id :: ids) (own' :: env) := by
  have hne : ∀ i ∈ ids, (t.change id f).scopes[i]? = t.scopes[i]? := fun i hi => by
    rw [getElem?_change, if_neg (h.ne_of_mem hi)]
  obtain ⟨⟨s, hs, houter, hsilent, hshows⟩, hlt, hrest⟩ := h
  obtain ⟨hfouter, hfsilent, hfshows⟩ := hf s hs hshows hsilent
  refine ⟨⟨f s, ?_, hfouter.trans houter, hfsilent ▸ hsilent, hfshows.mono ?_⟩, hlt, hrest.congr hne⟩
  · rw [getElem?_change, if_pos rfl, hs]
    rfl
  · rintro var v ⟨i, hi, hmem⟩
    refine ⟨i, hi, ?_⟩
    rwa [declared, hne i hi]

/-- The nearest scope that knows a name knows it as it is bound. -/
theorem binder (name : Text) : ∀ {ids : List Nat} {env : Env}, t.Shows ids env →
    match ids.findSome? fun i => (t.entry? i name).map (i, ·) with
    | none => env.find? name = none
    | some (holder, e) => holder ∈ ids ∧ t.entry? holder name = some e ∧
      ∃ b, env.find? name = some b ∧ e.var = b.var ∧
        ((e.owned = b.owned ∧ e.value = b.value) ∨
          (e.owned = false ∧ e.value = (if b.owned then none else b.value) ∧
            (b.owned = true → ∀ v, b.value = some v → t.DeclaredIn ids b.var v)))
  | [], [], _ => rfl
  | [], _ :: _, h => h.elim
  | _ :: _, [], h => h.elim
  | id :: ids, own :: env, h => by
    have hrest := binder name h.2.2
    obtain ⟨⟨s, hs, -, -, hshows⟩, -⟩ := h
    have hentry : t.entry? id name = s.entry? name := by rw [ entry?, hs, Option.bind_some]
    rw [List.findSome?_cons, hentry, Env.find?]
    cases he : s.entry? name with
    | none =>
        rw [hshows.lookup_eq_none he, Option.none_or]
        dsimp only [Option.map_none]
        revert hrest
        cases ids.findSome? fun i => (t.entry? i name).map (i, ·) with
        | none => exact fun hrest => hrest
        | some p =>
            rintro ⟨hmem, hp, b, hb, hvar, hkind⟩
            refine ⟨List.mem_cons_of_mem id hmem, hp, b, hb, hvar, hkind.imp_right ?_⟩
            rintro ⟨howned, hvalue, hout⟩
            refine ⟨howned, hvalue, fun hbo v hv => ?_⟩
            obtain ⟨i, hi, hi'⟩ := hout hbo v hv
            exact ⟨i, List.mem_cons_of_mem id hi, hi'⟩
    | some e =>
        refine ⟨List.mem_cons_self, hentry.trans he, ?_⟩
        cases hl : own.lookup name with
        | some b =>
            obtain ⟨d, hd⟩ := hshows.binds name b hl
            rw [he] at hd
            cases hd
            exact ⟨b, rfl, rfl, .inl ⟨rfl, rfl⟩⟩
        | none =>
            obtain ⟨howned, b, hb, hvar, hvalue, hout⟩ := hshows.found name e hl he
            refine ⟨b, hb, hvar, .inr ⟨howned, hvalue, fun hbo v hv => ?_⟩⟩
            obtain ⟨i, hi, hi'⟩ := hout hbo v hv
            exact ⟨i, List.mem_cons_of_mem id hi, hi'⟩

theorem scope : ∀ {ids : List Nat} {env : Env}, t.Shows ids env → ∀ i ∈ ids,
    ∃ s own outer outside, t.scopes[i]? = some s ∧ s.Shows own outer outside
  | [], _, _ => fun _ hi => nomatch hi
  | _ :: _, [], h => h.elim
  | _ :: _, _ :: _, h => by
    obtain ⟨⟨s, hs, -, -, hshows⟩, -, hrest⟩ := h
    exact List.forall_mem_cons.mpr ⟨⟨s, _, _, _, hs, hshows⟩, scope hrest⟩

theorem mem_declared (h : t.Shows ids env) {i : Nat} (hi : i ∈ ids) {e : ScopeEntry} {v : Term}
    (he : t.entry? i name = some e) (hv : e.value = some v) :
    (e.var, v) ∈ (t.change i (Scope.declare name)).declared i := by
  obtain ⟨s, _, _, _, hs, hshows⟩ := h.scope i hi
  rw [ entry?, hs, Option.bind_some] at he
  rw [declared, getElem?_change, if_pos rfl, hs]
  exact hshows.mem_declare he hv

/-- The innermost scope remembers what it found further out. -/
theorem remember {own : Bindings} (h : t.Shows (id :: ids) (own :: env))
    (hnone : t.entry? id name = none) (hids : ids ≠ []) {e b : ScopeEntry}
    (hb : Env.find? name (own :: env) = some b) (howned : e.owned = false) (hvar : e.var = b.var)
    (hvalue : e.value = if b.owned then none else b.value)
    (hout : b.owned = true → ∀ v, b.value = some v → t.DeclaredIn ids b.var v)
    (hpending : e.declared = true → e.value = none) :
    (t.change id (Scope.put name e)).Shows (id :: ids) (own :: env) := by
  refine h.change_head fun s hs hshows hsilent => ⟨rfl, rfl, ?_⟩
  have hentry : s.entry? name = none := by
    rwa [ entry?, hs, Option.bind_some] at hnone
  have hloud : s.silent = false := by
    rw [Bool.eq_false_iff]
    exact fun hsil => hids (hsilent hsil)
  rw [Env.find?, hshows.lookup_eq_none hentry, Option.none_or] at hb
  exact hshows.remember hentry hloud howned hb hvar hvalue hout hpending

theorem entry?_change_of_ne {f : Scope → Scope} {i : Nat} (h : i ≠ id) :
    ScopeTree.entry? id name (t.change i f) = t.entry? id name := by
  rw [ entry?, getElem?_change, if_neg h, entry?]

/-- What is known of a name that the innermost scope has no entry for. -/
theorem kind_of_outer {own : Bindings} (h : t.Shows (id :: ids) (own :: env))
    (hnone : t.entry? id name = none) {holder : Nat} {e b : ScopeEntry}
    (hfound : ((id :: ids).findSome? fun i => (t.entry? i name).map (i, ·)) = some (holder, e))
    (hb : Env.find? name (own :: env) = some b) :
    (e.owned = b.owned ∧ e.value = b.value) ∨
      (e.owned = false ∧ e.value = (if b.owned then none else b.value) ∧
        (b.owned = true → ∀ v, b.value = some v → t.DeclaredIn ids b.var v)) := by
  have hbinder := h.2.2.binder name
  obtain ⟨s, hs, -, -, hshows⟩ := h.1
  rw [List.findSome?_cons, hnone] at hfound
  dsimp only [Option.map_none] at hfound
  rw [hfound] at hbinder
  rw [ entry?, hs, Option.bind_some] at hnone
  rw [Env.find?, hshows.lookup_eq_none hnone, Option.none_or] at hb
  obtain ⟨-, -, b', hb', -, hkind⟩ := hbinder
  rw [hb] at hb'
  cases hb'
  exact hkind

/-- A name is found to be the variable that the environment has for it, which is declared if it has a
value. -/
theorem resolve {own : Bindings} (h : t.Shows (id :: ids) (own :: env))
    (hd : Env.Distinct (own :: env)) (name : Text) :
    (t.resolve id name).1 = (Env.find? name (own :: env)).map (·.var) ∧
    (t.resolve id name).2.Shows (id :: ids) (own :: env) ∧
    (∀ b v, Env.find? name (own :: env) = some b → b.value = some v →
      (t.resolve id name).2.DeclaredIn (id :: ids) b.var v) ∧
    Extends (id :: ids) t (t.resolve id name).2 := by
  have hbinder := h.binder name
  have hdeclare : ∀ (u : ScopeTree) (i : Nat), i ∈ id :: ids →
      Extends (id :: ids) u (u.change i (Scope.declare name)) := fun u i hi =>
    extends_change hi (Scope.subset_declarations_declare · name)
  have hput : ∀ (u : ScopeTree) (e : ScopeEntry),
      Extends (id :: ids) u (u.change id (Scope.put name e)) := fun u e =>
    extends_change List.mem_cons_self fun _ => List.Subset.refl _
  unfold ScopeTree.resolve binder?
  rw [h.chain]
  rcases hfound : (id :: ids).findSome? fun i => (t.entry? i name).map (i, ·) with _ | ⟨holder, e⟩
  · rw [hfound] at hbinder
    rw [hbinder]
    exact ⟨rfl, h, (fun b v hb => nomatch hb), .refl _ _⟩
  rw [hfound] at hbinder
  obtain ⟨hmem, hholder, b, hb, hvar, hkind⟩ := hbinder
  have hresult : some e.var = (Env.find? name (own :: env)).map (·.var) := by
    rw [hb, hvar]
    rfl
  by_cases hid : holder = id
  · -- the scope knows the name already, and declares it if need be
    subst hid
    simp only [if_true, ite_self]
    refine ⟨hresult, h.declare hd holder, fun b' v hb' hv => ?_, hdeclare t holder hmem⟩
    rw [hb] at hb'
    cases hb'
    have hhere : ∀ v, e.value = some v →
        (t.change holder (Scope.declare name)).DeclaredIn (holder :: ids) b.var v := fun v hv =>
      ⟨holder, hmem, hvar ▸ h.mem_declared hmem hholder hv⟩
    rcases hkind with ⟨-, hvalue⟩ | ⟨-, hvalue, hout⟩
    · exact hhere v (hvalue.trans hv)
    · cases hbo : b.owned with
      | true => exact (hdeclare t holder hmem).declaredIn (hout hbo v hv)
      | false =>
          rw [hbo] at hvalue
          exact hhere v (hvalue.trans hv)
  · have hids : holder ∈ ids := (List.mem_cons.mp hmem).resolve_left hid
    have hnil : ids ≠ [] := List.ne_nil_of_mem hids
    have hnone : t.entry? id name = none := by
      rw [List.findSome?_cons] at hfound
      cases he : t.entry? id name with
      | none => rfl
      | some e' =>
          rw [he] at hfound
          cases hfound
          exact absurd rfl hid
    have hkind := h.kind_of_outer hnone hfound hb
    simp only [if_neg hid]
    cases howned : e.owned with
    | true =>
        -- an owned variable is declared where it is bound
        obtain ⟨hbowned, hvalue⟩ : b.owned = true ∧ e.value = b.value := by
          rcases hkind with ⟨heq, hvalue⟩ | ⟨heq, -⟩
          · exact ⟨heq ▸ howned, hvalue⟩
          · rw [howned] at heq
            cases heq
        have hout : b.owned = true → ∀ v, b.value = some v →
            (t.change holder (Scope.declare name)).DeclaredIn ids b.var v := fun _ v hv =>
          ⟨holder, hids, hvar ▸ h.mem_declared hmem hholder (hvalue.trans hv)⟩
        rw [if_pos rfl]
        refine ⟨hresult, ?_, fun b' v hb' hv => ?_, (hdeclare t holder hmem).trans (hput _ _)⟩
        · refine (h.declare hd holder).remember ?_ hnil hb rfl hvar ?_ hout fun _ => rfl
          · rw [entry?_change_of_ne hid, hnone]
          · rw [hbowned]
            rfl
        · rw [hb] at hb'
          cases hb'
          obtain ⟨i, hi, hmem'⟩ := (hput _ _).declaredIn (hout hbowned v hv)
          exact ⟨i, List.mem_cons_of_mem id hi, hmem'⟩
    | false =>
        -- any other variable is declared by every scope that reads it
        obtain ⟨hvalue, hout⟩ : (e.value = if b.owned then none else b.value) ∧
            (b.owned = true → ∀ v, b.value = some v → t.DeclaredIn ids b.var v) := by
          rcases hkind with ⟨heq, hvalue⟩ | ⟨-, hvalue, hout⟩
          · rw [← heq, howned, hvalue]
            exact ⟨rfl, fun h => nomatch h⟩
          · exact ⟨hvalue, hout⟩
        have hknown : (t.change id (Scope.put name { var := e.var, value := e.value })).Shows
            (id :: ids) (own :: env) :=
          h.remember hnone hnil hb rfl hvar hvalue hout fun hde => nomatch hde
        rw [if_neg Bool.false_ne_true]
        have hgrown := (hput t { var := e.var, value := e.value }).trans
          (hdeclare _ id List.mem_cons_self)
        refine ⟨hresult, hknown.declare hd id, fun b' v hb' hv => ?_, hgrown⟩
        rw [hb] at hb'
        cases hb'
        cases hbo : b.owned with
        | true =>
            obtain ⟨i, hi, hmem'⟩ := hgrown.declaredIn (hout hbo v hv)
            exact ⟨i, List.mem_cons_of_mem id hi, hmem'⟩
        | false =>
            rw [hbo] at hvalue
            have hentry : ScopeTree.entry? id name
                (t.change id (Scope.put name { var := e.var, value := e.value })) =
                  some { var := e.var, value := e.value } := by
              obtain ⟨s, hs, -⟩ := h.1
              rw [ entry?, getElem?_change, if_pos rfl, hs, Option.map_some, Option.bind_some,
                Scope.entry?_put, if_pos rfl]
            have hmem' := hknown.mem_declared List.mem_cons_self hentry (hvalue.trans hv)
            exact ⟨id, List.mem_cons_self, hvar ▸ hmem'⟩

/-- A new scope knows no name. -/
theorem nest {own : Bindings} (h : t.Shows (id :: ids) (own :: env)) :
    (t.nest id false).2.Shows (t.scopes.length :: id :: ids) ([] :: own :: env) := by
  have hold : ∀ i ∈ id :: ids, (t.nest id false).2.scopes[i]? = t.scopes[i]? := fun i hi =>
    List.getElem?_append_left (h.lt_length i hi)
  refine ⟨⟨{ outer := t.chain id, silent := false }, ?_, h.chain, (fun h => nomatch h), ?_⟩,
    h.lt_length, h.congr hold⟩
  · exact List.getElem?_concat_length
  · exact ⟨(fun _ _ h => nomatch h), (fun _ _ _ h => nomatch h), (fun _ _ _ h => nomatch h),
      (fun _ _ h => nomatch h), List.nodup_nil, fun h => nomatch h⟩

/-- Binding a name that the innermost scope does not know. -/
theorem bind {own : Bindings} (h : t.Shows (id :: ids) (own :: env)) (hids : ids ≠ [])
    {e : ScopeEntry} (hpending : e.declared = false) (hrun : t.bind id name e = .ok t') :
    t'.Shows (id :: ids) ((own ++ [(name, e)]) :: env) ∧ Extends (id :: ids) t t' := by
  unfold ScopeTree.bind at hrun
  split at hrun
  · cases hrun
  · next hnone =>
      cases hrun
      refine ⟨h.change_head fun s hs hshows hsilent => ⟨rfl, rfl, ?_⟩,
        extends_change List.mem_cons_self fun _ => List.Subset.refl _⟩
      rw [ entry?, hs, Option.bind_some] at hnone
      refine hshows.bind hnone ?_ hpending
      rw [Bool.eq_false_iff]
      exact fun hsil => hids (hsilent hsil)

end Shows

theorem extends_nest (id : Nat) (ids : List Nat) (t : ScopeTree) :
    Extends ids t (t.nest id false).2 := by
  have hold : ∀ i < t.scopes.length, (t.nest id false).2.scopes[i]? = t.scopes[i]? := fun i hi =>
    List.getElem?_append_left hi
  refine ⟨?_, fun i => ?_, fun i hi _ => hold i hi⟩
  · rw [nest, List.length_append]
    omega
  · by_cases hi : i < t.scopes.length
    · rw [declared, declared, hold i hi]
      exact List.Subset.refl _
    · rw [declared, List.getElem?_eq_none (Nat.le_of_not_lt hi)]
      exact List.nil_subset _

/-- What happened while a new scope was open happened while the scopes around it were. -/
theorem Extends.leave {t'' : ScopeTree} (h : Extends ids t t') (hid : t.scopes.length ≤ id)
    (h' : Extends (id :: ids) t' t'') : Extends ids t t'' := by
  refine ⟨Nat.le_trans h.length h'.length, fun i => List.Subset.trans (h.declared i) (h'.declared i), ?_⟩
  intro i hi hids
  rw [h'.frozen i (Nat.lt_of_lt_of_le hi h.length), h.frozen i hi hids]
  rw [List.mem_cons, not_or]
  exact ⟨Nat.ne_of_lt (Nat.lt_of_lt_of_le hi hid), hids⟩

end ScopeTree

end TemplateCompiler
