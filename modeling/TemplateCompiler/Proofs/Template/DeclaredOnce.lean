import TemplateCompiler.Proofs.Template.Remembering

/-!
# What scopes declare

The entry of a name is copied into every scope that reads the name, and each copy says for itself
whether its variable is declared. Here the calls that were made on a tree of scopes are kept in a log, and
the declarations of a scope are read off this log.

* `CallLog` : the calls with what they gave. Of interest are the `Bound` variables and those that a scope
  `Gave`;
* `Made log t` : the calls of `log`, none of which failed, have made the tree `t` from a root. No variable
  was bound twice, and only the root is silent;
* `Traced` : every entry of a tree stems from a binding, and what is declared was given;
* `Prompt` : what was given is declared;
* `Made.declared_iff` : the variables that a scope has declared, each once and before it is given.
-/

namespace TemplateCompiler

def ScopeCall.scope : ScopeCall → Nat
  | .nest id _ | .bind id _ _ _ _ | .get id _ | .fresh id => id

/-- What a call binds: the scope, the name, and what the name is bound to. -/
def ScopeCall.binding? : ScopeCall → Option (Nat × Text × ScopeEntry)
  | .bind id name var value owned => some (id, name, { var, value, owned })
  | _ => none

/-- Calls that were made, the last one first, each with what it gave. -/
abbrev CallLog := List (ScopeCall × ScopeAnswer)

namespace CallLog

/-- A variable with a value was bound in the scope `id`. -/
def Bound (log : CallLog) (id : Nat) (var : Text) (v : Term) (owned : Bool) : Prop :=
  ∃ name answer, (.bind id name var (some v) owned, answer) ∈ log

/-- A read in the scope `id` gave a variable. -/
def Gave (log : CallLog) (id : Nat) (var : Text) : Prop :=
  ∃ name, (.get id name, .variable (some var)) ∈ log

/-- The bindings that were made, with that of the root. -/
def bindings (log : CallLog) : List (Nat × Text × ScopeEntry) :=
  log.filterMap (·.1.binding?) ++ [(0, eventName, { var := eventName })]

end CallLog

/-- A call that can be made on a tree: it does not fail, it adds no silent scope, and it binds no variable
that is bound already. -/
structure Admits (log : CallLog) (t : ScopeTree) (call : ScopeCall) : Prop where
  scope : call.scope < t.scopes.length
  loud : ∀ id, call ≠ .nest id true
  accepted : ∀ f, (t.perform call).1 ≠ .refused f
  unbound : ∀ b, call.binding? = some b → b.2.2.var ∉ log.bindings.map (·.2.2.var)

/-- The calls of a log have made a tree from a root. -/
inductive Made : CallLog → ScopeTree → Prop where
  | root : Made [] .root
  | call {log : CallLog} {t : ScopeTree} (h : Made log t) (call : ScopeCall) (hcall : Admits log t call) :
    Made ((call, (t.perform call).1) :: log) (t.perform call).2

/-! ### One scope -/

namespace ScopeEntry

/-- An entry whose variable has been declared, if it has a value. -/
def settled (e : ScopeEntry) : ScopeEntry := { e with declared := e.declared || e.value.isSome }

/-- What a scope remembers of a name that it found further out. -/
def copied (e : ScopeEntry) : ScopeEntry :=
  if e.owned then { var := e.var, declared := true } else { var := e.var, value := e.value }

@[simp] theorem copied_var (e : ScopeEntry) : e.copied.var = e.var := by
  unfold copied
  split <;> rfl

@[simp] theorem copied_owned (e : ScopeEntry) : e.copied.owned = false := by
  unfold copied
  split <;> rfl

@[simp] theorem copied_value (e : ScopeEntry) :
    e.copied.value = if e.owned then none else e.value := by
  unfold copied
  split <;> rfl

theorem value_of_copied_declared {e : ScopeEntry} (h : e.copied.declared = true) :
    e.copied.value = none := by
  unfold copied at h ⊢
  split at h
  · next howned => rw [if_pos howned]
  · cases h

end ScopeEntry

theorem Scope.entry?_declare (n name : Text) (s : Scope) :
    Scope.entry? n (s.declare name) =
      if n = name then (s.entry? n).map ScopeEntry.settled else s.entry? n := by
  rcases s.declare_cases name with ⟨heq, hdeclared⟩ | ⟨var, v, owned, he, heq⟩
  · rw [heq]
    split
    · next hname =>
        subst hname
        cases he : s.entry? n with
        | none => rfl
        | some e =>
            have hprompt : e.settled = e := by
              have hd : (e.declared || e.value.isSome) = e.declared := by
                cases hv : e.value with
                | none => exact Bool.or_false _
                | some v => rw [hdeclared e v he hv, Bool.true_or]
              unfold ScopeEntry.settled
              rw [hd]
            rw [Option.map_some, hprompt]
    · rfl
  · rw [heq]
    change Scope.entry? n (s.put name ⟨var, some v, true, owned⟩) = _
    rw [Scope.entry?_put]
    split
    · next hname =>
        rw [hname, he]
        rfl
    · rfl

/-! ### The scopes of a tree -/

namespace ScopeTree

variable {t : ScopeTree} {id i : Nat} {name n : Text} {e : ScopeEntry}

theorem lt_length_of_entry? (h : t.entry? i n = some e) : i < t.scopes.length := by
  rw [ entry?, Option.bind_eq_some_iff] at h
  obtain ⟨s, hs, -⟩ := h
  exact (List.getElem?_eq_some_iff.mp hs).1

theorem entry?_put (hid : id < t.scopes.length) (i : Nat) (n : Text) :
    ScopeTree.entry? i n (t.change id (Scope.put name e)) =
      if i = id ∧ n = name then some e else t.entry? i n := by
  rw [ entry?, getElem?_change, entry?]
  by_cases hi : id = i
  · subst hi
    rw [if_pos rfl, List.getElem?_eq_getElem hid]
    change Scope.entry? n (Scope.put name e _) = _
    rw [Scope.entry?_put]
    by_cases hn : n = name
    · rw [if_pos hn, if_pos ⟨rfl, hn⟩]
    · rw [if_neg hn, if_neg fun h => hn h.2]
      rfl
  · rw [if_neg hi, if_neg fun h => hi h.1.symm]

theorem entry?_declare (t : ScopeTree) (id : Nat) (name : Text) (i : Nat) (n : Text) :
    ScopeTree.entry? i n (t.change id (Scope.declare name)) =
      if i = id ∧ n = name then (t.entry? i n).map ScopeEntry.settled else t.entry? i n := by
  rw [ entry?, getElem?_change, entry?]
  by_cases hi : id = i
  · subst hi
    rw [if_pos rfl]
    cases t.scopes[id]? with
    | none => split <;> rfl
    | some s =>
        change Scope.entry? n (s.declare name) = _
        rw [Scope.entry?_declare, Option.bind_some]
        by_cases hn : n = name
        · rw [if_pos hn, if_pos ⟨rfl, hn⟩]
        · rw [if_neg hn, if_neg fun h => hn h.2]
  · rw [if_neg hi, if_neg fun h => hi h.1.symm]

theorem chain_put (id : Nat) (name : Text) (e : ScopeEntry) (t : ScopeTree) (i : Nat) :
    (t.change id (Scope.put name e)).chain i = t.chain i := by
  rw [← plain_chain, plain_put, PlainTree.chain_put, plain_chain]

theorem chain_declare (id : Nat) (name : Text) (t : ScopeTree) (i : Nat) :
    (t.change id (Scope.declare name)).chain i = t.chain i := by
  rw [← plain_chain, plain_declare, plain_chain]

theorem declared_put (id : Nat) (name : Text) (e : ScopeEntry) (t : ScopeTree) (i : Nat) :
    (t.change id (Scope.put name e)).declared i = t.declared i := by
  unfold declared
  rw [getElem?_change]
  split
  · cases t.scopes[i]? <;> rfl
  · rfl

theorem declared_declare_of_ne (h : i ≠ id) (name : Text) (t : ScopeTree) :
    (t.change id (Scope.declare name)).declared i = t.declared i := by
  rw [declared, getElem?_change, if_neg h.symm, declared]

/-- Nothing happens, unless the name has a variable that is left to declare. -/
theorem declare_cases (id : Nat) (name : Text) (t : ScopeTree) :
    t.change id (Scope.declare name) = t ∨
      ∃ e v, t.entry? id name = some e ∧ e.value = some v ∧ e.declared = false := by
  by_cases hself : ∀ s, t.scopes[id]? = some s → s.declare name = s
  · refine .inl (congrArg (ScopeTree.mk · t.fresh) (List.ext_getElem? fun i => ?_))
    change (t.change id _).scopes[i]? = t.scopes[i]?
    rw [getElem?_change]
    split
    · next hi =>
        subst hi
        cases hs : t.scopes[id]? with
        | none => rfl
        | some s => rw [Option.map_some, hself s hs]
    · rfl
  · obtain ⟨s, hs⟩ := not_forall.mp hself
    obtain ⟨hs, hne⟩ := Classical.not_imp.mp hs
    rcases s.declare_cases name with ⟨heq, -⟩ | ⟨var, v, owned, he, -⟩
    · exact absurd heq hne
    · exact .inr ⟨_, v, by rw [ entry?, hs, Option.bind_some, he], rfl, rfl⟩

/-- A variable is declared after those that are declared already. -/
theorem declared_declare_pending (hloud : ∀ s, t.scopes[id]? = some s → s.silent = false) {v : Term}
    (he : t.entry? id name = some e) (hv : e.value = some v) (hpending : e.declared = false) :
    (t.change id (Scope.declare name)).declared id = t.declared id ++ [(e.var, v)] := by
  rw [declared, getElem?_change, if_pos rfl, declared]
  rw [ entry?, Option.bind_eq_some_iff] at he
  obtain ⟨s, hs, he⟩ := he
  rw [hs]
  rcases s.declare_cases name with ⟨-, hdeclared⟩ | ⟨var, w, owned, he', heq⟩
  · rw [hdeclared e v he hv] at hpending
    cases hpending
  · rw [he, Option.some_inj] at he'
    subst he'
    cases hv
    refine (congrArg Scope.declarations heq).trans ?_
    rw [hloud s hs]
    rfl

def remember (id : Nat) (name : Text) (holder : Nat) (e : ScopeEntry) (t : ScopeTree) : ScopeTree :=
  if holder = id then t else t.change id (Scope.put name e.copied)

theorem chain_remember (id : Nat) (name : Text) (holder : Nat) (e : ScopeEntry) (t : ScopeTree) (i : Nat) :
    (t.remember id name holder e).chain i = t.chain i := by
  unfold remember
  split
  · rfl
  · exact chain_put id name e.copied t i

theorem entry?_remember (hid : id < t.scopes.length) (holder i : Nat) (n : Text) :
    ScopeTree.entry? i n (t.remember id name holder e) =
      if holder ≠ id ∧ i = id ∧ n = name then some e.copied else t.entry? i n := by
  unfold remember
  split
  · next hholder => rw [if_neg fun h => h.1 hholder]
  · next hholder =>
      rw [entry?_put hid]
      by_cases hplace : i = id ∧ n = name
      · rw [if_pos hplace, if_pos ⟨hholder, hplace⟩]
      · rw [if_neg hplace, if_neg fun h => hplace h.2]

/-- A read in terms of what it remembers and what it declares. -/
theorem resolve_eq {holder : Nat} (h : t.binder? id name = some (holder, e)) :
    t.resolve id name = (some e.var, (t.remember id name holder e).change
      (if e.owned then holder else id) (Scope.declare name)) := by
  have hcomm : holder ≠ id → ∀ k : ScopeEntry,
      (t.change holder (Scope.declare name)).change id (Scope.put name k) =
        (t.change id (Scope.put name k)).change holder (Scope.declare name) := by
    intro hne k
    refine congrArg (ScopeTree.mk · t.fresh) (List.ext_getElem? fun i => ?_)
    change ((t.change holder _).change id _).scopes[i]? = ((t.change id _).change holder _).scopes[i]?
    simp only [getElem?_change]
    by_cases hi : holder = i
    · have hid : ¬id = i := fun h' => hne (hi.trans h'.symm)
      rw [if_pos hi, if_neg hid, if_pos hi, if_neg hid]
    · rw [if_neg hi, if_neg hi]
  unfold resolve remember
  rw [h]
  dsimp only
  cases howned : e.owned with
  | true =>
      rw [if_pos rfl, if_pos rfl]
      by_cases hid : holder = id
      · rw [if_pos hid, if_pos hid]
      · rw [if_neg hid, if_neg hid, hcomm hid, ScopeEntry.copied, if_pos howned]
  | false =>
      rw [if_neg Bool.false_ne_true, if_neg Bool.false_ne_true, ScopeEntry.copied, howned,
        if_neg Bool.false_ne_true]

theorem binder?_eq_some {holder : Nat} (hid : id < t.scopes.length)
    (h : t.binder? id name = some (holder, e)) :
    holder ∈ t.chain id ∧ t.entry? holder name = some e ∧ (holder ≠ id → t.entry? id name = none) := by
  have hchain : t.chain id = id :: t.scopes[id].outer := by
    rw [chain, List.getElem?_eq_getElem hid]
  obtain ⟨i, hi, heq⟩ := List.exists_of_findSome?_eq_some h
  obtain ⟨e', he', hpair⟩ := Option.map_eq_some_iff.mp heq
  cases hpair
  refine ⟨hi, he', fun hne => ?_⟩
  rw [binder?, hchain, List.findSome?_cons] at h
  cases hown : t.entry? id name with
  | none => rfl
  | some own =>
      rw [hown] at h
      cases h
      exact absurd rfl hne

theorem entry?_nest (id : Nat) (t : ScopeTree) (i : Nat) (n : Text) :
    ScopeTree.entry? i n (t.nest id false).2 = t.entry? i n := by
  unfold entry? nest
  rw [List.getElem?_append]
  split
  · rfl
  · next hi =>
      rw [List.getElem?_eq_none (Nat.le_of_not_lt hi), List.getElem?_singleton]
      split <;> rfl

theorem declared_nest (id : Nat) (t : ScopeTree) (i : Nat) :
    (t.nest id false).2.declared i = t.declared i := by
  unfold declared nest
  rw [List.getElem?_append]
  split
  · rfl
  · next hi =>
      rw [List.getElem?_eq_none (Nat.le_of_not_lt hi), List.getElem?_singleton]
      split <;> rfl

theorem lt_length_of_mem_chain {j : Nat} (h : j ∈ t.chain i) : i < t.scopes.length := by
  by_contra hi
  rw [chain, List.getElem?_eq_none (Nat.le_of_not_lt hi)] at h
  cases h

theorem chain_nest (id : Nat) (hi : i < t.scopes.length) : (t.nest id false).2.chain i = t.chain i := by
  unfold chain nest
  rw [List.getElem?_append_left hi]

/-- The scopes around a scope that is around another are around this one. -/
theorem mem_chain_trans (h : t.plain.Nested) {j k : Nat} (hj : j ∈ t.chain i) (hk : k ∈ t.chain j) :
    k ∈ t.chain i := by
  obtain ⟨inner, outer, hchain⟩ := List.append_of_mem hj
  obtain ⟨-, hj'⟩ := h i inner j outer ((plain_chain i t).trans hchain)
  rw [plain_chain] at hj'
  rw [hj'] at hk
  rw [hchain]
  exact List.mem_append_right inner hk

end ScopeTree

/-! ### Where entries come from -/

section Traced

variable {made made' : List (Nat × Text × ScopeEntry)} {given given' : Nat → Text → Prop}
  {t : ScopeTree} {id i i' : Nat} {name n n' : Text} {e e' : ScopeEntry}

/-- An entry of the scope `i` is that of one of its bindings, or of a binding further out whose variable
was given to this scope. -/
def Stems (made : List (Nat × Text × ScopeEntry)) (given : Nat → Text → Prop) (t : ScopeTree) (i : Nat)
    (n : Text) (e : ScopeEntry) : Prop :=
  ∃ j b, (j, n, b) ∈ made ∧ e.var = b.var ∧
    ((j = i ∧ e.value = b.value ∧ e.owned = b.owned) ∨
      (j ∈ t.chain i ∧ given i e.var ∧ e.owned = false ∧ e.value = if b.owned then none else b.value))

/-- The variable of an entry of the scope `i` is to be declared there, as it was given: to this scope, or
for an owned variable to any scope inside. -/
def Due (given : Nat → Text → Prop) (t : ScopeTree) (i : Nat) (e : ScopeEntry) : Prop :=
  if e.owned then ∃ j, i ∈ t.chain j ∧ given j e.var else given i e.var

/-- A tree whose entries come from the bindings `made`, and whose declarations come from its entries and
from the variables that were `given` to its scopes. -/
structure Traced (made : List (Nat × Text × ScopeEntry)) (given : Nat → Text → Prop)
    (t : ScopeTree) : Prop where
  distinct : (made.map (·.2.2.var)).Nodup
  nested : t.plain.Nested
  loud : ∀ i s, t.scopes[i]? = some s → i ≠ 0 → s.silent = false
  keeps : ∀ i n b, (i, n, b) ∈ made → ∃ d, t.entry? i n = some { b with declared := d }
  stems : ∀ i n e, t.entry? i n = some e → Stems made given t i n e
  due : ∀ i n e v, t.entry? i n = some e → e.value = some v → e.declared = true → Due given t i e
  listed : ∀ i, i ≠ 0 → ∀ var v, (var, v) ∈ t.declared i ↔
    ∃ n e, t.entry? i n = some e ∧ e.var = var ∧ e.value = some v ∧ e.declared = true
  nodup : ∀ i, i ≠ 0 → ((t.declared i).map (·.1)).Nodup

/-- A tree whose scopes know what was given to them, and have declared it where they had to. -/
structure Prompt (given : Nat → Text → Prop) (t : ScopeTree) : Prop where
  known : ∀ i var, given i var → ∃ n e, t.entry? i n = some e ∧ e.var = var
  declares : ∀ i n e v, t.entry? i n = some e → e.value = some v → Due given t i e → e.declared = true

theorem Due.mono (h : Due given t i e) (hmono : ∀ i var, given i var → given' i var) :
    Due given' t i e := by
  unfold Due at h ⊢
  split
  · next howned =>
      rw [if_pos howned] at h
      obtain ⟨j, hj, hgiven⟩ := h
      exact ⟨j, hj, hmono j _ hgiven⟩
  · next howned =>
      rw [if_neg howned] at h
      exact hmono i _ h

theorem Stems.mono (h : Stems made given t i n e) (hmade : made ⊆ made')
    (hmono : ∀ i var, given i var → given' i var) : Stems made' given' t i n e := by
  obtain ⟨j, b, hb, hvar, hkind⟩ := h
  refine ⟨j, b, hmade hb, hvar, hkind.imp_right ?_⟩
  rintro ⟨hj, hgiven, hrest⟩
  exact ⟨hj, hmono i _ hgiven, hrest⟩

namespace Traced

theorem mono (h : Traced made given t) (hmono : ∀ i var, given i var → given' i var) :
    Traced made given' t where
  distinct := h.distinct
  nested := h.nested
  loud := h.loud
  keeps := h.keeps
  stems i n e he := (h.stems i n e he).mono (List.Subset.refl _) hmono
  due i n e v he hv hd := (h.due i n e v he hv hd).mono hmono
  listed := h.listed
  nodup := h.nodup

theorem binding_unique (h : Traced made given t) {j j' : Nat} {b b' : ScopeEntry}
    (hb : (j, n, b) ∈ made) (hb' : (j', n', b') ∈ made) (hvar : b.var = b'.var) :
    j = j' ∧ n = n' ∧ b = b' := by
  have heq := List.inj_on_of_nodup_map h.distinct hb hb' hvar
  cases heq
  exact ⟨rfl, rfl, rfl⟩

theorem name_eq (h : Traced made given t) (he : t.entry? i n = some e)
    (he' : t.entry? i' n' = some e') (hvar : e.var = e'.var) : n = n' := by
  obtain ⟨j, b, hb, hbvar, -⟩ := h.stems i n e he
  obtain ⟨j', b', hb', hbvar', -⟩ := h.stems i' n' e' he'
  exact (h.binding_unique hb hb' (by rw [← hbvar, ← hbvar', hvar])).2.1

/-- A scope has a new entry: that of a new binding, or a copy. -/
theorem put (h : Traced made given t) (hid : id < t.scopes.length) (hnone : t.entry? id name = none)
    (hpending : e.declared = true → e.value = none) (hdistinct : (made'.map (·.2.2.var)).Nodup)
    (hmade : made ⊆ made') (hnew : ∀ b ∈ made', b ∈ made ∨ b = (id, name, e))
    (hstems : Stems made' given t id name e) :
    Traced made' given (t.change id (Scope.put name e)) := by
  have hentry := @ScopeTree.entry?_put t id name e hid
  have hchain := ScopeTree.chain_put id name e t
  -- the entries there were are not at the place of the new one
  have hold : ∀ i n e', t.entry? i n = some e' →
      ScopeTree.entry? i n (t.change id (Scope.put name e)) = some e' := by
    intro i n e' he'
    rw [hentry, if_neg, he']
    rintro ⟨rfl, rfl⟩
    rw [hnone] at he'
    cases he'
  refine ⟨hdistinct, ?_, fun i s hs hi => ?_, fun i n b hb => ?_, fun i n e' he' => ?_,
    fun i n e' v he' hv hd => ?_, fun i hi var v => ?_, fun i hi => ?_⟩
  · rw [ScopeTree.plain_put]
    exact h.nested.put id name e.var
  · rw [ScopeTree.getElem?_change] at hs
    split at hs
    · obtain ⟨s', hs', rfl⟩ := Option.map_eq_some_iff.mp hs
      exact h.loud i s' hs' hi
    · exact h.loud i s hs hi
  · rcases hnew _ hb with hb | hb
    · obtain ⟨d, hd⟩ := h.keeps i n b hb
      exact ⟨d, hold i n _ hd⟩
    · cases hb
      exact ⟨e.declared, by rw [hentry, if_pos ⟨rfl, rfl⟩]⟩
  · rw [Stems, hchain]
    rw [hentry] at he'
    split at he'
    · next hplace =>
        obtain ⟨rfl, rfl⟩ := hplace
        cases he'
        exact hstems
    · exact (h.stems i n e' he').mono hmade fun _ _ hg => hg
  · simp only [Due, hchain]
    rw [hentry] at he'
    split at he'
    · cases he'
      rw [hpending hd] at hv
      cases hv
    · exact h.due i n e' v he' hv hd
  · rw [ScopeTree.declared_put, h.listed i hi]
    constructor
    · rintro ⟨n, e', he', hrest⟩
      exact ⟨n, e', hold i n e' he', hrest⟩
    · rintro ⟨n, e', he', hvar, hv, hd⟩
      rw [hentry] at he'
      split at he'
      · cases he'
        rw [hpending hd] at hv
        cases hv
      · exact ⟨n, e', he', hvar, hv, hd⟩
  · rw [ScopeTree.declared_put]
    exact h.nodup i hi

theorem declare (h : Traced made given t)
    (hdue : ∀ e v, t.entry? id name = some e → e.value = some v → Due given t id e) :
    Traced made given (t.change id (Scope.declare name)) := by
  rcases ScopeTree.declare_cases id name t with heq | ⟨e, v, he, hv, hpending⟩
  · rw [heq]
    exact h
  have hchain := ScopeTree.chain_declare id name t
  have hprompt : e.settled = { e with declared := true } := by
    rw [ScopeEntry.settled, hv, Option.isSome_some, Bool.or_true]
  have hentry : ∀ i n, ScopeTree.entry? i n (t.change id (Scope.declare name)) =
      if i = id ∧ n = name then some { e with declared := true } else t.entry? i n := by
    intro i n
    rw [ScopeTree.entry?_declare]
    split
    · next hplace => rw [hplace.1, hplace.2, he, Option.map_some, hprompt]
    · rfl
  have hdeclared : ∀ i, i ≠ 0 → (t.change id (Scope.declare name)).declared i =
      t.declared i ++ if i = id then [(e.var, v)] else [] := by
    intro i hi
    split
    · next hid =>
        subst hid
        exact ScopeTree.declared_declare_pending (h.loud i · · hi) he hv hpending
    · next hid => rw [ScopeTree.declared_declare_of_ne hid, List.append_nil]
  refine ⟨h.distinct, ?_, fun i s hs hi => ?_, fun i n b hb => ?_, fun i n e' he' => ?_,
    fun i n e' v' he' hv' hd' => ?_, fun i hi var v' => ?_, fun i hi => ?_⟩
  · rw [ScopeTree.plain_declare]
    exact h.nested
  · rw [ScopeTree.getElem?_change] at hs
    split at hs
    · obtain ⟨s', hs', rfl⟩ := Option.map_eq_some_iff.mp hs
      have hsilent : (s'.declare name).silent = s'.silent := by
        rcases s'.declare_cases name with ⟨heq, -⟩ | ⟨_, _, _, -, heq⟩ <;> rw [heq]
        rfl
      exact hsilent.trans (h.loud i s' hs' hi)
    · exact h.loud i s hs hi
  · obtain ⟨d, hd⟩ := h.keeps i n b hb
    rw [hentry]
    split
    · next hplace =>
        rw [hplace.1, hplace.2, he, Option.some_inj] at hd
        exact ⟨true, by rw [hd]⟩
    · exact ⟨d, hd⟩
  · rw [Stems, hchain]
    rw [hentry] at he'
    split at he'
    · next hplace =>
        obtain ⟨rfl, rfl⟩ := hplace
        cases he'
        exact h.stems i n e he
    · exact h.stems i n e' he'
  · simp only [Due, hchain]
    rw [hentry] at he'
    split at he'
    · next hplace =>
        obtain ⟨rfl, rfl⟩ := hplace
        cases he'
        exact hdue e v he hv
    · exact h.due i n e' v' he' hv' hd'
  · rw [hdeclared i hi, List.mem_append, h.listed i hi]
    constructor
    · rintro (⟨n, e', he', hvar, hv', hd'⟩ | hmem)
      · refine ⟨n, e', ?_, hvar, hv', hd'⟩
        rw [hentry, if_neg, he']
        rintro ⟨rfl, rfl⟩
        rw [he] at he'
        cases he'
        rw [hpending] at hd'
        cases hd'
      · split at hmem
        · next hid =>
            cases List.mem_singleton.mp hmem
            exact ⟨name, { e with declared := true }, by rw [hentry, if_pos ⟨hid, rfl⟩], rfl, hv, rfl⟩
        · cases hmem
    · rintro ⟨n, e', he', hvar, hv', hd'⟩
      rw [hentry] at he'
      split at he'
      · next hplace =>
          cases he'
          have hvv : v = v' := Option.some_inj.mp (hv.symm.trans hv')
          rw [if_pos hplace.1, ← hvar, hvv]
          exact .inr List.mem_cons_self
      · exact .inl ⟨n, e', he', hvar, hv', hd'⟩
  · rw [hdeclared i hi, List.map_append, List.nodup_append]
    split
    · next hid =>
        subst hid
        refine ⟨h.nodup i hi, List.nodup_singleton _, fun a ha b hb hab => ?_⟩
        -- what is declared so far has entries with other names
        obtain ⟨⟨var, v'⟩, hmem, rfl⟩ := List.mem_map.mp ha
        obtain ⟨n, e', he', hvar, -, hd'⟩ := (h.listed i hi var v').mp hmem
        have hname : n = name := by
          refine h.name_eq he' he (hvar.trans ?_)
          exact hab.trans (List.mem_singleton.mp hb)
        rw [hname, he] at he'
        cases he'
        rw [hpending] at hd'
        cases hd'
    · exact ⟨h.nodup i hi, List.nodup_nil, fun _ _ _ hb => nomatch hb⟩

theorem nest (h : Traced made given t) (id : Nat) : Traced made given (t.nest id false).2 := by
  have hentry := ScopeTree.entry?_nest id t
  refine ⟨h.distinct, ?_, fun i s hs hi => ?_, fun i n b hb => ?_, fun i n e he => ?_,
    fun i n e v he hv hd => ?_, fun i hi var v => ?_, fun i hi => ?_⟩
  · have hplain : (t.nest id false).2.plain = t.plain.nest id := (ScopeTree.plain_perform (.nest id false) t).2
    rw [hplain]
    exact h.nested.nest id
  · change (t.scopes ++ [{ outer := t.chain id, silent := false }])[i]? = some s at hs
    rw [List.getElem?_append] at hs
    split at hs
    · exact h.loud i s hs hi
    · rw [List.getElem?_singleton] at hs
      split at hs
      · cases hs
        rfl
      · cases hs
  · rw [hentry]
    exact h.keeps i n b hb
  · rw [hentry] at he
    rw [Stems, ScopeTree.chain_nest id (ScopeTree.lt_length_of_entry? he)]
    exact h.stems i n e he
  · rw [hentry] at he
    have hdue := h.due i n e v he hv hd
    unfold Due at hdue ⊢
    split
    · next howned =>
        rw [if_pos howned] at hdue
        obtain ⟨j, hj, hgiven⟩ := hdue
        refine ⟨j, ?_, hgiven⟩
        rwa [ScopeTree.chain_nest id (ScopeTree.lt_length_of_mem_chain hj)]
    · next howned => rwa [if_neg howned] at hdue
  · rw [ScopeTree.declared_nest, h.listed i hi]
    simp only [hentry]
  · rw [ScopeTree.declared_nest]
    exact h.nodup i hi

theorem root : Traced [(0, eventName, { var := eventName })] (fun _ _ => False) .root := by
  have hentry : ∀ i n e, ScopeTree.root.entry? i n = some e →
      i = 0 ∧ n = eventName ∧ e = { var := eventName } := by
    intro i n e he
    obtain ⟨s, hs, he⟩ := Option.bind_eq_some_iff.mp he
    rw [ScopeTree.root, List.getElem?_singleton] at hs
    split at hs
    · next hi =>
        cases hs
        obtain ⟨hn, heq⟩ := Prod.mk.inj (List.mem_singleton.mp (Env.mem_of_lookup he))
        exact ⟨hi, hn, heq⟩
    · cases hs
  refine ⟨List.nodup_singleton _, ?_, fun i s hs hi => ?_, fun i n b hb => ?_, fun i n e he => ?_,
    fun i n e v he hv _ => ?_, fun i hi var v => ?_, fun i hi => ?_⟩
  · rw [ScopeTree.plain_root]
    exact PlainTree.nested_root
  · rw [ScopeTree.root, List.getElem?_singleton, if_neg hi] at hs
    cases hs
  · cases List.mem_singleton.mp hb
    exact ⟨false, rfl⟩
  · obtain ⟨rfl, rfl, rfl⟩ := hentry i n e he
    exact ⟨0, _, List.mem_singleton_self _, rfl, .inl ⟨rfl, rfl, rfl⟩⟩
  · obtain ⟨-, -, rfl⟩ := hentry i n e he
    cases hv
  · have hnone : ScopeTree.root.declared i = [] := by
      rw [ScopeTree.declared, ScopeTree.root, List.getElem?_singleton, if_neg hi]
      rfl
    rw [hnone]
    refine iff_of_false List.not_mem_nil ?_
    rintro ⟨n, e, he, -⟩
    exact hi (hentry i n e he).1
  · rw [ScopeTree.declared, ScopeTree.root, List.getElem?_singleton, if_neg hi]
    exact List.nodup_nil

/-- A scope remembers what it found further out. -/
theorem remember (h : Traced made given t) (hid : id < t.scopes.length) {holder : Nat}
    (hfound : t.binder? id name = some (holder, e)) (hgiven : given id e.var) :
    Traced made given (t.remember id name holder e) := by
  obtain ⟨hholder, he, hown⟩ := ScopeTree.binder?_eq_some hid hfound
  unfold ScopeTree.remember
  split
  · exact h
  · next hne =>
      refine h.put hid (hown hne) ScopeEntry.value_of_copied_declared h.distinct (List.Subset.refl _)
        (fun b hb => .inl hb) ?_
      obtain ⟨j, b, hb, hvar, hkind⟩ := h.stems holder name e he
      have hvar' : e.copied.var = e.var := e.copied_var
      refine ⟨j, b, hb, hvar'.trans hvar, .inr ⟨?_, hvar'.symm ▸ hgiven, e.copied_owned, ?_⟩⟩
      · rcases hkind with ⟨rfl, -⟩ | ⟨hj, -⟩
        · exact hholder
        · exact ScopeTree.mem_chain_trans h.nested hholder hj
      · rw [ScopeEntry.copied_value]
        rcases hkind with ⟨-, hvalue, howned⟩ | ⟨-, -, howned, hvalue⟩
        · rw [howned, hvalue]
        · rw [howned, hvalue, if_neg Bool.false_ne_true]

/-- What a read makes due was due before, or is what the read declares. -/
theorem due_or_read (h : Traced made given t) (hid : id < t.scopes.length) {holder : Nat}
    (hfound : t.binder? id name = some (holder, e))
    (hgiven : ∀ i var, given' i var ↔ given i var ∨ (i = id ∧ var = e.var))
    (he' : t.entry? i n = some e') (hdue : Due given' t i e') :
    Due given t i e' ∨ (i = (if e.owned then holder else id) ∧ n = name) := by
  obtain ⟨-, he, hown⟩ := ScopeTree.binder?_eq_some hid hfound
  unfold Due at hdue ⊢
  cases howned' : e'.owned with
  | false =>
      rw [howned', if_neg Bool.false_ne_true] at hdue
      rw [if_neg Bool.false_ne_true]
      rcases (hgiven i e'.var).mp hdue with hbefore | ⟨rfl, hvar⟩
      · exact .inl hbefore
      · -- the reader has the entry itself
        have hname : n = name := h.name_eq he' he hvar
        have hself : holder = i := by
          by_contra hne
          rw [hname, hown hne] at he'
          cases he'
        rw [hself, ← hname, he', Option.some_inj] at he
        rw [← he, howned', if_neg Bool.false_ne_true]
        exact .inr ⟨rfl, hname⟩
  | true =>
      rw [howned', if_pos rfl] at hdue
      rw [if_pos rfl]
      obtain ⟨j, hj, hread⟩ := hdue
      rcases (hgiven j e'.var).mp hread with hbefore | ⟨rfl, hvar⟩
      · exact .inl ⟨j, hj, hbefore⟩
      · -- the entry is that of the binding, and what was found is this entry or a copy
        obtain ⟨k, b, hb, hbvar, hkind⟩ := h.stems holder name e he
        obtain ⟨k', b', hb', hbvar', hkind'⟩ := h.stems i n e' he'
        obtain ⟨rfl, rfl, rfl⟩ := h.binding_unique hb' hb (by rw [← hbvar, ← hbvar', hvar])
        have hhere : k' = i ∧ b'.owned = true := by
          rcases hkind' with ⟨hk, -, howned⟩ | ⟨-, -, howned, -⟩
          · exact ⟨hk, howned ▸ howned'⟩
          · rw [howned'] at howned
            cases howned
        obtain ⟨rfl, hbowned⟩ := hhere
        rcases hkind with ⟨rfl, -, howned⟩ | ⟨hk, hcopied, -⟩
        · rw [howned, hbowned, if_pos rfl]
          exact .inr ⟨rfl, rfl⟩
        · exact .inl ⟨holder, hk, hvar ▸ hcopied⟩

end Traced

/-- A name is read, and its variable is given to the reader. -/
theorem Prompt.resolve (hs : Prompt given t) (h : Traced made given t) (hid : id < t.scopes.length)
    {holder : Nat} (hfound : t.binder? id name = some (holder, e))
    (hgiven : ∀ i var, given' i var ↔ given i var ∨ (i = id ∧ var = e.var)) :
    Traced made given' (t.resolve id name).2 ∧ Prompt given' (t.resolve id name).2 := by
  obtain ⟨hmem, he, hown⟩ := ScopeTree.binder?_eq_some hid hfound
  have hnew : given' id e.var := (hgiven id e.var).mpr (.inr ⟨rfl, rfl⟩)
  have hmono : ∀ i var, given i var → given' i var := fun i var hg => (hgiven i var).mpr (.inl hg)
  have hremember := @ScopeTree.entry?_remember t id name e hid holder
  have hchain := ScopeTree.chain_remember id name holder e t
  -- the reader knows the name now, and the scope it was found in still does
  have hreader : ∃ k, ScopeTree.entry? id name (t.remember id name holder e) = some k ∧
      k.var = e.var ∧ (e.owned = false → k.owned = false) := by
    rw [hremember]
    split
    · exact ⟨e.copied, rfl, e.copied_var, fun _ => e.copied_owned⟩
    · next hplace =>
        have hself : holder = id := by
          by_contra hne
          exact hplace ⟨hne, rfl, rfl⟩
        exact ⟨e, hself ▸ he, rfl, fun howned => howned⟩
  have hholder : ScopeTree.entry? holder name (t.remember id name holder e) = some e := by
    rw [hremember, if_neg, he]
    rintro ⟨hne, rfl, -⟩
    exact hne rfl
  obtain ⟨k, hk, hkvar, hkowned⟩ := hreader
  have hbefore : ∀ i n e', t.entry? i n = some e' → Due given' t i e' →
      Due given t i e' ∨ (i = (if e.owned = true then holder else id) ∧ n = name) :=
    fun _ _ _ => h.due_or_read hid hfound hgiven
  rw [ScopeTree.resolve_eq hfound]
  generalize hplace : (if e.owned = true then holder else id) = place at hbefore
  have hdeclare := ScopeTree.entry?_declare (t.remember id name holder e) place name
  refine ⟨((h.mono hmono).remember hid hfound hnew).declare fun k' v hk' hv => ?_,
    ⟨fun i var hi => ?_, fun i n e' v he' hv hdue => ?_⟩⟩
  · subst hplace
    split at hk'
    · next howned =>
        rw [hholder, Option.some_inj] at hk'
        rw [if_pos howned, ← hk', Due, if_pos howned]
        exact ⟨id, (hchain id).symm ▸ hmem, hnew⟩
    · next howned =>
        rw [hk, Option.some_inj] at hk'
        have hplain : k.owned = false := hkowned (Bool.eq_false_iff.mpr howned)
        rw [if_neg howned, ← hk', Due, hplain, if_neg Bool.false_ne_true, hkvar]
        exact hnew
  · -- entries keep their variables
    have hkept : ∀ i n e', ScopeTree.entry? i n (t.remember id name holder e) = some e' →
        ∃ n' e'', ScopeTree.entry? i n'
          ((t.remember id name holder e).change place (Scope.declare name)) = some e'' ∧
            e''.var = e'.var := by
      intro i n e' he'
      by_cases hthere : i = place ∧ n = name
      · exact ⟨n, e'.settled, by rw [hdeclare, if_pos hthere, he', Option.map_some], rfl⟩
      · exact ⟨n, e', by rw [hdeclare, if_neg hthere, he'], rfl⟩
    rcases (hgiven i var).mp hi with hi | ⟨rfl, rfl⟩
    · obtain ⟨n, e', he', rfl⟩ := hs.known i var hi
      refine hkept i n e' ?_
      rw [hremember, if_neg, he']
      rintro ⟨hne, rfl, rfl⟩
      rw [hown hne] at he'
      cases he'
    · exact hkvar ▸ hkept i name k hk
  · dsimp only at he' hdue
    rw [hdeclare] at he'
    by_cases hthere : i = place ∧ n = name
    · rw [if_pos hthere] at he'
      obtain ⟨e'', -, rfl⟩ := Option.map_eq_some_iff.mp he'
      change e''.value = some v at hv
      rw [ScopeEntry.settled, hv, Option.isSome_some, Bool.or_true]
    · rw [if_neg hthere, hremember] at he'
      simp only [Due, ScopeTree.chain_declare, hchain] at hdue
      split at he'
      · -- the copy of a variable that is not owned is at the place that was declared
        next hcopy =>
          cases he'
          cases howned : e.owned with
          | true =>
              rw [ScopeEntry.copied_value, if_pos howned] at hv
              cases hv
          | false =>
              rw [howned, if_neg Bool.false_ne_true] at hplace
              exact absurd ⟨hcopy.2.1.trans hplace, hcopy.2.2⟩ hthere
      · exact hs.declares i n e' v he' hv ((hbefore i n e' he' hdue).resolve_right hthere)

theorem Due.exists_given (h : Due given t i e) : ∃ j, given j e.var := by
  unfold Due at h
  split at h
  · obtain ⟨j, -, hgiven⟩ := h
    exact ⟨j, hgiven⟩
  · exact ⟨i, h⟩

theorem Prompt.nest (hs : Prompt given t) (id : Nat) : Prompt given (t.nest id false).2 := by
  have hentry := ScopeTree.entry?_nest id t
  refine ⟨fun i var hi => ?_, fun i n e v he hv hdue => ?_⟩
  · obtain ⟨n, e, he, hvar⟩ := hs.known i var hi
    exact ⟨n, e, (hentry i n).trans he, hvar⟩
  · rw [hentry] at he
    refine hs.declares i n e v he hv ?_
    unfold Due at hdue ⊢
    split
    · next howned =>
        rw [if_pos howned] at hdue
        obtain ⟨j, hj, hgiven⟩ := hdue
        obtain ⟨n', e', he', -⟩ := hs.known j e.var hgiven
        rw [ScopeTree.chain_nest id (ScopeTree.lt_length_of_entry? he')] at hj
        exact ⟨j, hj, hgiven⟩
    · next howned => rwa [if_neg howned] at hdue

/-- A variable that is new was given to no scope. -/
theorem Prompt.bind (hs : Prompt given t) (h : Traced made given t) (hid : id < t.scopes.length)
    (hnone : t.entry? id name = none) (hpending : e.declared = false)
    (hfresh : e.var ∉ made.map (·.2.2.var)) :
    Traced ((id, name, e) :: made) given (t.change id (Scope.put name e)) ∧
      Prompt given (t.change id (Scope.put name e)) := by
  have hentry := @ScopeTree.entry?_put t id name e hid
  have hungiven : ∀ j, ¬given j e.var := by
    intro j hj
    obtain ⟨n', e', he', hvar⟩ := hs.known j e.var hj
    obtain ⟨k, b, hb, hbvar, -⟩ := h.stems j n' e' he'
    exact hfresh (List.mem_map.mpr ⟨_, hb, hbvar.symm.trans hvar⟩)
  refine ⟨h.put hid hnone ?_ ?_ (List.subset_cons_self _ _) ?_ ?_, ⟨fun i var hi => ?_, ?_⟩⟩
  · exact fun hd => nomatch hpending.symm.trans hd
  · exact List.nodup_cons.mpr ⟨hfresh, h.distinct⟩
  · exact fun b hb => (List.mem_cons.mp hb).symm
  · exact ⟨id, e, List.mem_cons_self, rfl, .inl ⟨rfl, rfl, rfl⟩⟩
  · obtain ⟨n', e', he', hvar⟩ := hs.known i var hi
    refine ⟨n', e', ?_, hvar⟩
    rw [hentry, if_neg, he']
    rintro ⟨rfl, rfl⟩
    rw [hnone] at he'
    cases he'
  · intro i n' e' v he' hv hdue
    rw [hentry] at he'
    split at he'
    · cases he'
      obtain ⟨j, hj⟩ := hdue.exists_given
      exact absurd hj (hungiven j)
    · simp only [Due, ScopeTree.chain_put] at hdue
      exact hs.declares i n' e' v he' hv hdue

end Traced

/-! ### The calls -/

namespace Made

variable {log : CallLog} {t : ScopeTree} {call : ScopeCall} {answer : ScopeAnswer}

theorem gave_cons_of_ne (h : ∀ id name var, (call, answer) ≠ (.get id name, .variable (some var))) :
    CallLog.Gave ((call, answer) :: log) = log.Gave := by
  funext i var
  refine propext (exists_congr fun name => ?_)
  rw [List.mem_cons, or_iff_right (h i name var).symm]

theorem gave_cons_get (id : Nat) (name var : Text) (i : Nat) (v : Text) :
    CallLog.Gave ((.get id name, .variable (some var)) :: log) i v ↔ log.Gave i v ∨ (i = id ∧ v = var) := by
  unfold CallLog.Gave
  simp only [List.mem_cons, Prod.mk.injEq, ScopeCall.get.injEq, ScopeAnswer.variable.injEq,
    Option.some_inj]
  constructor
  · rintro ⟨n, ⟨⟨rfl, rfl⟩, rfl⟩ | hmem⟩
    · exact .inr ⟨rfl, rfl⟩
    · exact .inl ⟨n, hmem⟩
  · rintro (⟨n, hmem⟩ | ⟨rfl, rfl⟩)
    · exact ⟨n, .inr hmem⟩
    · exact ⟨name, .inl ⟨⟨rfl, rfl⟩, rfl⟩⟩

/-- A call keeps account of the bindings and of what was given. -/
theorem traced_call (h : Traced log.bindings log.Gave t) (hs : Prompt log.Gave t)
    (hcall : Admits log t call) :
    Traced (CallLog.bindings ((call, (t.perform call).1) :: log))
        (CallLog.Gave ((call, (t.perform call).1) :: log)) (t.perform call).2 ∧
      Prompt (CallLog.Gave ((call, (t.perform call).1) :: log)) (t.perform call).2 := by
  cases call with
  | nest id silent =>
      cases silent with
      | true => exact absurd rfl (hcall.loud id)
      | false =>
          rw [gave_cons_of_ne fun _ _ _ h => by cases (Prod.mk.inj h).1]
          exact ⟨h.nest id, hs.nest id⟩
  | bind id name var value owned =>
      rw [gave_cons_of_ne fun _ _ _ h => by cases (Prod.mk.inj h).1]
      have hnone : t.entry? id name = none := by
        by_contra hsome
        obtain ⟨e, he⟩ := Option.ne_none_iff_exists'.mp hsome
        refine hcall.accepted (.of (.defined name e.var)) ?_
        simp only [ScopeTree.perform, ScopeTree.bind, he]
        rfl
      have htree : (t.perform (.bind id name var value owned)).2 =
          t.change id (Scope.put name { var, value, owned }) := by
        simp only [ScopeTree.perform, ScopeTree.bind, hnone]
        rfl
      rw [htree]
      exact hs.bind h hcall.scope hnone rfl (hcall.unbound _ rfl)
  | get id name =>
      cases hfound : t.binder? id name with
      | none =>
          have hresolve : t.resolve id name = (none, t) := by
            unfold ScopeTree.resolve
            rw [hfound]
          simp only [ScopeTree.perform, hresolve]
          rw [gave_cons_of_ne fun _ _ _ h => by cases (Prod.mk.inj h).2]
          exact ⟨h, hs⟩
      | some found =>
          obtain ⟨holder, e⟩ := found
          have hvar : (t.resolve id name).1 = some e.var := by
            rw [ScopeTree.resolve_eq hfound]
          simp only [ScopeTree.perform, hvar]
          exact hs.resolve h hcall.scope hfound (gave_cons_get id name e.var)
  | fresh id =>
      rw [gave_cons_of_ne fun _ _ _ h => by cases (Prod.mk.inj h).1]
      exact ⟨⟨h.distinct, h.nested, h.loud, h.keeps, h.stems, h.due, h.listed, h.nodup⟩,
        ⟨hs.known, hs.declares⟩⟩

theorem traced (h : Made log t) : Traced log.bindings log.Gave t ∧ Prompt log.Gave t := by
  induction h with
  | root =>
      have hgave : CallLog.Gave [] = fun _ _ => False := by
        funext i var
        exact propext (iff_false_intro fun ⟨_, h⟩ => nomatch h)
      rw [hgave]
      exact ⟨.root, ⟨fun _ _ h => h.elim, fun _ _ _ _ _ _ h => h.exists_given.elim fun _ h => h.elim⟩⟩
  | call _ call hcall ih => exact traced_call ih.1 ih.2 hcall

theorem bound_of_mem {i : Nat} {n : Text} {b : ScopeEntry} {v : Term} (hb : (i, n, b) ∈ log.bindings)
    (hv : b.value = some v) : log.Bound i b.var v b.owned := by
  rcases List.mem_append.mp hb with hb | hb
  · obtain ⟨⟨call, answer⟩, hlog, hbinding⟩ := List.mem_filterMap.mp hb
    cases call with
    | bind id name var value owned =>
        cases hbinding
        cases hv
        exact ⟨n, answer, hlog⟩
    | nest | get | fresh => cases hbinding
  · cases List.mem_singleton.mp hb
    cases hv

theorem bound_iff {i : Nat} {var : Text} {v : Term} {owned : Bool} :
    log.Bound i var v owned ↔ ∃ name, (i, name, { var, value := some v, owned }) ∈ log.bindings := by
  refine ⟨fun ⟨name, answer, hlog⟩ => ⟨name, ?_⟩, fun ⟨name, hb⟩ => bound_of_mem hb rfl⟩
  exact List.mem_append_left _ (List.mem_filterMap.mpr ⟨_, hlog, rfl⟩)

/-- What a scope was given was bound in this scope or further out. -/
theorem exists_bound (h : Made log t) {j : Nat} {var : Text} (hgave : log.Gave j var) {i : Nat} {v : Term}
    {owned : Bool} (hbound : log.Bound i var v owned) :
    i ∈ t.chain j ∧ ∃ n e, t.entry? j n = some e ∧ e.var = var ∧
      (owned = false → e.value = some v ∧ e.owned = false) := by
  obtain ⟨ha, hs⟩ := h.traced
  obtain ⟨n, e, he, hvar⟩ := hs.known j var hgave
  obtain ⟨k, b, hb, hbvar, hkind⟩ := ha.stems j n e he
  obtain ⟨name, hname⟩ := bound_iff.mp hbound
  obtain ⟨rfl, rfl, rfl⟩ := ha.binding_unique hb hname (hbvar.symm.trans hvar)
  rcases hkind with ⟨rfl, hvalue, howned⟩ | ⟨hk, -, howned, hvalue⟩
  · obtain ⟨outer, houter⟩ : ∃ outer, t.chain k = k :: outer := by
      rw [ScopeTree.chain, List.getElem?_eq_getElem (ScopeTree.lt_length_of_entry? he)]
      exact ⟨_, rfl⟩
    refine ⟨houter ▸ List.mem_cons_self, n, e, he, hvar, ?_⟩
    rintro rfl
    exact ⟨hvalue, howned⟩
  · refine ⟨hk, n, e, he, hvar, ?_⟩
    rintro rfl
    exact ⟨hvalue, howned⟩

/-- A scope has declared the variables with a value that it was given, unless they are owned; and of the
variables that it owns those that it was given itself or that a scope inside was given. -/
theorem declared_iff (h : Made log t) {s : Nat} (hs : s ≠ 0) (var : Text) (v : Term) :
    (var, v) ∈ t.declared s ↔
      ((∃ i ∈ t.chain s, log.Bound i var v false) ∧ log.Gave s var) ∨
      (log.Bound s var v true ∧ ∃ j, s ∈ t.chain j ∧ log.Gave j var) := by
  obtain ⟨ha, hprompt⟩ := h.traced
  rw [ha.listed s hs]
  constructor
  · rintro ⟨n, e, he, rfl, hv, hdeclared⟩
    have hdue := ha.due s n e v he hv hdeclared
    obtain ⟨j, b, hb, hbvar, hkind⟩ := ha.stems s n e he
    unfold Due at hdue
    cases howned : e.owned with
    | true =>
        rw [howned, if_pos rfl] at hdue
        rcases hkind with ⟨rfl, hvalue, hbowned⟩ | ⟨-, -, hplain, -⟩
        · have hbound := bound_of_mem hb (hvalue.symm.trans hv)
          rw [← hbvar, ← hbowned, howned] at hbound
          exact .inr ⟨hbound, hdue⟩
        · rw [howned] at hplain
          cases hplain
    | false =>
        rw [howned, if_neg Bool.false_ne_true] at hdue
        have hbound : log.Bound j e.var v false := by
          have hvalue : b.value = some v ∧ b.owned = false := by
            rcases hkind with ⟨-, hvalue, hbowned⟩ | ⟨-, -, -, hvalue⟩
            · exact ⟨hvalue.symm.trans hv, hbowned.symm.trans howned⟩
            · rw [hv] at hvalue
              split at hvalue
              · cases hvalue
              · next hbowned => exact ⟨hvalue.symm, Bool.eq_false_iff.mpr hbowned⟩
          rw [hbvar, ← hvalue.2]
          exact bound_of_mem hb hvalue.1
        exact .inl ⟨⟨j, (h.exists_bound hdue hbound).1, hbound⟩, hdue⟩
  · rintro (⟨⟨i, -, hbound⟩, hgave⟩ | ⟨hbound, hgave⟩)
    · obtain ⟨-, n, e, he, rfl, hplain⟩ := h.exists_bound hgave hbound
      obtain ⟨hv, howned⟩ := hplain rfl
      refine ⟨n, e, he, rfl, hv, hprompt.declares s n e v he hv ?_⟩
      rw [Due, howned, if_neg Bool.false_ne_true]
      exact hgave
    · obtain ⟨name, hname⟩ := bound_iff.mp hbound
      obtain ⟨d, hd⟩ := ha.keeps s name _ hname
      refine ⟨name, _, hd, rfl, rfl, hprompt.declares s name _ v hd rfl ?_⟩
      rw [Due, if_pos rfl]
      exact hgave

/-- The declarations of a scope. No variable is declared twice; those are declared that have a value and
were given to the scope, or are owned by it and were given to a scope inside; and the declaration is there
when a read gives the variable. -/
theorem declares_once (h : Made log t) :
    (∀ s, s ≠ 0 → ((t.declared s).map (·.1)).Nodup ∧
      ∀ var v, (var, v) ∈ t.declared s ↔
        ((∃ i ∈ t.chain s, log.Bound i var v false) ∧ log.Gave s var) ∨
        (log.Bound s var v true ∧ ∃ j, s ∈ t.chain j ∧ log.Gave j var)) ∧
    ∀ j name var, j < t.scopes.length → (t.resolve j name).1 = some var →
      ∀ i v owned, log.Bound i var v owned → (if owned then i else j) ≠ 0 →
        (var, v) ∈ (t.resolve j name).2.declared (if owned then i else j) := by
  refine ⟨fun s hs => ⟨h.traced.1.nodup s hs, h.declared_iff hs⟩, ?_⟩
  intro j name var hj hread i v owned hbound hloud
  have hcall : Admits log t (.get j name) :=
    ⟨hj, fun _ hsilent => (by cases hsilent), fun _ hrefused => (by cases hrefused),
      fun _ hbinding => (by cases hbinding)⟩
  have hafter := h.call (.get j name) hcall
  have hgave : CallLog.Gave ((.get j name, (t.perform (.get j name)).1) :: log) j var :=
    ⟨name, List.mem_cons.mpr (.inl (by rw [ScopeTree.perform, hread]))⟩
  have hbound' : CallLog.Bound ((.get j name, (t.perform (.get j name)).1) :: log) i var v owned := by
    obtain ⟨n, answer, hmem⟩ := hbound
    exact ⟨n, answer, List.mem_cons_of_mem _ hmem⟩
  have hchain := (hafter.exists_bound hgave hbound').1
  refine (hafter.declared_iff hloud var v).mpr ?_
  cases owned with
  | true => exact .inr ⟨hbound', j, hchain, hgave⟩
  | false => exact .inl ⟨⟨i, hchain, hbound'⟩, hgave⟩

end Made

namespace Sample

/-- Reads from the innermost of three scopes, of an owned variable and of another one. -/
def innerReads : List ScopeCall :=
  [.nest 0 false, .nest 1 false, .nest 2 false,
    .bind 1 "box" "_r0" (some (.var {} "ref")) true, .bind 1 "item" "item_r0" (some (.var {} "ctx")) false,
    .get 3 "item", .get 3 "box", .get 2 "item"]

def made (calls : List ScopeCall) : CallLog × ScopeTree :=
  calls.foldl (fun (log, t) call => ((call, (t.perform call).1) :: log, (t.perform call).2)) ([], .root)

theorem innerReads_made : Made (made innerReads).1 (made innerReads).2 := by
  refine .call (.call (.call (.call (.call (.call (.call (.call .root _ ?_) _ ?_) _ ?_) _ ?_) _ ?_) _ ?_)
    _ ?_) _ ?_
  all_goals refine ⟨by decide, fun _ h => (by cases h), fun _ h => (by cases h), fun b hb => ?_⟩
  all_goals cases hb
  all_goals decide

theorem innerReads_declared :
    Made (made innerReads).1 (made innerReads).2 ∧
      ((made innerReads).2.declared 3).map (·.1) = ["item_r0"] ∧
      (((made innerReads).2.declared 3).map (·.1)).Nodup ∧
      (("_r0" : Text), Term.var {} "ref") ∈ (made innerReads).2.declared 1 := by
  have h := innerReads_made.declares_once
  refine ⟨innerReads_made, rfl, (h.1 3 (by decide)).1, ?_⟩
  refine ((h.1 1 (by decide)).2 _ _).mpr (.inr ⟨⟨"box", .bound, ?_⟩, 3, by decide, "box", ?_⟩)
  · exact List.mem_of_getElem? (i := 4) rfl
  · exact List.mem_of_getElem? (i := 1) rfl

end Sample

end TemplateCompiler
