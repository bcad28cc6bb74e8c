import TemplateCompiler.Proofs.Template.Scopes

/-!
# What scopes remember

A scope that finds a name further out remembers it, so a read changes the scopes: the name counts as
bound in the reading scope from then on. Here a tree of scopes is asked by a sequence of calls, and its
answers are compared with those of a tree that has nothing but bindings.

* `ScopeCall`, `ScopeAnswer` : the calls on the scopes of a tree, and what they give;
* `PlainTree` : scopes with the variables of their names alone. It `remembers` what its scopes read, or
  it does not;
* `ScopeTree.plain` : the plain tree of a tree of scopes. Values, declarations and owners are forgotten,
  and each call gives the same answer before and after (`plain_perform`);
* `Timely` : no scope binds a name that was read past it;
* `ScopeTree.answers_eq` : the scopes answer as plain ones that remember, and as plain ones that do not
  remember if the calls are timely.
-/

namespace TemplateCompiler

/-- A call on the scope `id` of a tree. -/
inductive ScopeCall where
  | nest (id : Nat) (silent : Bool)
  | bind (id : Nat) (name : Text) (var : Text) (value : Option Term) (owned : Bool)
  | get (id : Nat) (name : Text)
  | fresh (id : Nat)

/-- What a call gives. -/
inductive ScopeAnswer where
  | scope (id : Nat)
  | bound
  | refused (f : Failure)
  | variable (v : Option Text)
  | name (n : Text)
  deriving DecidableEq

/-- The answers to calls that are made one after the other. -/
def answers {State : Type} (perform : ScopeCall → State → ScopeAnswer × State) :
    List ScopeCall → State → List ScopeAnswer
  | [], _ => []
  | call :: calls, s => (perform call s).1 :: answers perform calls (perform call s).2

/-- A call on a tree of scopes. A refused binding leaves the tree as it is. -/
def ScopeTree.perform (call : ScopeCall) (t : ScopeTree) : ScopeAnswer × ScopeTree :=
  match call with
  | .nest id silent => (.scope (t.nest id silent).1, (t.nest id silent).2)
  | .bind id name var value owned =>
    match t.bind id name { var, value, owned } with
    | .ok t => (.bound, t)
    | .error f => (.refused f, t)
  | .get id name => (.variable (t.resolve id name).1, (t.resolve id name).2)
  | .fresh _ => (.name t.freshName.1, t.freshName.2)

/-! ### Plain scopes -/

/-- A scope that has the variables of its names and nothing else. -/
structure PlainScope where
  /-- The enclosing scopes, the nearest first. -/
  outer : List Nat
  bound : Text → Option Text := fun _ => none

/-- A tree of plain scopes. -/
structure PlainTree where
  scopes : List PlainScope
  /-- How many fresh names were given out. -/
  fresh : Nat := 0

namespace PlainTree

def root : PlainTree :=
  ⟨[{ outer := [], bound := fun n => if n = eventName then some eventName else none }], 0⟩

/-- A scope and the scopes around it, the nearest first. -/
def chain (id : Nat) (t : PlainTree) : List Nat :=
  match t.scopes[id]? with
  | some s => id :: s.outer
  | none => []

/-- The variable that a scope itself has bound a name to. -/
def bound? (id : Nat) (name : Text) (t : PlainTree) : Option Text :=
  t.scopes[id]?.bind (·.bound name)

/-- The nearest scope from `id` outwards that has bound a name, with the variable. -/
def nearest? (id : Nat) (name : Text) (t : PlainTree) : Option (Nat × Text) :=
  (t.chain id).findSome? fun i => (t.bound? i name).map (i, ·)

/-- Adds a scope inside another. -/
def nest (id : Nat) (t : PlainTree) : PlainTree :=
  { t with scopes := t.scopes ++ [{ outer := t.chain id }] }

def put (id : Nat) (name var : Text) (t : PlainTree) : PlainTree :=
  { t with scopes := t.scopes.modify id fun s =>
      { s with bound := fun n => if n = name then some var else s.bound n } }

/-- A call on a plain tree. Where the scopes remember, a name that is found is bound by its reader. -/
def perform (remembers : Bool) (call : ScopeCall) (t : PlainTree) : ScopeAnswer × PlainTree :=
  match call with
  | .nest id _ => (.scope t.scopes.length, t.nest id)
  | .bind id name var _ _ =>
    match t.bound? id name with
    | some held => (.refused (.of (.defined name held)), t)
    | none => (.bound, t.put id name var)
  | .get id name =>
    match t.nearest? id name with
    | some (_, var) => (.variable (some var), if remembers then t.put id name var else t)
    | none => (.variable none, t)
  | .fresh _ => (.name ("_r" ++ Text.ofNat t.fresh), { t with fresh := t.fresh + 1 })

end PlainTree

/-! ### Scopes without their declarations -/

/-- What a scope itself makes of its names. -/
def Scope.plain (s : Scope) : PlainScope where
  outer := s.outer
  bound := fun n => (Scope.entry? n s).map (·.var)

theorem Scope.plain_put (name : Text) (e : ScopeEntry) (s : Scope) :
    (s.put name e).plain =
      { s.plain with bound := fun n => if n = name then some e.var else s.plain.bound n } := by
  have hbound : ∀ n, (s.put name e).plain.bound n =
      if n = name then some e.var else s.plain.bound n := by
    intro n
    change (Scope.entry? n (s.put name e)).map (·.var) = _
    rw [Scope.entry?_put]
    split <;> rfl
  exact congrArg (PlainScope.mk s.outer) (funext hbound)

theorem Scope.plain_declare (name : Text) (s : Scope) : (s.declare name).plain = s.plain := by
  rcases s.declare_cases name with ⟨heq, -⟩ | ⟨var, v, owned, he, heq⟩
  · rw [heq]
  · have hput : (s.declare name).plain = (s.put name ⟨var, some v, true, owned⟩).plain := by
      rw [heq]
      rfl
    rw [hput, Scope.plain_put]
    refine congrArg (PlainScope.mk s.outer) (funext fun n => ?_)
    split
    · next hname =>
        subst hname
        change _ = (s.entry? n).map (·.var)
        rw [he, Option.map_some]
    · rfl

namespace ScopeTree

variable {t : ScopeTree} {id : Nat} {name : Text}

/-- A tree of scopes without what is declared in them. -/
def plain (t : ScopeTree) : PlainTree := ⟨t.scopes.map Scope.plain, t.fresh⟩

theorem plain_root : root.plain = .root := by
  refine congrArg (PlainTree.mk · 0) (congrArg ([·]) (congrArg (PlainScope.mk []) (funext fun n => ?_)))
  change (List.lookup n [(eventName, ({ var := eventName } : ScopeEntry))]).map (·.var) = _
  by_cases h : n = eventName
  · rw [h, List.lookup_cons_self, if_pos rfl, Option.map_some]
  · rw [List.lookup_cons, beq_false_of_ne h, if_neg h]
    rfl

theorem plain_getElem? (t : ScopeTree) (i : Nat) : t.plain.scopes[i]? = t.scopes[i]?.map Scope.plain :=
  List.getElem?_map

theorem plain_chain (id : Nat) (t : ScopeTree) : t.plain.chain id = t.chain id := by
  unfold PlainTree.chain ScopeTree.chain
  rw [plain_getElem?]
  cases t.scopes[id]? <;> rfl

theorem plain_bound? (id : Nat) (name : Text) (t : ScopeTree) :
    t.plain.bound? id name = (t.entry? id name).map (·.var) := by
  unfold PlainTree.bound? ScopeTree.entry?
  rw [plain_getElem?]
  cases t.scopes[id]? <;> rfl

theorem plain_nearest? (id : Nat) (name : Text) (t : ScopeTree) :
    t.plain.nearest? id name = (t.binder? id name).map fun b => (b.1, b.2.var) := by
  unfold PlainTree.nearest? binder?
  rw [plain_chain, List.map_findSome?]
  refine congrArg (List.findSome? · (t.chain id)) (funext fun i => ?_)
  rw [Function.comp_apply, plain_bound?]
  cases t.entry? i name <;> rfl

theorem plain_declare (id : Nat) (name : Text) (t : ScopeTree) :
    (t.change id (Scope.declare name)).plain = t.plain := by
  refine congrArg (PlainTree.mk · t.fresh) (List.ext_getElem? fun i => ?_)
  rw [List.getElem?_map, getElem?_change, List.getElem?_map]
  split
  · rw [Option.map_map]
    exact congrArg (Option.map · t.scopes[i]?) (funext (Scope.plain_declare name))
  · rfl

theorem plain_put (id : Nat) (name : Text) (e : ScopeEntry) (t : ScopeTree) :
    (t.change id (Scope.put name e)).plain = t.plain.put id name e.var := by
  refine congrArg (PlainTree.mk · t.fresh) (List.ext_getElem? fun i => ?_)
  rw [List.getElem?_map, getElem?_change, List.getElem?_modify, plain_getElem?]
  split
  · cases t.scopes[i]? with
    | none => rfl
    | some s => exact congrArg some (Scope.plain_put name e s)
  · exact (id_map' _).symm

end ScopeTree

/-- Binding a name to what it is bound to already. -/
theorem PlainTree.put_eq_self {t : PlainTree} {id : Nat} {name var : Text}
    (h : t.bound? id name = some var) : t.put id name var = t := by
  refine congrArg (PlainTree.mk · t.fresh) (List.ext_getElem? fun i => ?_)
  rw [List.getElem?_modify]
  split
  · next hid =>
      subst hid
      unfold PlainTree.bound? at h
      cases hs : t.scopes[id]? with
      | none => rfl
      | some s =>
          rw [hs, Option.bind_some] at h
          refine congrArg some (congrArg (PlainScope.mk s.outer) (funext fun n => ?_))
          split
          · next hname => rw [hname, h]
          · rfl
  · exact id_map' _

theorem PlainTree.bound?_of_nearest? {t : PlainTree} {id holder : Nat} {name var : Text}
    (h : t.nearest? id name = some (holder, var)) :
    holder ∈ t.chain id ∧ t.bound? holder name = some var := by
  obtain ⟨i, hi, hvar⟩ := List.exists_of_findSome?_eq_some h
  obtain ⟨v, hv, heq⟩ := Option.map_eq_some_iff.mp hvar
  cases heq
  exact ⟨hi, hv⟩

namespace ScopeTree

/-- A name that is found is bound by its reader afterwards. -/
theorem plain_resolve (id : Nat) (name : Text) (t : ScopeTree) :
    (t.resolve id name).1 = (t.plain.nearest? id name).map (·.2) ∧
    (t.resolve id name).2.plain =
      match t.plain.nearest? id name with
      | some (_, var) => t.plain.put id name var
      | none => t.plain := by
  have hnearest := plain_nearest? id name t
  unfold resolve
  cases hb : t.binder? id name with
  | none =>
      rw [hb] at hnearest
      rw [hnearest]
      exact ⟨rfl, rfl⟩
  | some b =>
      obtain ⟨holder, e⟩ := b
      rw [hb] at hnearest
      -- a scope that had bound the name itself binds it to the same variable
      have hself : holder = id → t.plain.put id name e.var = t.plain := by
        rintro rfl
        exact PlainTree.put_eq_self (PlainTree.bound?_of_nearest? hnearest).2
      rw [hnearest]
      dsimp only [Option.map_some]
      cases e.owned with
      | true =>
          refine ⟨rfl, ?_⟩
          by_cases hid : holder = id
          · rw [if_pos rfl, if_pos hid, plain_declare, hself hid]
          · rw [if_pos rfl, if_neg hid, plain_put, plain_declare]
      | false =>
          refine ⟨rfl, ?_⟩
          by_cases hid : holder = id
          · rw [if_neg Bool.false_ne_true, if_pos hid, plain_declare, hself hid]
          · rw [if_neg Bool.false_ne_true, if_neg hid, plain_declare, plain_put]

/-- A call gives what it gives on a plain tree that remembers, and leaves such a tree behind. -/
theorem plain_perform (call : ScopeCall) (t : ScopeTree) :
    (t.perform call).1 = (t.plain.perform true call).1 ∧
      (t.perform call).2.plain = (t.plain.perform true call).2 := by
  cases call with
  | nest id silent =>
      refine ⟨congrArg ScopeAnswer.scope (List.length_map Scope.plain).symm, ?_⟩
      change PlainTree.mk (List.map Scope.plain (t.scopes ++ [{ outer := t.chain id, silent }])) _ = _
      rw [List.map_append, ← plain_chain]
      rfl
  | bind id name var value owned =>
      simp only [perform, PlainTree.perform, ScopeTree.bind, plain_bound?]
      cases t.entry? id name with
      | some e => exact ⟨rfl, rfl⟩
      | none => exact ⟨rfl, plain_put id name _ t⟩
  | get id name =>
      obtain ⟨hanswer, htree⟩ := plain_resolve id name t
      simp only [perform, PlainTree.perform]
      rw [hanswer, htree]
      cases t.plain.nearest? id name <;> exact ⟨rfl, rfl⟩
  | fresh id => exact ⟨rfl, rfl⟩

theorem answers_plain (calls : List ScopeCall) (t : ScopeTree) :
    answers perform calls t = answers (PlainTree.perform true) calls t.plain := by
  induction calls generalizing t with
  | nil => rfl
  | cons call calls ih =>
      obtain ⟨hanswer, htree⟩ := plain_perform call t
      rw [answers, answers, ih, hanswer, htree]

end ScopeTree

/-! ### Reads that come in time -/

/-- The scopes that a call asks for a name in vain, if it finds the name further out. -/
def ScopeCall.passes (call : ScopeCall) (t : PlainTree) : List (Nat × Text) :=
  match call with
  | .get id name =>
    match t.nearest? id name with
    | some _ => ((t.chain id).takeWhile fun i => (t.bound? i name).isNone).map (·, name)
    | none => []
  | _ => []

def Timely : List ScopeCall → PlainTree → List (Nat × Text) → Prop
  | [], _, _ => True
  | call :: calls, t, passed =>
    (∀ id name var value owned, call = .bind id name var value owned → (id, name) ∉ passed) ∧
      Timely calls (t.perform false call).2 (call.passes t ++ passed)

namespace PlainTree

variable {t : PlainTree} {id i : Nat} {name n var v : Text}

theorem chain_put (id : Nat) (name var : Text) (t : PlainTree) (i : Nat) :
    (t.put id name var).chain i = t.chain i := by
  unfold chain put
  rw [List.getElem?_modify]
  cases t.scopes[i]? with
  | none => rfl
  | some s => by_cases h : id = i <;> simp [h]

theorem bound?_put (id : Nat) (name var : Text) (t : PlainTree) (i : Nat) (n : Text) :
    (t.put id name var).bound? i n =
      if i = id ∧ n = name ∧ i < t.scopes.length then some var else t.bound? i n := by
  unfold bound? put
  rw [List.getElem?_modify]
  by_cases hi : i < t.scopes.length
  · rw [List.getElem?_eq_getElem hi]
    by_cases h : id = i
    · by_cases hn : n = name <;> simp [h, hn, hi]
    · simp [h, Ne.symm h]
  · rw [List.getElem?_eq_none (Nat.le_of_not_lt hi), if_neg fun h => hi h.2.2]
    rfl

theorem mem_chain_self (h : i < t.scopes.length) : ∃ outer, t.chain i = i :: outer := by
  unfold chain
  rw [List.getElem?_eq_getElem h]
  exact ⟨_, rfl⟩

theorem lt_length_of_bound? (h : t.bound? i n = some v) : i < t.scopes.length := by
  obtain ⟨s, hs, -⟩ := Option.bind_eq_some_iff.mp h
  exact (List.getElem?_eq_some_iff.mp hs).1

/-- The scopes around a scope are scopes of the tree, with the same scopes around them. -/
def Nested (t : PlainTree) : Prop :=
  ∀ i inner j outer, t.chain i = inner ++ j :: outer → j < t.scopes.length ∧ t.chain j = j :: outer

theorem nested_root : root.Nested := by
  intro i inner j outer h
  cases i with
  | zero =>
      obtain ⟨rfl, h⟩ | ⟨rest, -, h⟩ := List.cons_eq_append_iff.mp (show [0] = inner ++ j :: outer from h)
      · obtain ⟨rfl, rfl⟩ := List.cons_eq_cons.mp h
        exact ⟨Nat.one_pos, rfl⟩
      · exact absurd h.symm (List.append_ne_nil_of_right_ne_nil rest (List.cons_ne_nil j outer))
  | succ i => exact absurd h.symm (List.append_ne_nil_of_right_ne_nil inner (List.cons_ne_nil j outer))

theorem chain_eq_nil (h : t.scopes.length ≤ i) : t.chain i = [] := by
  unfold chain
  rw [List.getElem?_eq_none h]

theorem length_nest (id : Nat) (t : PlainTree) : (t.nest id).scopes.length = t.scopes.length + 1 :=
  List.length_append

theorem chain_nest (id : Nat) (h : i < t.scopes.length) :
    (t.nest id).chain i = t.chain i := by
  unfold chain nest
  rw [List.getElem?_append_left h]

theorem chain_nest_last (id : Nat) (t : PlainTree) :
    (t.nest id).chain t.scopes.length =
      t.scopes.length :: t.chain id := by
  rw [chain, nest, List.getElem?_concat_length]

theorem Nested.nest (h : t.Nested) (id : Nat) :
    (t.nest id).Nested := by
  -- a scope that was there before has the scopes around it that it had
  have hold : ∀ {i inner j outer}, t.chain i = inner ++ j :: outer → j < t.scopes.length + 1 ∧
      (t.nest id).chain j = j :: outer := by
    intro i inner j outer hchain
    obtain ⟨hlt, hj⟩ := h i inner j outer hchain
    exact ⟨Nat.lt_succ_of_lt hlt, (chain_nest id hlt).trans hj⟩
  intro i inner j outer hchain
  rw [length_nest]
  rcases Nat.lt_trichotomy i t.scopes.length with hi | rfl | hi
  · rw [chain_nest id hi] at hchain
    exact hold hchain
  · rw [chain_nest_last] at hchain
    rcases List.cons_eq_append_iff.mp hchain with ⟨rfl, heq⟩ | ⟨rest, rfl, heq⟩
    · obtain ⟨rfl, rfl⟩ := List.cons_eq_cons.mp heq
      exact ⟨Nat.lt_succ_self _, chain_nest_last id t⟩
    · exact hold heq
  · rw [chain_eq_nil (t.length_nest id ▸ hi)] at hchain
    exact absurd hchain.symm (List.append_ne_nil_of_right_ne_nil inner (List.cons_ne_nil j outer))

theorem Nested.put (h : t.Nested) (id : Nat) (name var : Text) : (t.put id name var).Nested := by
  have hlength : (t.put id name var).scopes.length = t.scopes.length := List.length_modify _ _ _
  intro i inner j outer hchain
  rw [chain_put] at hchain
  rw [chain_put, hlength]
  exact h i inner j outer hchain

/-- A scope finds a name that it has not bound: the scopes on the way have been passed. -/
def Finds (t : PlainTree) (passed : List (Nat × Text)) (i : Nat) (n v : Text) : Prop :=
  ∃ inner holder outer, t.chain i = inner ++ holder :: outer ∧ t.bound? holder n = some v ∧
    ∀ k ∈ inner, t.bound? k n = none ∧ (k, n) ∈ passed

/-- The tree `m` remembers what was read in `t`: it has the bindings of `t` and those that were found. -/
structure Recalls (m t : PlainTree) (passed : List (Nat × Text)) : Prop where
  chain : ∀ i, m.chain i = t.chain i
  length : m.scopes.length = t.scopes.length
  fresh : m.fresh = t.fresh
  keeps : ∀ i n v, t.bound? i n = some v → m.bound? i n = some v
  finds : ∀ i n v, m.bound? i n = some v → t.Finds passed i n v

theorem nearest?_eq_some_iff {holder : Nat} :
    t.nearest? i n = some (holder, v) ↔ ∃ inner outer, t.chain i = inner ++ holder :: outer ∧
      t.bound? holder n = some v ∧ ∀ k ∈ inner, t.bound? k n = none := by
  unfold nearest?
  rw [List.findSome?_eq_some_iff]
  constructor
  · rintro ⟨inner, k, outer, hchain, hk, hinner⟩
    obtain ⟨w, hw, heq⟩ := Option.map_eq_some_iff.mp hk
    cases heq
    exact ⟨inner, outer, hchain, hw, fun k hk => Option.map_eq_none_iff.mp (hinner k hk)⟩
  · rintro ⟨inner, outer, hchain, hv, hinner⟩
    exact ⟨inner, holder, outer, hchain, by rw [hv, Option.map_some],
      fun k hk => by rw [hinner k hk, Option.map_none]⟩

namespace Recalls

variable {m : PlainTree} {passed : List (Nat × Text)}

theorem bound?_eq_none (h : m.Recalls t passed) (hm : m.bound? i n = none) : t.bound? i n = none := by
  cases ht : t.bound? i n with
  | none => rfl
  | some v =>
      rw [h.keeps i n v ht] at hm
      cases hm

/-- What was found is found again. -/
theorem nearest? (h : m.Recalls t passed) (hn : t.Nested) (i : Nat) (n : Text) :
    (m.nearest? i n).map (·.2) = (t.nearest? i n).map (·.2) := by
  cases hm : m.nearest? i n with
  | none =>
      have hnone : t.nearest? i n = none := by
        unfold PlainTree.nearest? at hm ⊢
        rw [List.findSome?_eq_none_iff] at hm ⊢
        intro k hk
        have hk' := hm k (h.chain i ▸ hk)
        rw [Option.map_eq_none_iff] at hk' ⊢
        exact h.bound?_eq_none hk'
      rw [hnone]
  | some b =>
      -- the scope `j` of `m` remembers what `t` finds at `holder`, which is the nearest for `i` too
      obtain ⟨j, v⟩ := b
      obtain ⟨before, after, hchain, hj, hbefore⟩ := nearest?_eq_some_iff.mp hm
      obtain ⟨inner, holder, outer, hchainj, hholder, hinner⟩ := h.finds j n v hj
      rw [h.chain i] at hchain
      obtain ⟨-, hsame⟩ := hn i before j after hchain
      have hfull : t.chain i = (before ++ inner) ++ holder :: outer := by
        rw [hchain, ← hsame, hchainj, List.append_assoc]
      have hnearest : t.nearest? i n = some (holder, v) := by
        refine nearest?_eq_some_iff.mpr ⟨before ++ inner, outer, hfull, hholder, fun k hk => ?_⟩
        rcases List.mem_append.mp hk with hk | hk
        · exact h.bound?_eq_none (hbefore k hk)
        · exact (hinner k hk).1
      rw [hnearest]
      rfl

/-- A scope that has bound a name itself finds it there. -/
theorem inner_eq_nil {inner outer : List Nat} {holder : Nat} (hchain : t.chain i = inner ++ holder :: outer)
    (hinner : ∀ k ∈ inner, t.bound? k n = none) (hv : t.bound? i n = some v) : holder = i := by
  obtain ⟨rest, hrest⟩ := mem_chain_self (lt_length_of_bound? hv)
  rw [hrest] at hchain
  rcases List.cons_eq_append_iff.mp hchain with ⟨-, heq⟩ | ⟨inner', rfl, -⟩
  · exact (List.cons_eq_cons.mp heq).1
  · rw [hinner i List.mem_cons_self] at hv
    cases hv

/-- A name that was found is bound by its reader. -/
theorem remember (h : m.Recalls t passed) {inner outer : List Nat} {holder : Nat}
    (hchain : t.chain id = inner ++ holder :: outer) (hholder : t.bound? holder name = some var)
    (hinner : ∀ k ∈ inner, t.bound? k name = none) (hpassed : ∀ k ∈ inner, (k, name) ∈ passed) :
    (m.put id name var).Recalls t passed := by
  refine ⟨fun i => (chain_put id name var m i).trans (h.chain i),
    (List.length_modify _ _ _).trans h.length, h.fresh, fun i n v hv => ?_, fun i n v hv => ?_⟩
  · rw [bound?_put]
    split
    · next hi =>
        obtain ⟨rfl, rfl, -⟩ := hi
        rw [inner_eq_nil hchain hinner hv, hv] at hholder
        exact hholder.symm
    · exact h.keeps i n v hv
  · rw [bound?_put] at hv
    split at hv
    · next hi =>
        obtain ⟨rfl, rfl, -⟩ := hi
        cases hv
        exact ⟨inner, holder, outer, hchain, hholder, fun k hk => ⟨hinner k hk, hpassed k hk⟩⟩
    · exact h.finds i n v hv

theorem mono (h : m.Recalls t passed) (new : List (Nat × Text)) : m.Recalls t (new ++ passed) := by
  refine ⟨h.chain, h.length, h.fresh, h.keeps, fun i n v hv => ?_⟩
  obtain ⟨inner, holder, outer, hchain, hholder, hinner⟩ := h.finds i n v hv
  exact ⟨inner, holder, outer, hchain, hholder, fun k hk =>
    ⟨(hinner k hk).1, List.mem_append_right new (hinner k hk).2⟩⟩

/-- A scope that no read has passed remembers only what it has bound. -/
theorem bound?_eq (h : m.Recalls t passed) (hid : (id, name) ∉ passed) :
    m.bound? id name = t.bound? id name := by
  cases hm : m.bound? id name with
  | none => exact (h.bound?_eq_none hm).symm
  | some v =>
      obtain ⟨inner, holder, outer, hchain, hholder, hinner⟩ := h.finds id name v hm
      obtain ⟨rest, hrest⟩ := mem_chain_self (h.length ▸ lt_length_of_bound? hm)
      rw [hrest] at hchain
      rcases List.cons_eq_append_iff.mp hchain with ⟨-, heq⟩ | ⟨inner', rfl, -⟩
      · rw [← (List.cons_eq_cons.mp heq).1, hholder]
      · exact absurd (hinner id List.mem_cons_self).2 hid

/-- Binding a name that no read has passed in this scope. -/
theorem bind (h : m.Recalls t passed) (hnone : t.bound? id name = none) (hid : (id, name) ∉ passed) :
    (m.put id name var).Recalls (t.put id name var) passed := by
  refine ⟨fun i => ?_, ?_, h.fresh, fun i n v hv => ?_, fun i n v hv => ?_⟩
  · rw [chain_put, chain_put, h.chain]
  · exact (List.length_modify _ _ _).trans (h.length.trans (List.length_modify _ _ _).symm)
  · rw [bound?_put, h.length]
    rw [bound?_put] at hv
    split
    · next hi => rwa [if_pos hi] at hv
    · next hi =>
        rw [if_neg hi] at hv
        exact h.keeps i n v hv
  · rw [bound?_put, h.length] at hv
    split at hv
    · next hi =>
        obtain ⟨rfl, rfl, hlt⟩ := hi
        cases hv
        obtain ⟨outer, houter⟩ := mem_chain_self hlt
        refine ⟨[], i, outer, (chain_put i n var t i).trans houter, ?_, fun k hk => nomatch hk⟩
        rw [bound?_put, if_pos ⟨rfl, rfl, hlt⟩]
    · -- the way to where the name was found does not lead through the scope that binds it now
      obtain ⟨inner, holder, outer, hchain, hholder, hinner⟩ := h.finds i n v hv
      refine ⟨inner, holder, outer, (chain_put id name var t i).trans hchain, ?_, fun k hk => ?_⟩
      · rw [bound?_put, if_neg, hholder]
        rintro ⟨rfl, rfl, -⟩
        rw [hnone] at hholder
        cases hholder
      · refine ⟨?_, (hinner k hk).2⟩
        rw [bound?_put, if_neg, (hinner k hk).1]
        rintro ⟨rfl, rfl, -⟩
        exact hid (hinner k hk).2

theorem bound?_nest (id i : Nat) (n : Text) (t : PlainTree) :
    (t.nest id).bound? i n = t.bound? i n := by
  unfold bound? PlainTree.nest
  rw [List.getElem?_append]
  split
  · rfl
  · next hi =>
      rw [List.getElem?_eq_none (Nat.le_of_not_lt hi), List.getElem?_singleton]
      split <;> rfl

theorem nest (h : m.Recalls t passed) (id : Nat) : (m.nest id).Recalls (t.nest id) passed := by
  have hchain : ∀ i, (m.nest id).chain i =
      (t.nest id).chain i := by
    intro i
    rcases Nat.lt_trichotomy i t.scopes.length with hi | rfl | hi
    · rw [chain_nest id hi, chain_nest id (h.length ▸ hi), h.chain]
    · rw [chain_nest_last, ← h.length, chain_nest_last, h.chain]
    · have hlength : m.scopes.length < i := h.length ▸ hi
      rw [chain_eq_nil (m.length_nest id ▸ hlength), chain_eq_nil (t.length_nest id ▸ hi)]
  refine ⟨hchain, ?_, h.fresh, fun i n v hv => ?_, fun i n v hv => ?_⟩
  · rw [length_nest, length_nest, h.length]
  · rw [bound?_nest] at hv ⊢
    exact h.keeps i n v hv
  · rw [bound?_nest] at hv
    obtain ⟨inner, holder, outer, hfound, hholder, hinner⟩ := h.finds i n v hv
    refine ⟨inner, holder, outer, ?_, ?_, fun k hk => ?_⟩
    · rw [chain_nest id (h.length ▸ lt_length_of_bound? hv), hfound]
    · rw [bound?_nest, hholder]
    · rw [bound?_nest]
      exact hinner k hk

/-- A timely call gives the same, whether the scopes remember or not. -/
theorem perform (h : m.Recalls t passed) (hn : t.Nested) (call : ScopeCall)
    (htimely : ∀ id name var value owned, call = .bind id name var value owned → (id, name) ∉ passed) :
    (m.perform true call).1 = (t.perform false call).1 ∧
    (m.perform true call).2.Recalls (t.perform false call).2 (call.passes t ++ passed) ∧
    (t.perform false call).2.Nested := by
  cases call with
  | nest id silent => exact ⟨congrArg ScopeAnswer.scope h.length, h.nest id, hn.nest id⟩
  | bind id name var value owned =>
      have hid := htimely id name var value owned rfl
      simp only [PlainTree.perform, h.bound?_eq hid]
      cases ht : t.bound? id name with
      | some held => exact ⟨rfl, h, hn⟩
      | none => exact ⟨rfl, h.bind ht hid, hn.put id name var⟩
  | get id name =>
      have hnearest := h.nearest? hn id name
      simp only [PlainTree.perform, ScopeCall.passes]
      cases ht : t.nearest? id name with
      | none =>
          rw [ht, Option.map_none, Option.map_eq_none_iff] at hnearest
          rw [hnearest]
          exact ⟨rfl, h, hn⟩
      | some found =>
          obtain ⟨holder, var⟩ := found
          rw [ht, Option.map_some, Option.map_eq_some_iff] at hnearest
          obtain ⟨⟨j, w⟩, hm, hw⟩ := hnearest
          obtain rfl : w = var := hw
          obtain ⟨inner, outer, hchain, hholder, hinner⟩ := nearest?_eq_some_iff.mp ht
          have hpassed : ∀ k ∈ inner, (k, name) ∈
              ((t.chain id).takeWhile fun i => (t.bound? i name).isNone).map (·, name) := by
            intro k hk
            rw [hchain, List.takeWhile_append_of_pos fun i hi => by rw [hinner i hi]; rfl]
            exact List.mem_map_of_mem (List.mem_append_left _ hk)
          rw [hm]
          exact ⟨rfl, (h.mono _).remember hchain hholder hinner fun k hk =>
            List.mem_append_left passed (hpassed k hk), hn⟩
  | fresh id =>
      refine ⟨?_, ⟨h.chain, h.length, congrArg (· + 1) h.fresh, h.keeps, h.finds⟩, hn⟩
      simp only [PlainTree.perform, h.fresh]

/-- Timely calls give the same, whether the scopes remember or not. -/
theorem answers (calls : List ScopeCall) (h : m.Recalls t passed) (hn : t.Nested)
    (htimely : Timely calls t passed) :
    answers (PlainTree.perform true) calls m = answers (PlainTree.perform false) calls t := by
  induction calls generalizing m t passed with
  | nil => rfl
  | cons call calls ih =>
      obtain ⟨hanswer, hrecalls, hnested⟩ := h.perform hn call htimely.1
      exact congrArg₂ List.cons hanswer (ih hrecalls hnested htimely.2)

end Recalls

theorem recalls_self (t : PlainTree) : t.Recalls t [] := by
  refine ⟨fun _ => rfl, rfl, rfl, fun _ _ _ hv => hv, fun i n v hv => ?_⟩
  obtain ⟨outer, houter⟩ := mem_chain_self (lt_length_of_bound? hv)
  exact ⟨[], i, outer, houter, hv, fun _ hk => nomatch hk⟩

end PlainTree

/-- The scopes of a tree answer all calls as plain scopes do in which a name that is found further out is
bound by its reader; and they answer as plain scopes with nothing but the bindings that were made, as
long as no scope binds a name that a read has passed there. -/
theorem ScopeTree.answers_eq (calls : List ScopeCall) :
    answers ScopeTree.perform calls .root = answers (PlainTree.perform true) calls .root ∧
    (Timely calls .root [] →
      answers ScopeTree.perform calls .root = answers (PlainTree.perform false) calls .root) := by
  have hplain : answers ScopeTree.perform calls .root = answers (PlainTree.perform true) calls .root := by
    rw [ScopeTree.answers_plain, ScopeTree.plain_root]
  exact ⟨hplain, fun htimely =>
    hplain.trans ((PlainTree.recalls_self .root).answers calls PlainTree.nested_root htimely)⟩

namespace Sample

/-- A scope reads the event, and then it binds it. -/
def lateCalls : List ScopeCall :=
  [.nest 0 false, .get 1 "$event", .bind 1 "$event" "e" none false, .get 1 "$event"]

/-- A scope reads a name of the scope around it, and then the root binds this name. -/
def timelyCalls : List ScopeCall :=
  [.nest 0 false, .nest 1 false, .bind 1 "x" "x_r0" (some (.var {} "ref")) true, .get 2 "x",
    .bind 0 "x" "y" none false, .get 2 "x", .get 0 "x"]

theorem timelyCalls_timely : Timely timelyCalls .root [] := by
  refine ⟨?_, ?_, ?_, ?_, ?_, ?_, ?_, trivial⟩ <;> intro id name var value owned h
  · cases h
  · cases h
  · cases h
    exact List.not_mem_nil
  · cases h
  · cases h
    decide
  · cases h
  · cases h

theorem timelyCalls_answers :
    Timely timelyCalls .root [] ∧
      answers ScopeTree.perform timelyCalls .root = answers (PlainTree.perform false) timelyCalls .root :=
  ⟨timelyCalls_timely, (ScopeTree.answers_eq timelyCalls).2 timelyCalls_timely⟩

/-- A scope that has read a name does not take it any more. -/
theorem lateCalls_answers :
    ¬ ∀ calls, answers ScopeTree.perform calls .root = answers (PlainTree.perform false) calls .root := by
  intro h
  exact absurd (h lateCalls) (by decide)

end Sample

end TemplateCompiler
