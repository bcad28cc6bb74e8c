import TemplateCompiler.Proofs.Pool.Constants
import TemplateCompiler.Proofs.Pool.Expansion

/-!
# Requests to a pool

* `Pool.Request`, `Pool.Answer`, `Pool.Run` : what a pool is asked for and answers, one after the
  other;
* `Pool.Coherent` : every constant is declared with a literal of its key or with a function that
  returns a collection of its key, under a name that no other has;
* `Pool.Coherent.literal`, `Pool.Coherent.factory`, `Pool.Coherent.uniqueName` : every request is
  answered, and preserves this.
-/

namespace TemplateCompiler

open Text (ofNat)

/-! ### Collections -/

namespace Term

def isCollection : Term → Bool
  | .array .. => true
  | .map .. => true
  | _ => false

/-- A collection like the given one, of other entries. -/
def collect : Term → List Term → Term
  | .array .., ts => .ofList ts
  | .map _ es, ts => .ofEntries ((es.map (·.1)).zip ts)
  | t, _ => t

end Term

namespace Pool

/-- What a factory for a collection is told by. -/
def shape (t : Term) : Term := t.collect ((entriesOf t).map keyEntry)

def factoryKey (t : Term) : Except Defect Text := (shape t).keyOf

/-- A function that returns a collection. -/
def maker (params : List Text) (result : Term) : Term := .function {} params [.ret none result] []

/-! ### Requests -/

/-- What a pool is asked for. -/
inductive Request where
  | literal (t : Term) (force : Bool)
  | factory (t : Term)
  | name (name : Text) (suffix : Bool)

/-- What a pool answers. -/
inductive Answer where
  | literal (t : Term)
  | factory (function : Term) (args : List Term)
  | name (name : Text)

/-- The answer to a request, and the pool after it. -/
def answer (pool : Pool) : Request → Except Defect (Answer × Pool)
  | .literal t force => do
    let (t, pool) ← pool.literal t force
    return (.literal t, pool)
  | .factory t => do
    let ((function, args), pool) ← pool.factory t
    return (.factory function args, pool)
  | .name name suffix => return ((.name (pool.uniqueName name suffix).1), (pool.uniqueName name suffix).2)

/-- Literals must be constant, and factories are for arrays and maps. -/
def Request.Allowed : Request → Prop
  | .literal t _ => t.Literal
  | .factory t => t.isCollection = true ∧ t.Genuine
  | .name .. => True

/-- The requests to a new pool with their answers, and the pool after them. -/
inductive Run : List (Request × Answer) → Pool → Prop where
  | start : Run [] {}
  | step {log : List (Request × Answer)} {pool pool' : Pool} {r : Request} {a : Answer} :
    Run log pool → r.Allowed → pool.answer r = .ok (a, pool') → Run (log ++ [(r, a)]) pool'

/-! ### Declarations -/

/-- The value that a constant is declared with. -/
def initializerIn (ss : List Stmt) (x : Text) : Option Term :=
  ss.findSome? fun
    | .declare _ _ n (some t) => if n = x then some t else none
    | _ => none

/-- The value that a constant of a pool is declared with. -/
def initializer? (pool : Pool) (x : Text) : Option Term := initializerIn pool.statements x

theorem initializerIn_append (ss : List Stmt) (n x : Text) (t : Term) :
    initializerIn (ss ++ [.const n t]) x = (initializerIn ss x).or (if n = x then some t else none) := by
  rw [initializerIn, List.findSome?_append]
  congr 1
  rw [List.findSome?_singleton]
  rfl

theorem mem_variablesIn_of_initializerIn {ss : List Stmt} {x : Text} {t : Term}
    (h : initializerIn ss x = some t) : x ∈ Stmt.variablesIn ss := by
  obtain ⟨s, hs, h⟩ := List.exists_of_findSome?_eq_some h
  refine List.mem_filterMap.mpr ⟨s, hs, ?_⟩
  split at h
  · next n u =>
      split at h
      · next hn => rw [← hn]; rfl
      · cases h
  · cases h

/-- A literal that is declared as a constant of a key. -/
structure HeldUnder (key : Text) (t : Term) : Prop where
  literal : t.Literal
  keyOf : t.keyOf = .ok key
  not_pooled : ∀ k u, t ≠ .pooled k u

/-- The entries that a function returns, with its parameters from a number on. -/
inductive Slots : (count : Nat) → List Term → List Text → Prop where
  | nil {count : Nat} : Slots count [] []
  | constant {count : Nat} {t : Term} {ts : List Term} {params : List Text} :
    t.Literal → Slots count ts params → Slots count (t :: ts) params
  | param {count : Nat} {ts : List Term} {params : List Text} :
    Slots (count + 1) ts params →
      Slots count (.ofVar (parameter count) :: ts) (parameter count :: params)

/-- A collection that is returned by a function of a key. -/
structure MadeUnder (key : Text) (params : List Text) (result : Term) : Prop where
  isCollection : result.isCollection = true
  genuine : result.Genuine
  factoryKey : factoryKey result = .ok key
  slots : Slots 0 (entriesOf result) params

/-- How many constants were given a name. -/
def count (pool : Pool) : Nat := (pool.claimed.lookup ("_c" : Text)).getD 0

def constantName (n : Nat) : Text := "_c" ++ ofNat n

theorem constantName_inj {n m : Nat} (h : constantName n = constantName m) : n = m :=
  Text.ofNat_inj (List.append_cancel_left h)

/-- Why a constant is declared. -/
inductive Declared (pool : Pool) (s : Stmt) : Prop where
  | constant {key n : Text} {t : Term} (hs : s = .const n t) (held : HeldUnder key t)
    (hn : pool.names key = some n)
  | factory {key n : Text} {params : List Text} {result : Term} (hs : s = .const n (maker params result))
    (made : MadeUnder key params result) (hn : pool.factories.lookup key = some n)

/-- What is known of a pool after any requests. -/
structure Coherent (pool : Pool) : Prop where
  kept : ∀ key t n, pool.literals.lookup key = some (t, n) → t.Literal ∧ t.keyOf = .ok key
  shared : ∀ key n, pool.names key = some n → ∃ t, pool.initializer? n = some t ∧ HeldUnder key t
  made : ∀ key n, pool.factories.lookup key = some n → ∃ params result,
    pool.initializer? n = some (maker params result) ∧ MadeUnder key params result
  declared : ∀ s ∈ pool.statements, Declared pool s
  named : ∀ x ∈ Stmt.variablesIn pool.statements, ∃ n < pool.count, x = constantName n
  nodup : (Stmt.variablesIn pool.statements).Nodup

/-- A pool that has all constants and functions of another. -/
structure Grows (pool pool' : Pool) : Prop where
  names : pool.names.le pool'.names
  factories : ∀ key n, pool.factories.lookup key = some n → pool'.factories.lookup key = some n

theorem Grows.refl (pool : Pool) : Grows pool pool := ⟨Names.le_refl _, fun _ _ => id⟩

theorem Grows.trans {a b c : Pool} (h : Grows a b) (h' : Grows b c) : Grows a c :=
  ⟨Names.le_trans h.names h'.names, fun key n hn => h'.factories key n (h.factories key n hn)⟩

theorem Coherent.empty : Coherent {} where
  kept := by rintro _ _ _ ⟨⟩
  shared := by rintro _ _ ⟨⟩
  made := by rintro _ _ ⟨⟩
  declared := fun _ h => nomatch h
  named := fun _ h => nomatch h
  nodup := List.nodup_nil

variable {pool pool' : Pool} {key name : Text} {t : Term}

theorem Declared.mono {s : Stmt} (h : Grows pool pool') (hs : Declared pool s) : Declared pool' s := by
  cases hs with
  | constant hs held hn => exact .constant hs held (h.names _ _ hn)
  | factory hs made hn => exact .factory hs made (h.factories _ _ hn)

/-- A declaration of a fresh constant, whose name becomes known for its key. -/
theorem Coherent.extend (h : pool.Coherent) {value : Term}
    (hstatements : pool'.statements = pool.statements ++ [.const (constantName pool.count) value])
    (hcount : pool'.count = pool.count + 1) (hgrows : Grows pool pool')
    (hkept : ∀ key t n, pool'.literals.lookup key = some (t, n) → t.Literal ∧ t.keyOf = .ok key)
    (hshared : ∀ key n, pool'.names key = some n →
      pool.names key = some n ∨ n = constantName pool.count ∧ HeldUnder key value)
    (hmade : ∀ key n, pool'.factories.lookup key = some n → pool.factories.lookup key = some n ∨
      n = constantName pool.count ∧ ∃ params result, value = maker params result ∧
        MadeUnder key params result)
    (hnew : Declared pool' (.const (constantName pool.count) value)) : pool'.Coherent := by
  have hfresh : constantName pool.count ∉ Stmt.variablesIn pool.statements := by
    intro hmem
    obtain ⟨n, hlt, hn⟩ := h.named _ hmem
    exact absurd (constantName_inj hn) (Nat.ne_of_gt hlt)
  have hold : ∀ {n t}, pool.initializer? n = some t → pool'.initializer? n = some t := by
    intro n t hn
    rw [initializer?, hstatements, initializerIn_append]
    rw [initializer?] at hn
    rw [hn]
    rfl
  have hvalue : pool'.initializer? (constantName pool.count) = some value := by
    rw [initializer?, hstatements, initializerIn_append, if_pos rfl]
    cases hn : initializerIn pool.statements (constantName pool.count) with
    | none => rfl
    | some t => exact absurd (mem_variablesIn_of_initializerIn hn) hfresh
  have hvariables : Stmt.variablesIn pool'.statements =
      Stmt.variablesIn pool.statements ++ [constantName pool.count] := by
    rw [hstatements, Stmt.variablesIn, List.filterMap_append]
    rfl
  refine ⟨hkept, fun key n hn => ?_, fun key n hn => ?_, fun s hs => ?_, fun x hx => ?_, ?_⟩
  · rcases hshared key n hn with hn | ⟨rfl, hheld⟩
    · obtain ⟨t, ht, hheld⟩ := h.shared key n hn
      exact ⟨t, hold ht, hheld⟩
    · exact ⟨value, hvalue, hheld⟩
  · rcases hmade key n hn with hn | ⟨rfl, params, result, rfl, hresult⟩
    · obtain ⟨params, result, hn, hresult⟩ := h.made key n hn
      exact ⟨params, result, hold hn, hresult⟩
    · exact ⟨params, result, hvalue, hresult⟩
  · rw [hstatements, List.mem_append, List.mem_singleton] at hs
    rcases hs with hs | rfl
    · exact (h.declared s hs).mono hgrows
    · exact hnew
  · rw [hvariables, List.mem_append, List.mem_singleton] at hx
    rw [hcount]
    rcases hx with hx | rfl
    · obtain ⟨n, hlt, hn⟩ := h.named x hx
      exact ⟨n, Nat.lt_succ_of_lt hlt, hn⟩
    · exact ⟨pool.count, Nat.lt_succ_self _, rfl⟩
  · rw [hvariables]
    refine List.nodup_append.mpr ⟨h.nodup, List.nodup_singleton _, ?_⟩
    rintro x hx y hy rfl
    rw [List.mem_singleton] at hy
    exact hfresh (hy ▸ hx)

/-! ### Literals -/

theorem declare_fst (pool : Pool) (value : Term) : (pool.declare value).1 = constantName pool.count := by
  refine if_neg ?_
  rw [Bool.not_true, Bool.and_false]
  exact Bool.false_ne_true

theorem declare_statements (pool : Pool) (value : Term) : (pool.declare value).2.statements =
    pool.statements ++ [.const (constantName pool.count) value] := by
  rw [← declare_fst pool value]
  rfl

theorem count_declare (pool : Pool) (value : Term) : (pool.declare value).2.count = pool.count + 1 := by
  change (List.lookup ("_c" : Text) ((("_c" : Text), pool.count + 1) :: _)).getD 0 = _
  rw [List.lookup_cons, beq_self_eq_true]
  rfl

theorem Coherent.keep (h : pool.Coherent) (ht : t.Literal) (hk : t.keyOf = .ok key) :
    (pool.keep key t).Coherent ∧ Grows pool (pool.keep key t) := by
  have hnames := names_keep pool key t
  have hgrows : Grows pool (pool.keep key t) := ⟨hnames ▸ Names.le_refl _, fun _ _ => id⟩
  refine ⟨⟨fun k u n hu => ?_, ?_, h.made, fun s hs => (h.declared s hs).mono hgrows, h.named, h.nodup⟩,
    hgrows⟩
  · rw [Pool.keep, List.lookup_append] at hu
    cases hl : pool.literals.lookup k with
    | some e =>
        rw [hl] at hu
        cases hu
        exact h.kept k u n hl
    | none =>
        rw [hl, Option.none_or, List.lookup_cons, List.lookup_nil] at hu
        split at hu
        · next heq =>
            cases hu
            exact ⟨ht, eq_of_beq heq ▸ hk⟩
        · cases hu
  · rw [hnames]
    exact h.shared

/-- A literal that is kept gets a constant. -/
theorem Coherent.share (h : pool.Coherent) {kept : Term} (hlookup : pool.literals.lookup key = some (kept, none))
    (ht : HeldUnder key t) :
    ((pool.declare t).2.share key (pool.declare t).1).Coherent ∧
      Grows pool ((pool.declare t).2.share key (pool.declare t).1) := by
  have hself : ((pool.declare t).2.share key (pool.declare t).1).names key = some (pool.declare t).1 :=
    names_share_self hlookup
  have hother : ∀ {k}, k ≠ key →
      ((pool.declare t).2.share key (pool.declare t).1).names k = pool.names k :=
    names_share_of_ne
  have hnone : pool.names key = none := by
    rw [Pool.names, hlookup]
    rfl
  have hgrows : Grows pool ((pool.declare t).2.share key (pool.declare t).1) :=
    ⟨names_le_share (pool.declare t).2 hnone _, fun _ _ => id⟩
  refine ⟨h.extend (declare_statements pool t) (count_declare pool t) hgrows ?_ ?_ (fun _ _ => .inl)
    (.constant rfl ht (declare_fst pool t ▸ hself)), hgrows⟩
  · intro k u n hu
    rw [lookup_share] at hu
    obtain ⟨⟨u', n'⟩, hu', heq⟩ := Option.map_eq_some_iff.mp hu
    cases heq
    exact h.kept k u n' hu'
  · intro k n hn
    by_cases hk : k = key
    · subst hk
      rw [hself, Option.some.injEq, declare_fst] at hn
      exact .inr ⟨hn.symm, ht⟩
    · rw [hother hk] at hn
      exact .inl hn

theorem not_pooled_of_isInline (h : isInline t = false) (k : Text) (u : Term) : t ≠ .pooled k u := by
  rintro rfl
  cases h

/-- A literal is answered with a literal of the same key. -/
theorem Coherent.literal (h : pool.Coherent) (ht : t.Literal) (force : Bool) :
    ∃ u pool', pool.literal t force = .ok (u, pool') ∧ pool'.Coherent ∧ Grows pool pool' ∧
      pool'.factories = pool.factories ∧ u.Literal ∧ u.keyOf = t.keyOf := by
  cases hinline : isInline t with
  | true => exact ⟨t, pool, if_pos hinline, h, .refl pool, rfl, ht, rfl⟩
  | false =>
      obtain ⟨key, hkey⟩ := Term.exists_keyOf t ht.keyable
      have hpooled : ∀ {u}, u.Literal ∧ u.keyOf = .ok key →
          (Term.pooled key u).Literal ∧ (Term.pooled key u).keyOf = .ok key :=
        fun hu => ⟨⟨rfl, hu.1.1, hu.2, hu.1.2⟩, hu.2⟩
      have hheld : HeldUnder key t := ⟨ht, hkey, not_pooled_of_isInline hinline⟩
      rw [Pool.literal, if_neg (by simp [hinline]), hkey]
      dsimp only [bind, Except.bind]
      cases hlookup : pool.literals.lookup key with
      | some e =>
          obtain ⟨kept, _ | n⟩ := e
          · obtain ⟨hcoherent, hgrows⟩ := h.share hlookup hheld
            exact ⟨_, _, rfl, hcoherent, hgrows, rfl, hpooled (h.kept key kept none hlookup)⟩
          · exact ⟨_, _, rfl, h, .refl pool, rfl, hpooled (h.kept key kept _ hlookup)⟩
      | none =>
          obtain ⟨hkeep, hgrows⟩ := h.keep ht hkey
          cases force with
          | true =>
              obtain ⟨hcoherent, hgrows'⟩ := hkeep.share (lookup_keep hlookup) hheld
              exact ⟨_, _, rfl, hcoherent, hgrows.trans hgrows', rfl, hpooled ⟨ht, hkey⟩⟩
          | false => exact ⟨_, _, rfl, hkeep, hgrows, rfl, hpooled ⟨ht, hkey⟩⟩

/-! ### Names -/

theorem lookup_filter_ne {α : Type} {n x : Text} (h : x ≠ n) (es : List (Text × α)) :
    (es.filter (·.1 != n)).lookup x = es.lookup x := by
  induction es with
  | nil => rfl
  | cons e es ih =>
      by_cases he : e.1 = n
      · rw [List.filter_cons_of_neg (by simp [he]), ih, List.lookup_cons, beq_false_of_ne (he ▸ h)]
      · rw [List.filter_cons_of_pos (by simp [he]), List.lookup_cons, List.lookup_cons, ih]

theorem count_uniqueName (pool : Pool) (name : Text) (suffix : Bool) :
    pool.count ≤ (pool.uniqueName name suffix).2.count := by
  change _ ≤ (List.lookup ("_c" : Text)
    ((name, (pool.claimed.lookup name).getD 0 + 1) :: pool.claimed.filter (·.1 != name))).getD 0
  rw [List.lookup_cons]
  by_cases h : ("_c" : Text) = name
  · rw [beq_iff_eq.mpr h, ← h]
    exact Nat.le_succ _
  · rw [beq_false_of_ne h, lookup_filter_ne h]
    exact Nat.le_refl _

/-- A name that is given out changes no constant. -/
theorem Coherent.uniqueName (h : pool.Coherent) (name : Text) (suffix : Bool) :
    (pool.uniqueName name suffix).2.Coherent ∧ Grows pool (pool.uniqueName name suffix).2 := by
  have hgrows : Grows pool (pool.uniqueName name suffix).2 := ⟨Names.le_refl _, fun _ _ => id⟩
  refine ⟨⟨h.kept, h.shared, h.made, fun s hs => (h.declared s hs).mono hgrows, fun x hx => ?_, h.nodup⟩,
    hgrows⟩
  obtain ⟨n, hlt, hn⟩ := h.named x hx
  exact ⟨n, Nat.lt_of_lt_of_le hlt (count_uniqueName pool name suffix), hn⟩

/-! ### Factories -/

theorem isConstant_ofVar (x : Text) : (Term.ofVar x).isConstant = false := rfl

/-- What the entries of a factory and those of its function have in common. -/
def SameEntry (t u : Term) : Prop := (keyEntry t).keyOf = (keyEntry u).keyOf

theorem Coherent.factoryEntries {ts : List Term} : ∀ {count : Nat} {pool : Pool}, pool.Coherent →
    (∀ t ∈ ts, t.Genuine) → ∃ entries params pool',
      Pool.factoryEntries count ts pool = .ok (entries, params, pool') ∧ pool'.Coherent ∧
        Grows pool pool' ∧ pool'.factories = pool.factories ∧ Slots count entries params ∧
          (∀ e ∈ entries, e.Genuine) ∧ List.Forall₂ SameEntry ts entries := by
  induction ts with
  | nil =>
      intro count pool h _
      exact ⟨[], [], pool, rfl, h, .refl pool, rfl, .nil, List.forall_mem_nil _, .nil⟩
  | cons t ts ih =>
      intro count pool h hts
      obtain ⟨ht, hts⟩ := List.forall_mem_cons.mp hts
      cases hc : t.isConstant with
      | true =>
          obtain ⟨u, pool₁, hu, h₁, hgrows, hfactories, hliteral, hkey⟩ := h.literal ⟨hc, ht⟩ true
          obtain ⟨entries, params, pool₂, hrun, h₂, hgrows', hfactories', hslots, hgenuine, hsame⟩ :=
            @ih count _ h₁ hts
          refine ⟨u :: entries, params, pool₂, ?_, h₂, hgrows.trans hgrows', hfactories'.trans hfactories,
            .constant hliteral hslots, List.forall_mem_cons.mpr ⟨hliteral.2, hgenuine⟩, .cons ?_ hsame⟩
          · rw [Pool.factoryEntries, if_pos hc]
            exact except_bind_ok.mpr ⟨_, hu, except_bind_ok.mpr ⟨_, hrun, rfl⟩⟩
          · rw [SameEntry, keyEntry, keyEntry, if_pos hc, if_pos hliteral.1, hkey]
      | false =>
          obtain ⟨entries, params, pool₁, hrun, h₁, hgrows, hfactories, hslots, hgenuine, hsame⟩ :=
            @ih (count + 1) _ h hts
          refine ⟨_, _, pool₁, ?_, h₁, hgrows, hfactories, .param hslots,
            List.forall_mem_cons.mpr ⟨trivial, hgenuine⟩, .cons ?_ hsame⟩
          · rw [Pool.factoryEntries, if_neg (by simp [hc])]
            exact except_bind_ok.mpr ⟨_, hrun, rfl⟩
          · rw [SameEntry, keyEntry, if_neg (by simp [hc])]
            rfl

theorem keysOf_keyEntry {ts us : List Term} (h : List.Forall₂ SameEntry ts us) :
    Term.keysOf (ts.map keyEntry) = Term.keysOf (us.map keyEntry) := by
  induction h with
  | nil => rfl
  | cons htu _ ih => rw [List.map_cons, List.map_cons, Term.keysOf, Term.keysOf, ih, htu]

theorem keysOfEntries_keyEntry {ts us : List Term} (h : List.Forall₂ SameEntry ts us) (ks : List MapKey) :
    Term.keysOfEntries (ks.zip (ts.map keyEntry)) = Term.keysOfEntries (ks.zip (us.map keyEntry)) := by
  induction h generalizing ks with
  | nil => rfl
  | cons htu _ ih =>
      cases ks with
      | nil => rfl
      | cons k ks =>
          rw [List.map_cons, List.map_cons, List.zip_cons_cons, List.zip_cons_cons, Term.keysOfEntries,
            Term.keysOfEntries, ih, htu]

theorem isCollection_collect (ht : t.isCollection = true) (us : List Term) :
    (t.collect us).isCollection = true := by
  cases t with
  | array | map => rfl
  | _ => cases ht

theorem entriesOf_collect (ht : t.isCollection = true) {us : List Term}
    (h : us.length = (entriesOf t).length) : entriesOf (t.collect us) = us := by
  cases t with
  | array => rfl
  | map note es =>
      refine List.map_snd_zip (Nat.le_of_eq ?_)
      rw [h, entriesOf, List.length_map, List.length_map]
  | _ => cases ht

theorem collect_collect (ht : t.isCollection = true) {us vs : List Term}
    (h : us.length = (entriesOf t).length) : (t.collect us).collect vs = t.collect vs := by
  cases t with
  | array => rfl
  | map note es =>
      have hkeys : ((es.map (·.1)).zip us).map (·.1) = es.map (·.1) := by
        refine List.map_fst_zip (Nat.le_of_eq ?_)
        rw [h, entriesOf, List.length_map, List.length_map]
      change Term.ofEntries ((((es.map (·.1)).zip us).map (·.1)).zip vs) = _
      rw [hkeys]
      rfl
  | _ => cases ht

theorem factoryKey_collect (ht : t.isCollection = true) {us : List Term}
    (h : List.Forall₂ SameEntry (entriesOf t) us) : factoryKey (t.collect us) = factoryKey t := by
  have hlength := h.length_eq.symm
  rw [factoryKey, shape, entriesOf_collect ht hlength, collect_collect ht hlength, factoryKey, shape]
  cases t with
  | array note es => exact congrArg (· >>= _) (keysOf_keyEntry h).symm
  | map note es => exact congrArg (· >>= _) (keysOfEntries_keyEntry h (es.map (·.1))).symm
  | _ => cases ht

theorem genuineAll_iff {ts : List Term} : Term.GenuineAll ts ↔ ∀ t ∈ ts, t.Genuine := by
  induction ts with
  | nil => simp [Term.GenuineAll]
  | cons t ts ih => rw [Term.GenuineAll, ih, List.forall_mem_cons]

theorem genuineEntries_iff {ts : List (MapKey × Term)} :
    Term.GenuineEntries ts ↔ ∀ e ∈ ts, e.1.Legible ∧ e.2.Genuine := by
  induction ts with
  | nil => simp [Term.GenuineEntries]
  | cons e ts ih => rw [Term.GenuineEntries, ih, List.forall_mem_cons, and_assoc]

theorem genuine_entriesOf (ht : t.isCollection = true) (hg : t.Genuine) : ∀ e ∈ entriesOf t, e.Genuine := by
  cases t with
  | array note es => exact genuineAll_iff.mp hg
  | map note es =>
      intro e he
      obtain ⟨e', he', rfl⟩ := List.mem_map.mp he
      exact (genuineEntries_iff.mp hg e' he').2
  | _ => cases ht

theorem genuine_collect (ht : t.isCollection = true) (hg : t.Genuine) {us : List Term}
    (hus : ∀ u ∈ us, u.Genuine) : (t.collect us).Genuine := by
  cases t with
  | array note es => exact genuineAll_iff.mpr hus
  | map note es =>
      refine genuineEntries_iff.mpr fun e he => ?_
      obtain ⟨hkey, hvalue⟩ := List.of_mem_zip he
      obtain ⟨e', he', heq⟩ := List.mem_map.mp hkey
      exact ⟨heq ▸ (genuineEntries_iff.mp hg e' he').1, hus _ hvalue⟩
  | _ => cases ht

theorem factory_eq (ht : t.isCollection = true) (pool : Pool) :
    pool.factory t = factoryKey t >>= fun key => pool.factoryFor key (entriesOf t) t.collect := by
  cases t with
  | array => rfl
  | map note es =>
      have hentries : es.map (fun e => (e.1, keyEntry e.2)) =
          (es.map (·.1)).zip ((es.map (·.2)).map keyEntry) := by
        rw [List.map_map, List.zip_map']
        rfl
      exact congrArg (fun entries => (Term.ofEntries entries).keyOf >>= fun key =>
        pool.factoryFor key (es.map (·.2)) fun values => .ofEntries ((es.map (·.1)).zip values)) hentries
  | _ => cases ht

def addFactory (key name : Text) (pool : Pool) : Pool :=
  { pool with factories := pool.factories ++ [(key, name)] }

theorem lookup_addFactory (key name k : Text) (pool : Pool) :
    (pool.addFactory key name).factories.lookup k =
      (pool.factories.lookup k).or (if k = key then some name else none) := by
  rw [addFactory, List.lookup_append, List.lookup_cons, List.lookup_nil]
  by_cases hk : k = key
  · rw [beq_iff_eq.mpr hk, if_pos hk]
  · rw [beq_false_of_ne hk, if_neg hk]

/-- A function for a new key is declared. -/
theorem Coherent.addFactory (h : pool.Coherent) (hnone : pool.factories.lookup key = none)
    {params : List Text} {result : Term} (hmade : MadeUnder key params result) :
    ((pool.declare (maker params result)).2.addFactory key (constantName pool.count)).Coherent ∧
      Grows pool ((pool.declare (maker params result)).2.addFactory key (constantName pool.count)) := by
  have hlookup : ∀ k,
      ((pool.declare (maker params result)).2.addFactory key (constantName pool.count)).factories.lookup k =
        (pool.factories.lookup k).or (if k = key then some (constantName pool.count) else none) :=
    fun k => lookup_addFactory key _ k (pool.declare (maker params result)).2
  have hgrows : Grows pool
      ((pool.declare (maker params result)).2.addFactory key (constantName pool.count)) := by
    refine ⟨Names.le_refl _, fun k n hn => ?_⟩
    rw [hlookup, hn]
    rfl
  refine ⟨h.extend (declare_statements pool (maker params result))
    (count_declare pool (maker params result)) hgrows h.kept (fun _ _ => .inl) ?_ (.factory rfl hmade ?_),
    hgrows⟩
  · intro k n hn
    rw [hlookup, Option.or_eq_some_iff] at hn
    rcases hn with hn | ⟨-, hn⟩
    · exact .inl hn
    · split at hn
      · next hk =>
          cases hn
          exact .inr ⟨rfl, params, result, rfl, hk ▸ hmade⟩
      · cases hn
  · rw [hlookup, hnone, if_pos rfl]
    rfl

/-- A factory is answered with a function of its key. -/
theorem Coherent.factory (h : pool.Coherent) (ht : t.isCollection = true) (hg : t.Genuine)
    (hkey : factoryKey t = .ok key) : ∃ name pool',
      pool.factory t = .ok ((.ofVar name, (entriesOf t).filter fun t => !t.isConstant), pool') ∧
        pool'.Coherent ∧ Grows pool pool' ∧ pool'.factories.lookup key = some name := by
  rw [factory_eq ht, hkey]
  cases hlookup : pool.factories.lookup key with
  | some name =>
      refine ⟨name, pool, ?_, h, .refl pool, hlookup⟩
      change pool.factoryFor key (entriesOf t) t.collect = _
      rw [factoryFor, hlookup]
      rfl
  | none =>
      obtain ⟨entries, params, pool₁, hrun, h₁, hgrows, hfactories, hslots, hgenuine, hsame⟩ :=
        @Coherent.factoryEntries _ 0 _ h (genuine_entriesOf ht hg)
      have hmade : MadeUnder key params (t.collect entries) := by
        refine ⟨isCollection_collect ht _, genuine_collect ht hg hgenuine,
          (factoryKey_collect ht hsame).trans hkey, ?_⟩
        rw [entriesOf_collect ht hsame.length_eq.symm]
        exact hslots
      have hnone : pool₁.factories.lookup key = none := by rw [hfactories, hlookup]
      obtain ⟨hcoherent, hgrows'⟩ := h₁.addFactory hnone hmade
      refine ⟨constantName pool₁.count, _, ?_, hcoherent, hgrows.trans hgrows', ?_⟩
      · change pool.factoryFor key (entriesOf t) t.collect = _
        rw [factoryFor, hlookup]
        refine except_bind_ok.mpr ⟨_, hrun, ?_⟩
        rw [← declare_fst pool₁ (maker params (t.collect entries))]
        rfl
      · refine (lookup_addFactory key _ key (pool₁.declare (maker params (t.collect entries))).2).trans ?_
        rw [if_pos rfl]
        change (pool₁.factories.lookup key).or _ = _
        rw [hnone]
        rfl

/-! ### Runs -/

theorem keyable_keyEntry (h : t.Genuine) : (keyEntry t).Keyable := by
  unfold keyEntry
  split
  · next hc => exact Term.keyable_of_literal t hc h
  · change ')'.toUInt8 ∉ ("<unknown>" : Text)
    decide

/-- A genuine collection has a factory key. -/
theorem keyable_shape (ht : t.isCollection = true) (hg : t.Genuine) : (shape t).Keyable := by
  cases t with
  | array note es =>
      refine Term.keyableAll_iff.mpr fun e he => ?_
      obtain ⟨e, hmem, rfl⟩ := List.mem_map.mp he
      exact keyable_keyEntry (genuineAll_iff.mp hg e hmem)
  | map note es =>
      refine Term.keyableEntries_iff.mpr fun e he => ?_
      obtain ⟨hkey, hvalue⟩ := List.of_mem_zip he
      obtain ⟨k, hk, hkeq⟩ := List.mem_map.mp hkey
      obtain ⟨v, hv, hveq⟩ := List.mem_map.mp hvalue
      obtain ⟨e', he', rfl⟩ := List.mem_map.mp hv
      exact ⟨hkeq ▸ (genuineEntries_iff.mp hg k hk).1,
        hveq ▸ keyable_keyEntry (genuineEntries_iff.mp hg e' he').2⟩
  | _ => cases ht

def Answered (pool : Pool) : Request × Answer → Prop
  | (.literal t _, .literal u) => t.Literal ∧ u.Literal ∧ u.keyOf = t.keyOf
  | (.factory t, .factory function args) => t.isCollection = true ∧ t.Genuine ∧
    ∃ key name, factoryKey t = .ok key ∧ function = .ofVar name ∧
      args = (entriesOf t).filter (fun t => !t.isConstant) ∧ pool.factories.lookup key = some name
  | (.name .., .name ..) => True
  | _ => False

theorem Answered.mono (h : Grows pool pool') : ∀ {e : Request × Answer}, Answered pool e → Answered pool' e
  | (.literal .., .literal ..), he => he
  | (.factory .., .factory ..), he => by
      obtain ⟨ht, hg, key, name, hkey, hname, hargs, hlookup⟩ := he
      exact ⟨ht, hg, key, name, hkey, hname, hargs, h.factories key name hlookup⟩
  | (.name .., .name ..), _ => trivial

/-- Every allowed request is answered. -/
theorem Coherent.answer (h : pool.Coherent) {r : Request} (hr : r.Allowed) :
    ∃ a pool', pool.answer r = .ok (a, pool') ∧ pool'.Coherent ∧ Grows pool pool' ∧
      Answered pool' (r, a) := by
  cases r with
  | literal t force =>
      obtain ⟨u, pool', hrun, hcoherent, hgrows, -, hu, hkey⟩ := h.literal hr force
      exact ⟨_, pool', except_bind_ok.mpr ⟨_, hrun, rfl⟩, hcoherent, hgrows, hr, hu, hkey⟩
  | factory t =>
      obtain ⟨key, hkey⟩ := Term.exists_keyOf _ (keyable_shape hr.1 hr.2)
      obtain ⟨name, pool', hrun, hcoherent, hgrows, hlookup⟩ := h.factory hr.1 hr.2 hkey
      exact ⟨_, pool', except_bind_ok.mpr ⟨_, hrun, rfl⟩, hcoherent, hgrows, hr.1, hr.2, key, name, hkey,
        rfl, rfl, hlookup⟩
  | name name suffix =>
      obtain ⟨hcoherent, hgrows⟩ := h.uniqueName name suffix
      exact ⟨_, _, rfl, hcoherent, hgrows, trivial⟩

theorem Run.coherent {log : List (Request × Answer)} (h : Run log pool) :
    pool.Coherent ∧ ∀ e ∈ log, Answered pool e := by
  induction h with
  | start => exact ⟨.empty, fun _ he => nomatch he⟩
  | @step log pool pool' r a _ hr hanswer ih =>
      obtain ⟨hcoherent, hlog⟩ := ih
      obtain ⟨a', pool'', hanswer', hcoherent', hgrows, hanswered⟩ := hcoherent.answer hr
      cases hanswer.symm.trans hanswer'
      refine ⟨hcoherent', List.forall_mem_append.mpr ⟨fun e he => (hlog e he).mono hgrows, ?_⟩⟩
      exact List.forall_mem_singleton.mpr hanswered

end Pool

end TemplateCompiler
