import Mathlib.Data.List.Nodup
import TemplateCompiler.Proofs.Pool.Requests

/-!
# All names of a pool are different

A name is a stem and the number of earlier requests for this stem, with nothing between the two, and
the number zero may be left off. The constants have a stem like any other, which can be asked for too.
What keeps the names apart is that no stem ends with a digit: then a name tells its stem and its number
(`Pool.Spells.inj`), and no number of a stem is used twice.

* `Pool.answer_cases` : a request takes one name, or it declares constants one by one;
* `Pool.Distinct` : names are different, and their numbers are used up;
* `Pool.names_distinct` : so the names that were asked for and those of the constants and factories are
  all different, whatever a pool is asked for.
-/

namespace TemplateCompiler.Pool

open Text (ofNat EndsOpen)

/-! ### Requests one after the other -/

/-- The answer to a request, and the pool after it. A request that fails leaves the pool as it is. -/
def perform (pool : Pool) (r : Request) : Except Defect Answer × Pool :=
  match pool.answer r with
  | .ok (a, pool') => (.ok a, pool')
  | .error d => (.error d, pool)

/-- The answers to requests, and the pool after them. -/
def serve (pool : Pool) : List Request → List (Except Defect Answer) × Pool
  | [] => ([], pool)
  | r :: rs => ((pool.perform r).1 :: ((pool.perform r).2.serve rs).1, ((pool.perform r).2.serve rs).2)

def name? : Except Defect Answer → Option Text
  | .ok (.name x) => some x
  | _ => none

/-! ### Stems and numbers -/

def asked (pool : Pool) (stem : Text) : Nat := (pool.claimed.lookup stem).getD 0

/-- A name is made of a stem and a number. Zero may be left off. -/
def Spells (stem : Text) (n : Nat) (x : Text) : Prop := x = stem ++ ofNat n ∨ n = 0 ∧ x = stem

/-- A text with a numeral at its end ends with a digit. -/
theorem not_endsOpen_append_ofNat (t : Text) (n : Nat) : ¬ EndsOpen (t ++ ofNat n) := by
  intro h
  obtain ⟨front, b, hfront⟩ := (List.eq_nil_or_concat (ofNat n)).resolve_left (Text.ofNat_ne_nil n)
  have hlast : (t ++ ofNat n).getLast? = some b := by
    rw [List.getLast?_append_of_ne_nil t (Text.ofNat_ne_nil n), hfront]
    simp
  have hdigit : Text.isDigit b.toNat = true := Text.isDigit_of_mem_ofNat (n := n) (by simp [hfront])
  rw [h b hlast] at hdigit
  cases hdigit

/-- A name tells its stem and its number. -/
theorem Spells.inj {stem stem' x : Text} {n n' : Nat} (hopen : EndsOpen stem) (hopen' : EndsOpen stem')
    (h : Spells stem n x) (h' : Spells stem' n' x) : stem = stem' ∧ n = n' := by
  -- If only one of them has its number written out, the other one's stem ends with a digit.
  rcases h with rfl | ⟨rfl, rfl⟩
  · rcases h' with h' | ⟨-, rfl⟩
    · exact Text.append_ofNat_inj hopen hopen' h'
    · exact absurd hopen' (not_endsOpen_append_ofNat stem n)
  · rcases h' with rfl | ⟨rfl, rfl⟩
    · exact absurd hopen (not_endsOpen_append_ofNat stem' n')
    · exact ⟨rfl, rfl⟩

theorem spells_uniqueName (pool : Pool) (stem : Text) (suffix : Bool) :
    Spells stem (pool.asked stem) (pool.uniqueName stem suffix).1 := by
  have hname : (pool.uniqueName stem suffix).1 =
      if pool.asked stem == 0 && !suffix then stem else stem ++ ofNat (pool.asked stem) := rfl
  rw [hname]
  split
  · next h =>
      rw [Bool.and_eq_true, beq_iff_eq] at h
      exact .inr ⟨h.1, rfl⟩
  · exact .inl rfl

@[simp] theorem uniqueName_statements (pool : Pool) (stem : Text) (suffix : Bool) :
    (pool.uniqueName stem suffix).2.statements = pool.statements := rfl

theorem asked_uniqueName_self (pool : Pool) (stem : Text) (suffix : Bool) :
    (pool.uniqueName stem suffix).2.asked stem = pool.asked stem + 1 := by
  simp [asked, uniqueName]

theorem asked_uniqueName_of_ne (pool : Pool) {stem stem' : Text} (h : stem' ≠ stem) (suffix : Bool) :
    (pool.uniqueName stem suffix).2.asked stem' = pool.asked stem' := by
  have hlookup := lookup_filter_ne h pool.claimed
  simp [asked, uniqueName, List.lookup_cons, beq_false_of_ne h, hlookup]

/-! ### What requests do -/

/-- Constants are declared one by one. In between, the pool learns what they are for. -/
inductive Declaring : Pool → Pool → Prop where
  | learn {pool pool' : Pool} : pool'.statements = pool.statements → pool'.claimed = pool.claimed →
    Declaring pool pool'
  | declare (pool : Pool) (value : Term) : Declaring pool (pool.declare value).2
  | trans {a b c : Pool} : Declaring a b → Declaring b c → Declaring a c

variable {pool pool' : Pool} {t u : Term}

theorem Declaring.refl (pool : Pool) : Declaring pool pool := .learn rfl rfl

theorem declaring_literal {force : Bool} (hrun : pool.literal t force = .ok (u, pool')) :
    Declaring pool pool' := by
  have hshare : ∀ (pool : Pool) key, Declaring pool ((pool.declare t).2.share key (pool.declare t).1) :=
    fun pool key => (Declaring.declare pool t).trans (.learn rfl rfl)
  unfold Pool.literal at hrun
  split at hrun
  · cases hrun
    exact .refl pool
  · obtain ⟨key, -, hrun⟩ := except_bind_ok.mp hrun
    have hkeep : Declaring pool (pool.keep key t) := .learn rfl rfl
    split at hrun
    · cases hrun
      exact .refl pool
    · cases hrun
      exact hshare pool key
    · split at hrun
      · cases hrun
        exact hkeep.trans (hshare (pool.keep key t) key)
      · cases hrun
        exact hkeep

theorem declaring_factoryEntries {ts : List Term} : ∀ {count : Nat} {pool pool' : Pool} {entries params},
    factoryEntries count ts pool = .ok (entries, params, pool') → Declaring pool pool' := by
  induction ts with
  | nil =>
      intro count pool pool' entries params hrun
      cases hrun
      exact .refl pool
  | cons t ts ih =>
      intro count pool pool' entries params hrun
      rw [factoryEntries] at hrun
      split at hrun
      · obtain ⟨⟨shared, pool₁⟩, hshared, hrun⟩ := except_bind_ok.mp hrun
        obtain ⟨⟨rest, params₁, pool₂⟩, hrest, hrun⟩ := except_bind_ok.mp hrun
        cases hrun
        exact (declaring_literal hshared).trans (ih hrest)
      · obtain ⟨⟨rest, params₁, pool₁⟩, hrest, hrun⟩ := except_bind_ok.mp hrun
        cases hrun
        exact ih hrest

theorem declaring_factoryFor {key : Text} {values : List Term} {build : List Term → Term}
    {r : Term × List Term} (hrun : pool.factoryFor key values build = .ok (r, pool')) :
    Declaring pool pool' := by
  unfold Pool.factoryFor at hrun
  dsimp only at hrun
  split at hrun
  · cases hrun
    exact .refl pool
  · obtain ⟨⟨entries, params, pool₁⟩, hentries, hrun⟩ := except_bind_ok.mp hrun
    cases hrun
    exact (declaring_factoryEntries hentries).trans ((Declaring.declare pool₁ _).trans (.learn rfl rfl))

theorem declaring_factory {r : Term × List Term} (hrun : pool.factory t = .ok (r, pool')) :
    Declaring pool pool' := by
  unfold Pool.factory at hrun
  split at hrun
  · obtain ⟨key, -, hrun⟩ := except_bind_ok.mp hrun
    exact declaring_factoryFor hrun
  · obtain ⟨key, -, hrun⟩ := except_bind_ok.mp hrun
    exact declaring_factoryFor hrun
  · cases hrun

/-- A request takes the next name of a stem, or it declares constants and is given no name. -/
theorem answer_cases {r : Request} {a : Answer} (hrun : pool.answer r = .ok (a, pool')) :
    (∃ stem suffix, r = .name stem suffix ∧ a = .name (pool.uniqueName stem suffix).1 ∧
      pool' = (pool.uniqueName stem suffix).2) ∨ Declaring pool pool' ∧ name? (.ok a) = none := by
  cases r with
  | literal t force =>
      obtain ⟨⟨u, pool₁⟩, hliteral, hrun⟩ := except_bind_ok.mp hrun
      cases hrun
      exact .inr ⟨declaring_literal hliteral, rfl⟩
  | factory t =>
      obtain ⟨⟨⟨function, args⟩, pool₁⟩, hfactory, hrun⟩ := except_bind_ok.mp hrun
      cases hrun
      exact .inr ⟨declaring_factory hfactory, rfl⟩
  | name stem suffix =>
      cases hrun
      exact .inl ⟨stem, suffix, rfl, rfl, rfl⟩

/-! ### Different names -/

/-- Names are different, and the number of each is one that was used up for its stem. -/
structure Distinct (names : List Text) (pool : Pool) : Prop where
  nodup : names.Nodup
  used : ∀ x ∈ names, ∃ stem n, EndsOpen stem ∧ n < pool.asked stem ∧ Spells stem n x

namespace Distinct

variable {names names' : List Text}

theorem empty : Distinct [] {} := ⟨List.nodup_nil, List.forall_mem_nil _⟩

theorem perm (h : Distinct names pool) (hperm : names.Perm names') : Distinct names' pool :=
  ⟨hperm.nodup_iff.mp h.nodup, fun x hx => h.used x (hperm.mem_iff.mpr hx)⟩

/-- The next name of a stem is a new one. -/
theorem uniqueName (h : Distinct names pool) {stem : Text} (hopen : EndsOpen stem) (suffix : Bool) :
    Distinct ((pool.uniqueName stem suffix).1 :: names) (pool.uniqueName stem suffix).2 := by
  have hspells := spells_uniqueName pool stem suffix
  refine ⟨List.nodup_cons.mpr ⟨fun hmem => ?_, h.nodup⟩, List.forall_mem_cons.mpr ⟨?_, fun x hx => ?_⟩⟩
  · obtain ⟨stem', n, hopen', hlt, hspells'⟩ := h.used _ hmem
    obtain ⟨rfl, rfl⟩ := hspells.inj hopen hopen' hspells'
    omega
  · refine ⟨stem, pool.asked stem, hopen, ?_, hspells⟩
    rw [asked_uniqueName_self]
    omega
  · obtain ⟨stem', n, hopen', hlt, hspells'⟩ := h.used x hx
    refine ⟨stem', n, hopen', ?_, hspells'⟩
    by_cases hstem : stem' = stem
    · rw [hstem, asked_uniqueName_self]
      rw [hstem] at hlt
      omega
    · rwa [asked_uniqueName_of_ne pool hstem]

/-- Constants are declared under new names. -/
theorem declaring (hstep : Declaring pool pool')
    (h : Distinct (names ++ Stmt.variablesIn pool.statements) pool) :
    Distinct (names ++ Stmt.variablesIn pool'.statements) pool' := by
  induction hstep with
  | learn hstatements hclaimed =>
      rw [hstatements]
      refine ⟨h.nodup, fun x hx => ?_⟩
      simp only [asked, hclaimed]
      exact h.used x hx
  | declare pool value =>
      have hopen : EndsOpen ("_c" : Text) := by
        intro b hb
        cases hb
        rfl
      obtain ⟨hnodup, hused⟩ := h.uniqueName hopen true
      have hvariables : names ++ Stmt.variablesIn (pool.declare value).2.statements =
          names ++ Stmt.variablesIn pool.statements ++ [(pool.uniqueName "_c" true).1] := by
        change names ++ Stmt.variablesIn (pool.statements ++ [.const (pool.uniqueName "_c" true).1 value]) = _
        rw [Stmt.variablesIn, List.filterMap_append, List.append_assoc]
        rfl
      have hnext : Distinct ((pool.uniqueName "_c" true).1 :: (names ++ Stmt.variablesIn pool.statements))
          (pool.declare value).2 := ⟨hnodup, hused⟩
      rw [hvariables]
      exact hnext.perm (List.perm_append_singleton _ _).symm
  | trans _ _ ih ih' => exact ih' (ih h)

theorem perform (h : Distinct (names ++ Stmt.variablesIn pool.statements) pool) {r : Request}
    (hr : ∀ stem suffix, r = .name stem suffix → EndsOpen stem) :
    Distinct (names ++ (name? (pool.perform r).1).toList ++ Stmt.variablesIn (pool.perform r).2.statements)
      (pool.perform r).2 := by
  unfold Pool.perform
  cases hrun : pool.answer r with
  | error d => simpa [name?] using h
  | ok result =>
      obtain ⟨a, pool'⟩ := result
      rcases answer_cases hrun with ⟨stem, suffix, hname, rfl, rfl⟩ | ⟨hdeclaring, hnone⟩
      · have hcons := h.uniqueName (hr stem suffix hname) suffix
        simp only [name?, Option.toList_some, List.append_assoc, uniqueName_statements]
        exact hcons.perm List.perm_middle.symm
      · simp only [hnone, Option.toList_none, List.append_nil]
        exact h.declaring hdeclaring

theorem serve {rs : List Request} : ∀ {names : List Text} {pool : Pool},
    Distinct (names ++ Stmt.variablesIn pool.statements) pool →
    (∀ stem suffix, .name stem suffix ∈ rs → EndsOpen stem) →
    Distinct (names ++ (pool.serve rs).1.filterMap name? ++ Stmt.variablesIn (pool.serve rs).2.statements)
      (pool.serve rs).2 := by
  induction rs with
  | nil =>
      intro names pool h _
      simpa [Pool.serve] using h
  | cons r rs ih =>
      intro names pool h hrs
      have hstep := h.perform (r := r) fun stem suffix hr => hrs stem suffix (hr ▸ List.mem_cons_self)
      have hrest := ih hstep fun stem suffix hmem => hrs stem suffix (List.mem_cons_of_mem r hmem)
      have hanswers : (name? (pool.perform r).1).toList ++ ((pool.perform r).2.serve rs).1.filterMap name? =
          (pool.serve (r :: rs)).1.filterMap name? := by
        rw [Pool.serve, List.filterMap_cons]
        cases name? (pool.perform r).1 <;> rfl
      rw [List.append_assoc names, hanswers] at hrest
      exact hrest

end Distinct

/-- The names that were asked for, and those of the constants and factories that were declared, are all
different. -/
theorem names_distinct (rs : List Request) (hrs : ∀ stem suffix, .name stem suffix ∈ rs → EndsOpen stem) :
    ((serve {} rs).1.filterMap name? ++ Stmt.variablesIn (serve {} rs).2.statements).Nodup :=
  (@Distinct.serve rs [] {} .empty hrs).nodup

namespace Sample

/-- A stem that the constants have too, and one without any bytes. -/
def takenStem : List Request :=
  [.name "_c" false, .literal (.ofList [.ofNat 1]) true, .name "" false, .name "_c" false,
    .factory (.ofList [.ofVar "x", .ofNat 1]), .name "" false, .factory (.ofVar "x"), .name "Tpl" true]

theorem names_distinct_takenStem :
    (∀ stem suffix, .name stem suffix ∈ takenStem → EndsOpen stem) ∧
      (serve {} takenStem).1.filterMap name? = ["_c", "", "_c2", "1", "Tpl0"] ∧
      Stmt.variablesIn (serve {} takenStem).2.statements = (["_c1", "_c3"] : List Text) ∧
      (["_c", "", "_c2", "1", "Tpl0", "_c1", "_c3"] : List Text).Nodup := by
  have hopen : ∀ stem suffix, .name stem suffix ∈ takenStem → EndsOpen stem := by
    intro stem suffix hmem
    simp only [takenStem, List.mem_cons, reduceCtorEq, Request.name.injEq, List.not_mem_nil, or_false,
      false_or] at hmem
    intro b hb
    rcases hmem with ⟨rfl, -⟩ | ⟨rfl, -⟩ | ⟨rfl, -⟩ | ⟨rfl, -⟩ | ⟨rfl, -⟩ <;> cases hb <;> rfl
  exact ⟨hopen, rfl, rfl, names_distinct takenStem hopen⟩

/-- A stem with a digit at its end can be taken for another stem with a number. -/
example : (serve {} [.name "t" false, .name "t" false, .name "t1" false]).1.filterMap name? =
    ["t", "t1", "t1"] := rfl

end Sample

end TemplateCompiler.Pool
