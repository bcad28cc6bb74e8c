import Mathlib.Data.List.Nodup
import TemplateCompiler.Pool.Basic
import TemplateCompiler.Proofs.Code.Scoped
import TemplateCompiler.Proofs.Run
import TemplateCompiler.Proofs.Text.Numeral

/-!
# The constants of a pool are declared in order

`Pool.Sound` says that every constant of a pool is declared after those it reads, and that the pool gives
out no others. Pools only grow (`Pool.le`), so what was true of a term stays true.

* `Pool.Value` : what pools declare, which is data and functions that make data of their parameters;
* `Pool.Constant` : a constant term that reads declared constants only;
* `Pool.Sound.literal` : a literal that is shared is such a term;
* `Pool.Sound.factory` : a factory is a declared constant, and it is called with the entries that are
  not constant.
-/

namespace TemplateCompiler

open Text (ofNat)

/-! ### Data -/

mutual

/-- Whether a term is made of literals, constants, variables and symbols of modules alone. -/
def Term.IsData : Term → Prop
  | .var .. | .lit .. | .external .. | .pooled .. => True
  | .array _ ts => Term.IsDataAll ts
  | .map _ es => Term.IsDataEntries es
  | _ => False

def Term.IsDataAll : List Term → Prop
  | [] => True
  | t :: ts => t.IsData ∧ Term.IsDataAll ts

def Term.IsDataEntries : List (MapKey × Term) → Prop
  | [] => True
  | (_, t) :: es => t.IsData ∧ Term.IsDataEntries es

end

namespace Term

theorem isDataAll_iff {ts : List Term} : IsDataAll ts ↔ ∀ t ∈ ts, t.IsData := by
  induction ts with
  | nil => simp [IsDataAll]
  | cons t ts ih => simp [IsDataAll, ih]

theorem isDataEntries_iff {es : List (MapKey × Term)} : IsDataEntries es ↔ ∀ e ∈ es, e.2.IsData := by
  induction es with
  | nil => simp [IsDataEntries]
  | cons e es ih => simp [IsDataEntries, ih]

mutual

theorem isData_of_isConstant : ∀ t : Term, t.isConstant = true → t.IsData
  | .lit .., _ | .pooled .., _ => trivial
  | .array _ ts, h => isDataAll_of_allConstant ts h
  | .map _ es, h => isDataEntries_of_allConstant es h
  | .var .., h | .prop .., h | .key .., h | .call .., h | .binary .., h | .not .., h | .present .., h
  | .cast .., h | .cond .., h | .external .., h | .function .., h => nomatch h

theorem isDataAll_of_allConstant : ∀ ts : List Term, allConstant ts = true → IsDataAll ts
  | [], _ => trivial
  | t :: ts, h =>
    have h := Bool.and_eq_true_iff.mp h
    ⟨isData_of_isConstant t h.1, isDataAll_of_allConstant ts h.2⟩

theorem isDataEntries_of_allConstant : ∀ es : List (MapKey × Term), allConstantEntries es = true →
    IsDataEntries es
  | [], _ => trivial
  | (_, t) :: es, h =>
    have h := Bool.and_eq_true_iff.mp h
    ⟨isData_of_isConstant t h.1, isDataEntries_of_allConstant es h.2⟩

end

end Term

namespace Pool

def parameter (n : Nat) : Text := "a" ++ ofNat n

theorem parameter_inj {n m : Nat} (h : parameter n = parameter m) : n = m :=
  Text.ofNat_inj (List.append_cancel_left h)

/-- What pools declare: data, and functions that make data of their parameters. -/
inductive Value : Term → Prop
  | data {t : Term} : t.IsData → Value t
  | factory {params : List Text} {result : Term} :
      (∀ p ∈ params, ∃ n, p = parameter n) → result.IsData →
      Value (.function {} params [.ret none result] [])

/-! ### Pools that grow -/

/-- No argument is exempt from being scoped. -/
def NoneGiven (_ _ : Term) : Prop := False

def Declares (pool : Pool) (x : Text) : Prop := x ∈ Stmt.variablesIn pool.statements

/-- A pool that has all the constants of another. -/
structure le (pool pool' : Pool) : Prop where
  names : pool.names.le pool'.names
  declares : ∀ x, pool.Declares x → pool'.Declares x
  added : ∃ ss, pool'.statements = pool.statements ++ ss ∧ ∀ s ∈ ss, ∃ n t, s = .const n t ∧ Value t

theorem le.of_statements {pool pool' : Pool} (hnames : pool.names.le pool'.names)
    (hstatements : pool'.statements = pool.statements) : pool.le pool' := by
  refine ⟨hnames, fun x hx => ?_, [], by rw [hstatements, List.append_nil], List.forall_mem_nil _⟩
  unfold Declares
  rwa [hstatements]

theorem le.refl (pool : Pool) : pool.le pool := .of_statements (Names.le_refl _) rfl

theorem le.trans {a b c : Pool} (h : a.le b) (h' : b.le c) : a.le c := by
  obtain ⟨ss, hss, hvalues⟩ := h.added
  obtain ⟨ss', hss', hvalues'⟩ := h'.added
  refine ⟨Names.le_trans h.names h'.names, fun x hx => h'.declares x (h.declares x hx), ss ++ ss', ?_, ?_⟩
  · rw [hss', hss, List.append_assoc]
  · exact List.forall_mem_append.mpr ⟨hvalues, hvalues'⟩

/-- A term that reads declared constants only. -/
def Closed (pool : Pool) (t : Term) : Prop :=
  t.Scoped pool.names NoneGiven pool.Declares pool.Declares

/-- A constant term that reads declared constants only. -/
structure Constant (pool : Pool) (t : Term) : Prop where
  isConstant : t.isConstant = true
  closed : pool.Closed t

/-- Every constant is declared after those it reads, and no others are given out. -/
structure Sound (pool : Pool) : Prop where
  statements : Stmt.WellScoped pool.names NoneGiven (fun _ => False) pool.statements
  names : ∀ key n, pool.names key = some n → pool.Declares n
  factories : ∀ key n, pool.factories.lookup key = some n → pool.Declares n

theorem Sound.empty : Sound {} := ⟨trivial, (by rintro _ _ ⟨⟩), (by rintro _ _ ⟨⟩)⟩

variable {pool pool' : Pool} {key name : Text} {t t' : Term}

theorem Closed.mono (h : pool.le pool') (ht : pool.Closed t) : pool'.Closed t :=
  Term.Scoped.mono h.names (fun _ _ => id) h.declares h.declares ht

theorem Constant.mono (h : pool.le pool') (ht : pool.Constant t) : pool'.Constant t :=
  ⟨ht.isConstant, ht.closed.mono h⟩

/-! ### Keeping and sharing -/

theorem names_keep (pool : Pool) (key : Text) (t : Term) : (pool.keep key t).names = pool.names := by
  funext k
  simp only [names, keep, List.lookup_append]
  cases hk : pool.literals.lookup k with
  | some e => rfl
  | none =>
      simp only [Option.none_or, List.lookup_cons, List.lookup_nil]
      split <;> rfl

theorem lookup_keep (h : pool.literals.lookup key = none) :
    (pool.keep key t).literals.lookup key = some (t, none) := by
  simp [keep, List.lookup_append, h]

theorem lookup_share (k : Text) :
    (pool.share key name).literals.lookup k =
      (pool.literals.lookup k).map fun (t, n) => (t, if k == key then some name else n) := by
  simp only [share]
  induction pool.literals with
  | nil => rfl
  | cons e es ih =>
      rw [List.map_cons, List.lookup_cons, List.lookup_cons, ih]
      cases hk : k == e.1 with
      | false => rfl
      | true => simp only [Option.map_some, eq_of_beq hk]

theorem names_share_self {kept : Term} {n : Option Text}
    (h : pool.literals.lookup key = some (kept, n)) : (pool.share key name).names key = some name := by
  simp [names, lookup_share, h]

theorem names_share_of_ne {k : Text} (h : k ≠ key) : (pool.share key name).names k = pool.names k := by
  simp only [names, lookup_share, beq_false_of_ne h]
  cases pool.literals.lookup k <;> rfl

/-- The constant of a literal that had none is a further name. -/
theorem names_le_share (pool : Pool) (hnone : pool.names key = none) (name : Text) :
    pool.names.le (pool.share key name).names := by
  intro k n hn
  have hk : k ≠ key := by
    rintro rfl
    rw [hnone] at hn
    cases hn
  rw [names_share_of_ne hk, hn]

/-- A literal that had no constant gets one that is declared. -/
theorem Sound.share (h : pool.Sound) (hnone : pool.names key = none) (hname : pool.Declares name) :
    (pool.share key name).Sound ∧ pool.le (pool.share key name) := by
  have hle : pool.le (pool.share key name) := .of_statements (names_le_share pool hnone name) rfl
  refine ⟨⟨h.statements.mono hle.names (fun _ _ => id) fun _ => id, fun k n hn => ?_, h.factories⟩, hle⟩
  by_cases hk : k = key
  · subst hk
    have hn : n = name := by
      simp only [Pool.names, lookup_share] at hn
      cases hl : pool.literals.lookup k with
      | none => simp [hl] at hn
      | some e => simpa [hl, eq_comm] using hn
    exact hn ▸ hname
  · rw [names_share_of_ne hk] at hn
    exact h.names k n hn

theorem Sound.keep (h : pool.Sound) (key : Text) (t : Term) :
    (pool.keep key t).Sound ∧ pool.le (pool.keep key t) := by
  have hnames := names_keep pool key t
  refine ⟨⟨?_, fun k n hn => h.names k n (by rwa [hnames] at hn), h.factories⟩, .of_statements ?_ rfl⟩
  · rw [hnames]
    exact h.statements
  · rw [hnames]
    exact Names.le_refl _

/-! ### Declaring -/

theorem declares_declare (value : Term) (x : Text) :
    (pool.declare value).2.Declares x ↔ pool.Declares x ∨ x = (pool.declare value).1 := by
  change x ∈ Stmt.variablesIn (pool.statements ++ [.const (pool.declare value).1 value]) ↔ _
  rw [Stmt.mem_variablesIn_append, Stmt.mem_variablesIn_cons]
  simp [Declares, Stmt.variablesIn, Stmt.variable?, Stmt.const, eq_comm]

theorem isConstantName_declare (value : Term) : IsConstantName (pool.declare value).1 := by
  refine ⟨(pool.claimed.lookup ("_c" : Text)).getD 0, if_neg ?_⟩
  rw [Bool.not_true, Bool.and_false]
  exact Bool.false_ne_true

/-- A constant whose value reads constants declared before. -/
theorem Sound.declare (h : pool.Sound) {value : Term} (hvalue : pool.Closed value) (hmade : Value value) :
    (pool.declare value).2.Sound ∧ pool.le (pool.declare value).2 ∧
      (pool.declare value).2.Declares (pool.declare value).1 := by
  have hle : pool.le (pool.declare value).2 :=
    ⟨Names.le_refl _, fun x hx => (declares_declare value x).mpr (.inl hx), _, rfl,
      List.forall_mem_singleton.mpr ⟨_, value, rfl, hmade⟩⟩
  refine ⟨⟨?_, fun k n hn => hle.declares n (h.names k n hn),
    fun k n hn => hle.declares n (h.factories k n hn)⟩, hle,
    (declares_declare value _).mpr (.inr rfl)⟩
  refine Stmt.wellScoped_append.mpr ⟨h.statements, ?_, ?_, trivial⟩
  · intro x hx
    cases hx
    exact isConstantName_declare value
  · exact Term.Scoped.mono (Names.le_refl _) (fun _ _ => id) (fun _ => Or.inl) (fun _ => Or.inl) hvalue

/-- A literal that is shared reads a declared constant, or is written out. -/
theorem Sound.literal (h : pool.Sound) (ht : pool.Constant t)
    (hrun : pool.literal t true = .ok (t', pool')) :
    pool'.Sound ∧ pool.le pool' ∧ pool'.Constant t' := by
  unfold Pool.literal at hrun
  split at hrun
  · cases hrun
    exact ⟨h, le.refl pool, ht⟩
  · obtain ⟨key, -, hrun⟩ := except_bind_ok.mp hrun
    split at hrun
    · next kept n hlookup =>
        cases hrun
        have hn : pool.names key = some n := by rw [Pool.names, hlookup]; rfl
        exact ⟨h, le.refl pool, rfl, n, hn, h.names key n hn⟩
    · next kept hlookup =>
        cases hrun
        obtain ⟨hd, hle, hname⟩ := h.declare ht.closed (.data (Term.isData_of_isConstant t ht.isConstant))
        have hnone : pool.names key = none := by rw [Pool.names, hlookup]; rfl
        obtain ⟨hs, hle'⟩ := hd.share hnone hname
        exact ⟨hs, hle.trans hle', rfl, _, names_share_self hlookup, hname⟩
    · next hlookup =>
        cases hrun
        obtain ⟨hk, hlek⟩ := h.keep key t
        obtain ⟨hd, hle, hname⟩ :=
          hk.declare (ht.closed.mono hlek) (.data (Term.isData_of_isConstant t ht.isConstant))
        have hnone : (pool.keep key t).names key = none := by
          rw [names_keep, Pool.names, hlookup]
          rfl
        obtain ⟨hs, hle'⟩ := hd.share hnone hname
        exact ⟨hs, hlek.trans (hle.trans hle'), rfl, _, names_share_self (lookup_keep hlookup), hname⟩

/-! ### Factories -/

/-- The entries of a factory read its parameters and constants declared before it. -/
theorem Sound.factoryEntries {ts : List Term} : ∀ {count : Nat} {pool pool' : Pool} {entries params},
    pool.Sound → (∀ t ∈ ts, t.isConstant = true → pool.Constant t) →
    Pool.factoryEntries count ts pool = .ok (entries, params, pool') →
    pool'.Sound ∧ pool.le pool' ∧ (∃ n, params = (List.range' count n).map parameter) ∧
      ∀ t ∈ entries, t.IsData ∧ t.Scoped pool'.names NoneGiven (fun x => x ∈ params ∨ pool'.Declares x)
        (fun x => x ∈ params ∨ pool'.Declares x) := by
  induction ts with
  | nil =>
      intro count pool pool' entries params h _ hrun
      cases hrun
      exact ⟨h, le.refl pool, ⟨0, rfl⟩, List.forall_mem_nil _⟩
  | cons t ts ih =>
      intro count pool pool' entries params h hts hrun
      obtain ⟨ht, hts⟩ := List.forall_mem_cons.mp hts
      rw [Pool.factoryEntries] at hrun
      split at hrun
      · next hconstant =>
          obtain ⟨⟨shared, pool₁⟩, hshared, hrun⟩ := except_bind_ok.mp hrun
          obtain ⟨⟨rest, params₁, pool₂⟩, hrest, hrun⟩ := except_bind_ok.mp hrun
          cases hrun
          obtain ⟨h₁, hle, hconst⟩ := h.literal (ht hconstant) hshared
          obtain ⟨h₂, hle', hparams, hentries⟩ :=
            ih h₁ (fun u hu hc => (hts u hu hc).mono hle) hrest
          refine ⟨h₂, hle.trans hle', hparams, List.forall_mem_cons.mpr
            ⟨⟨Term.isData_of_isConstant _ hconst.isConstant, ?_⟩, hentries⟩⟩
          exact Term.Scoped.mono hle'.names (fun _ _ => id) (fun x hx => .inr (hle'.declares x hx))
            (fun x hx => .inr (hle'.declares x hx)) hconst.closed
      · obtain ⟨⟨rest, params₁, pool₁⟩, hrest, hrun⟩ := except_bind_ok.mp hrun
        cases hrun
        obtain ⟨h₁, hle, ⟨n, hparams⟩, hentries⟩ := ih h hts hrest
        refine ⟨h₁, hle, ⟨n + 1, ?_⟩, List.forall_mem_cons.mpr
          ⟨⟨trivial, .inl List.mem_cons_self⟩, fun u hu => ⟨(hentries u hu).1, ?_⟩⟩⟩
        · rw [List.range'_succ, List.map_cons, hparams]
          rfl
        · exact (hentries u hu).2.mono (Names.le_refl _) (fun _ _ => id)
            (fun x => Or.imp_left (List.mem_cons_of_mem _))
            (fun x => Or.imp_left (List.mem_cons_of_mem _))

def entriesOf : Term → List Term
  | .array _ entries => entries
  | .map _ entries => entries.map (·.2)
  | _ => []

/-- A factory is called with the entries that are not constant. -/
theorem args_of_factory {args : List Term} {factory : Term}
    (hrun : pool.factory t = .ok ((factory, args), pool')) :
    args = (entriesOf t).filter (fun t => !t.isConstant) ∧ ∃ name, factory = .ofVar name := by
  have hfor : ∀ {key values} {build : List Term → Term},
      pool.factoryFor key values build = .ok ((factory, args), pool') →
        args = values.filter (fun t => !t.isConstant) ∧ ∃ name, factory = .ofVar name := by
    intro key values build hrun
    unfold Pool.factoryFor at hrun
    dsimp only at hrun
    split at hrun
    · cases hrun
      exact ⟨rfl, _, rfl⟩
    · obtain ⟨⟨entries, params, pool₁⟩, -, hrun⟩ := except_bind_ok.mp hrun
      cases hrun
      exact ⟨rfl, _, rfl⟩
  unfold Pool.factory at hrun
  split at hrun
  · obtain ⟨key, -, hrun⟩ := except_bind_ok.mp hrun
    exact hfor hrun
  · obtain ⟨key, -, hrun⟩ := except_bind_ok.mp hrun
    exact hfor hrun
  · cases hrun

theorem isConstant_of_literal {force : Bool} (ht : t.isConstant = true)
    (hrun : pool.literal t force = .ok (t', pool')) : t'.isConstant = true := by
  unfold Pool.literal at hrun
  split at hrun
  · cases hrun
    exact ht
  · obtain ⟨key, -, hrun⟩ := except_bind_ok.mp hrun
    split at hrun
    · cases hrun
      rfl
    · cases hrun
      rfl
    · split at hrun
      · cases hrun
        rfl
      · cases hrun
        rfl

theorem Sound.factoryFor {values args : List Term} {build : List Term → Term} {factory : Term}
    (h : pool.Sound) (hvalues : ∀ v ∈ values, v.isConstant = true → pool.Constant v)
    (hbuild : ∀ {names now later} {entries : List Term},
      (∀ t ∈ entries, t.Scoped names NoneGiven now later) →
        (build entries).Scoped names NoneGiven now later)
    (hdata : ∀ {entries : List Term}, (∀ t ∈ entries, t.IsData) → (build entries).IsData)
    (hrun : pool.factoryFor key values build = .ok ((factory, args), pool')) :
    pool'.Sound ∧ pool.le pool' ∧ args = values.filter (fun t => !t.isConstant) ∧
      ∃ name, factory = .ofVar name ∧ pool'.Declares name := by
  unfold Pool.factoryFor at hrun
  dsimp only at hrun
  split at hrun
  · next name hlookup =>
      cases hrun
      exact ⟨h, le.refl pool, rfl, name, rfl, h.factories key name hlookup⟩
  · obtain ⟨⟨entries, params, pool₁⟩, hentries, hrun⟩ := except_bind_ok.mp hrun
    cases hrun
    obtain ⟨h₁, hle, ⟨n, hparams⟩, hmade⟩ := h.factoryEntries hvalues hentries
    let value : Term := .function {} params [.ret none (build entries)] []
    have hclosed : pool₁.Closed value := by
      refine ⟨?_, (hbuild fun t ht => (hmade t ht).2).mono (Names.le_refl _) (fun _ _ => id) ?_ ?_, trivial⟩
      · rw [Stmt.declaredAll, Stmt.declared, Stmt.declaredAll, List.append_nil, List.append_nil, hparams]
        exact List.Nodup.map (fun _ _ => parameter_inj) List.nodup_range'
      · exact fun x hx => .inr hx
      · exact fun x hx => .inr (.inr hx)
    have hvalue : Value value := by
      refine .factory (fun p hp => ?_) (hdata fun t ht => (hmade t ht).1)
      rw [hparams] at hp
      obtain ⟨m, -, rfl⟩ := List.mem_map.mp hp
      exact ⟨m, rfl⟩
    obtain ⟨h₂, hle', hname⟩ := h₁.declare hclosed hvalue
    refine ⟨⟨h₂.statements, h₂.names, fun k n hn => ?_⟩, ?_, rfl, _, rfl, hname⟩
    · rw [List.lookup_append, Option.or_eq_some_iff] at hn
      rcases hn with hn | ⟨-, hn⟩
      · exact h₂.factories k n hn
      · rw [List.lookup_cons] at hn
        split at hn
        · cases hn
          exact hname
        · cases hn
    · exact (hle.trans hle').trans (.of_statements (Names.le_refl _) rfl)

/-- A factory is a declared constant, which is called with the entries that are not constant. -/
theorem Sound.factory {args : List Term} {factory : Term} (h : pool.Sound)
    (hvalues : ∀ v ∈ entriesOf t, v.isConstant = true → pool.Constant v)
    (hrun : pool.factory t = .ok ((factory, args), pool')) :
    pool'.Sound ∧ pool.le pool' ∧ args = (entriesOf t).filter (fun t => !t.isConstant) ∧
      ∃ name, factory = .ofVar name ∧ pool'.Declares name := by
  unfold Pool.factory at hrun
  split at hrun
  · obtain ⟨key, -, hrun⟩ := except_bind_ok.mp hrun
    exact h.factoryFor hvalues (fun hentries => Term.scoped_ofList.mpr hentries)
      (fun hentries => Term.isDataAll_iff.mpr hentries) hrun
  · obtain ⟨key, -, hrun⟩ := except_bind_ok.mp hrun
    exact h.factoryFor hvalues (fun hentries => Term.scoped_ofEntries_zip hentries)
      (fun hentries => Term.isDataEntries_iff.mpr fun e he => hentries e.2 (List.of_mem_zip he).2) hrun
  · cases hrun

end Pool

end TemplateCompiler
