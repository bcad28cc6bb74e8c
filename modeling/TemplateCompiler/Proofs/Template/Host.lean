import TemplateCompiler.Proofs.Expr.Children
import TemplateCompiler.Proofs.Lowering.Closure
import TemplateCompiler.Proofs.Pool.Constants
import TemplateCompiler.Proofs.Template.Lexicon
import TemplateCompiler.Proofs.Template.Steps

/-!
# What surrounds a binding

The host of a binding answers from the scopes and the pool of the compilation, which change with every
answer. What it says can be told from the lexicon alone, and stays true to the end:

* `L.Finds t` : a name is found to be the variable of the lexicon, and the tree `t` has declared it;
* `BuiltinCode pool` : the code of a builtin, with constants that `pool` has declared;
* `valueAnswers`, `handlerAnswers` : the answers to bindings and to event handlers;
* `valueContract`, `handlerContract` : the hosts keep to these answers.
-/

namespace TemplateCompiler

/-! ### The code of builtins -/

def pureCode (slot : Nat) (factory : Term) (args : List Term) : Term :=
  (Instruction.pureFunction args.length).call
    (.ofNat slot :: factory :: Instruction.spread Instruction.maxPureFunction args)

def pipeCode (slot offset : Nat) (args : List Term) : Term :=
  (Instruction.pipeBind args.length).call
    (.ofNat slot :: .ofNat offset :: Instruction.spread Instruction.maxPipeBind args)

namespace Builtin

def isCollection : Builtin → Bool
  | array | map _ => true
  | pipe .. | call _ => false

/-- The arguments that a builtin has use for: a map has as many values as keys. -/
def used : Builtin → List Term → List Term
  | map keys, args => args.take keys.length
  | _, args => args

theorem used_subset (kind : Builtin) (args : List Term) : kind.used args ⊆ args := by
  cases kind with
  | map keys => exact List.take_subset _ _
  | _ => exact List.Subset.refl _

theorem map_snd_zip_eq_take {α β : Type} (as : List α) (bs : List β) :
    (as.zip bs).map (·.2) = bs.take as.length := by
  induction as generalizing bs with
  | nil => rfl
  | cons a as ih =>
      cases bs with
      | nil => rfl
      | cons b bs => rw [List.zip_cons_cons, List.map_cons, ih, List.length_cons, List.take_succ_cons]

theorem entriesOf_written {kind : Builtin} (h : kind.isCollection = true) (args : List Term) :
    Pool.entriesOf (kind.written args) = kind.used args := by
  cases kind with
  | array => rfl
  | map keys => exact map_snd_zip_eq_take keys args
  | _ => cases h

end Builtin

/-- A run of a builtin: a literal that is shared, a call of a pure function in new slots, or a call. -/
inductive BuiltinRun (s : Assembly) : Builtin → List Term → Term → Assembly → Prop
  | shared {kind : Builtin} {args : List Term} {t : Term} {pool : Pool} :
      kind.isCollection = true → Term.allConstant args = true →
      s.pool.literal (kind.written args) true = .ok (t, pool) →
      BuiltinRun s kind args t { s with pool }
  | pure {kind : Builtin} {args dynamic : List Term} {factory : Term} {pool : Pool} :
      kind.isCollection = true → Term.allConstant args = false →
      s.pool.factory (kind.written args) = .ok ((factory, dynamic), pool) →
      BuiltinRun s kind args (pureCode s.unit.pureSlots factory dynamic)
        { s with pool, unit := { s.unit with pureSlots := s.unit.pureSlots + (1 + dynamic.length) } }
  | pipe {slot offset : Nat} {args : List Term} :
      BuiltinRun s (.pipe slot offset) args (pipeCode slot offset args) s
  | call {f : Text} {args : List Term} : BuiltinRun s (.call f) args (.apply (.ofVar f) args) s

theorem collection_cases {kind : Builtin} (hkind : kind.isCollection = true) {args : List Term}
    {t : Term} {s s' : Assembly}
    (h : outcome (Compile.collection (kind.written args) args) s = (.ok t, s')) :
    BuiltinRun s kind args t s' := by
  unfold Compile.collection at h
  cases hconstant : Term.allConstant args with
  | true =>
      rw [hconstant, if_pos rfl] at h
      obtain ⟨pool, hrun, rfl⟩ := Compile.outcome_onPool_ok.mp h
      exact .shared hkind hconstant (outcome_shared_ok.mp hrun)
  | false =>
      rw [hconstant, if_neg Bool.false_ne_true] at h
      obtain ⟨⟨factory, dynamic⟩, s₁, hfactory, h⟩ := outcome_bind_ok.mp h
      obtain ⟨pool, hrun, rfl⟩ := Compile.outcome_onPool_ok.mp hfactory
      rw [outcome_bind, outcome_get] at hrun
      dsimp only at hrun
      cases hpool : s.pool.factory (kind.written args) with
      | error d =>
          rw [hpool] at hrun
          cases hrun
      | ok r =>
          obtain ⟨r, pool'⟩ := r
          rw [hpool] at hrun
          cases hrun
          cases h
          exact .pure hkind hconstant hpool

theorem builtinRun_of_outcome {kind : Builtin} {args : List Term} {t : Term} {s s' : Assembly}
    (h : outcome (Compile.builtinCode kind args) s = (.ok t, s')) : BuiltinRun s kind args t s' := by
  unfold Compile.builtinCode at h
  split at h
  · cases h
  cases kind with
  | array => exact collection_cases rfl h
  | map keys => exact collection_cases rfl h
  | pipe slot offset =>
      cases h
      exact .pipe
  | call f =>
      cases h
      exact .call

/-- The code of a builtin, whose constants a pool has declared. -/
inductive BuiltinCode (pool : Pool) : Builtin → List Term → Term → Prop
  | constant {kind : Builtin} {args : List Term} {t : Term} :
      kind.isCollection = true → Term.allConstant args = true → pool.Constant t →
      BuiltinCode pool kind args t
  | pure {kind : Builtin} {args : List Term} {slot : Nat} {factory : Text} :
      kind.isCollection = true → pool.Declares factory →
      BuiltinCode pool kind args
        (pureCode slot (.ofVar factory) ((kind.used args).filter fun t => !t.isConstant))
  | pipe {slot offset : Nat} {args : List Term} :
      BuiltinCode pool (.pipe slot offset) args (pipeCode slot offset args)
  | call {f : Text} {args : List Term} : BuiltinCode pool (.call f) args (.apply (.ofVar f) args)

theorem BuiltinCode.mono {pool pool' : Pool} (h : pool.le pool') {kind : Builtin} {args : List Term}
    {t : Term} (ht : BuiltinCode pool kind args t) : BuiltinCode pool' kind args t := by
  cases ht with
  | constant hkind hargs ht => exact .constant hkind hargs (ht.mono h)
  | pure hkind hfactory => exact .pure hkind (h.declares _ hfactory)
  | pipe => exact .pipe
  | call => exact .call

theorem allConstant_iff {ts : List Term} :
    Term.allConstant ts = true ↔ ∀ t ∈ ts, t.isConstant = true := by
  induction ts with
  | nil => simp [Term.allConstant]
  | cons t ts ih => simp [Term.allConstant, ih]

theorem allConstantEntries_iff {es : List (MapKey × Term)} :
    Term.allConstantEntries es = true ↔ ∀ e ∈ es, e.2.isConstant = true := by
  induction es with
  | nil => simp [Term.allConstantEntries]
  | cons e es ih => simp [Term.allConstantEntries, ih]

theorem Pool.Constant.written {pool : Pool} {kind : Builtin} (hkind : kind.isCollection = true)
    {args : List Term} (hargs : ∀ t ∈ args, pool.Constant t) : pool.Constant (kind.written args) := by
  cases kind with
  | array =>
      refine ⟨?_, Term.scoped_ofList.mpr fun t ht => (hargs t ht).closed⟩
      exact allConstant_iff.mpr fun t ht => (hargs t ht).isConstant
  | map keys =>
      refine ⟨?_, Term.scoped_ofEntries_zip fun t ht => (hargs t ht).closed⟩
      refine allConstantEntries_iff.mpr fun e he => ?_
      exact (hargs _ (List.of_mem_zip he).2).isConstant
  | _ => cases hkind

theorem Pool.Constant.ofList {pool : Pool} {ts : List Term} (h : ∀ t ∈ ts, pool.Constant t) :
    pool.Constant (.ofList ts) :=
  Pool.Constant.written (rfl : Builtin.array.isCollection = true) h

/-- A builtin keeps the pool sound, and its code has no constants but those of the pool. -/
theorem BuiltinRun.code {s s' : Assembly} {kind : Builtin} {args : List Term} {t : Term}
    (h : BuiltinRun s kind args t s') (hs : s.pool.Sound)
    (hargs : ∀ a ∈ args, a.isConstant = true → s.pool.Constant a) :
    s'.pool.Sound ∧ s.pool.le s'.pool ∧ BuiltinCode s'.pool kind args t ∧ s'.scopes = s.scopes ∧
      s'.unit = { s.unit with pureSlots := s'.unit.pureSlots } := by
  cases h with
  | shared hkind hconstant hrun =>
      have hall := allConstant_iff.mp hconstant
      obtain ⟨hs', hle, ht⟩ :=
        hs.literal (Pool.Constant.written hkind fun a ha => hargs a ha (hall a ha)) hrun
      exact ⟨hs', hle, .constant hkind hconstant ht, rfl, rfl⟩
  | pure hkind _ hrun =>
      have hentries := Builtin.entriesOf_written hkind args
      obtain ⟨hs', hle, hdynamic, name, rfl, hname⟩ := hs.factory (by
        rw [hentries]
        exact fun v hv => hargs v (Builtin.used_subset kind args hv)) hrun
      rw [hentries] at hdynamic
      rw [hdynamic]
      exact ⟨hs', hle, .pure hkind hname, rfl, rfl⟩
  | pipe => exact ⟨hs, .refl _, .pipe, rfl, rfl⟩
  | call => exact ⟨hs, .refl _, .call, rfl, rfl⟩

/-! ### Answers -/

/-- What a name is found to be, given what a tree has declared. -/
def Lexicon.Finds (L : Lexicon) (t : ScopeTree) (name : Text) (found : Option Found) : Prop :=
  found = (L.env.find? name).map (fun b => .term (.ofVar b.var)) ∧
    ∀ b v, L.env.find? name = some b → b.value = some v → t.DeclaredIn L.ids b.var v

theorem Lexicon.Finds.mono {L : Lexicon} {t t' : ScopeTree} (h : ScopeTree.Extends L.ids t t')
    {name : Text} {found : Option Found} (hf : L.Finds t name found) : L.Finds t' name found :=
  ⟨hf.1, fun b v hb hv => h.declaredIn (hf.2 b v hb hv)⟩

/-- The answers to a binding, as they are known in a state. -/
def valueAnswers (L : Lexicon) (interpolate : List Term → Except Failure Term) (f : Assembly) :
    Answers where
  context := .ofVar contextName
  lookup := L.Finds f.scopes
  builtin := BuiltinCode f.pool
  interpolate args t := interpolate args = .ok t

/-- The answers to an event handler, as they are known in a state. -/
def handlerAnswers (L : Lexicon) (f : Assembly) : Answers where
  context := .ofVar contextName
  lookup := L.Finds f.scopes
  builtin kind args t := t = kind.written args
  interpolate args t := Compile.noInterpolation args = .ok t

theorem Lexicon.Finds.ne_context {L : Lexicon} {t : ScopeTree} {name : Text} :
    ¬L.Finds t name (some .context) := by
  rintro ⟨h, -⟩
  obtain ⟨b, -, hb⟩ := Option.map_eq_some_iff.mp h.symm
  cases hb

theorem valueAnswers_not_aliased {L : Lexicon} {interpolate : List Term → Except Failure Term}
    {f : Assembly} : ¬(valueAnswers L interpolate f).Aliased := fun ⟨_, h⟩ => h.ne_context

/-- A later state, while the scopes `ids` are open. -/
structure Assembly.Later (ids : List Nat) (s f : Assembly) : Prop where
  scopes : ScopeTree.Extends ids s.scopes f.scopes
  pool : s.pool.le f.pool

theorem Assembly.Later.refl (ids : List Nat) (s : Assembly) : s.Later ids s := ⟨.refl _ _, .refl _⟩

theorem Assembly.Later.trans {ids : List Nat} {s t u : Assembly} (h : s.Later ids t)
    (h' : t.Later ids u) : s.Later ids u :=
  ⟨h.scopes.trans h'.scopes, h.pool.trans h'.pool⟩

theorem valueAnswers_le {L : Lexicon} {interpolate : List Term → Except Failure Term}
    {u f : Assembly} (h : u.Later L.ids f) :
    (valueAnswers L interpolate u).Le (valueAnswers L interpolate f) :=
  ⟨rfl, fun hf => hf.mono h.scopes, fun hb => hb.mono h.pool, id⟩

theorem handlerAnswers_le {L : Lexicon} {u f : Assembly} (h : u.Later L.ids f) :
    (handlerAnswers L u).Le (handlerAnswers L f) :=
  ⟨rfl, fun hf => hf.mono h.scopes, id, id⟩

/-! ### Contracts -/

/-- What is true of the state while a binding is lowered. -/
structure Lexicon.Holds (L : Lexicon) (s : Assembly) : Prop where
  shown : L.Shown s.scopes
  sound : s.pool.Sound

/-- How the state changes while a binding is lowered; `frame` is how the unit does. -/
structure Lexicon.Moves (L : Lexicon) (frame : TemplateUnit → TemplateUnit → Prop) (s u : Assembly) :
    Prop where
  later : s.Later L.ids u
  holds : L.Holds u
  unit : frame s.unit u.unit

/-- The lowering of a binding takes pure slots of its unit. -/
def TemplateUnit.Pays (u u' : TemplateUnit) : Prop := u' = { u with pureSlots := u'.pureSlots }

theorem Lexicon.Holds.lookup {L : Lexicon} {frame : TemplateUnit → TemplateUnit → Prop}
    (hframe : ∀ u, frame u u) {s : Assembly} (h : L.Holds s) (name : Text) :
    L.Moves frame s ((Compile.lookup L.id name).run s).2 ∧
      L.Finds ((Compile.lookup L.id name).run s).2.scopes name
        ((Compile.lookup L.id name).run s).1 := by
  obtain ⟨hfound, hshows, hdeclared, hextends⟩ := h.shown.shows.resolve h.shown.distinct name
  have hfresh : (s.scopes.resolve L.id name).2.fresh = s.scopes.fresh := by
    unfold ScopeTree.resolve
    split
    · rfl
    · dsimp only
      split <;> split <;> rfl
  refine ⟨⟨⟨hextends, .refl _⟩, ⟨⟨hshows, hfresh.trans h.shown.fresh, h.shown.distinct,
    h.shown.numbered, h.shown.nested⟩, h.sound⟩, hframe _⟩, ?_, hdeclared⟩
  change (s.scopes.resolve L.id name).1.map (fun v => Found.term (.ofVar v)) = _
  rw [hfound, Option.map_map]
  rfl

/-- The contract of a host whose builtins keep to the code that is known of them. -/
def Lexicon.contract (L : Lexicon) (builtin : Builtin → List Term → Compile Term)
    (interpolate : List Term → Except Failure Term)
    (code : Pool → Builtin → List Term → Term → Prop) (frame : TemplateUnit → TemplateUnit → Prop)
    (hrefl : ∀ u, frame u u) (htrans : ∀ {u v w}, frame u v → frame v w → frame u w)
    (hmono : ∀ {pool pool' kind args t}, pool.le pool' → code pool kind args t →
      code pool' kind args t)
    (hcode : ∀ {kind args s t s' b d n es}, s.pool.Sound →
      Answers.Codes ((Compile.host L.id builtin interpolate).answers (L.Finds s.scopes) (code s.pool))
        b d n es args →
      outcome (builtin kind args) s = (.ok t, s') →
      s'.pool.Sound ∧ s.pool.le s'.pool ∧ code s'.pool kind args t ∧ s'.scopes = s.scopes ∧
        frame s.unit s'.unit) :
    Contract (Compile.host L.id builtin interpolate) where
  holds := L.Holds
  later := L.Moves frame
  refl h := ⟨.refl _ _, h, hrefl _⟩
  trans h h' := ⟨h.later.trans h'.later, h'.holds, htrans h.unit h'.unit⟩
  holds_later h := h.holds
  lookup u := L.Finds u.scopes
  builtin u := code u.pool
  later_lookup name h := (h.lookup hrefl name).1
  lookup_later name h hu := (h.lookup hrefl name).2.mono hu.later.scopes
  later_builtin {kind args s t s' b d n es} h hargs hrun := by
    obtain ⟨hsound, hle, -, hscopes, hunit⟩ := hcode h.sound hargs hrun
    refine ⟨⟨?_, hle⟩, ⟨?_, hsound⟩, hunit⟩
    · rw [hscopes]
      exact .refl _ _
    · rw [hscopes]
      exact h.shown
  builtin_later h hargs hrun hu := hmono hu.later.pool (hcode h.sound hargs hrun).2.2.1

theorem everyAll_true (es : List Expr) : Expr.EveryAll (fun _ => True) es :=
  Expr.everyAll_iff.mpr fun e _ => (Expr.every_iff_nodes e).mpr fun _ _ => trivial

def IsInterpolation (interpolate : List Term → Except Failure Term) : Prop :=
  ∀ args t, interpolate args = .ok t → t.isConstant = false

/-- The constants in the code of a binding are those of the pool. -/
theorem constant_of_codes {L : Lexicon} {interpolate : List Term → Except Failure Term}
    (hint : IsInterpolation interpolate) {s : Assembly} {b : Text} {d n : Nat} {es : List Expr}
    {ts : List Term} (h : (valueAnswers L interpolate s).Codes b d n es ts) :
    ∀ a ∈ ts, a.isConstant = true → s.pool.Constant a := by
  have hclosed : (valueAnswers L interpolate s).Closed b n (fun _ => True)
      (fun t => t.isConstant = true → s.pool.Constant t) := by
    refine ⟨(fun h => nomatch h), fun _ _ hf => ?_, (fun _ h => nomatch h), fun v _ => ⟨rfl, trivial⟩,
      (fun _ _ h => nomatch h), (fun _ _ h => nomatch h), (fun _ _ _ _ h => nomatch h),
      (fun _ _ _ h => nomatch h), (fun _ h => nomatch h), (fun _ h => nomatch h),
      (fun _ h => nomatch h), (fun _ _ h => nomatch h), (fun _ _ _ h => nomatch h), fun _ ht hc => ?_,
      fun _ _ _ ht hc => ?_⟩
    · obtain ⟨b, -, hb⟩ := Option.map_eq_some_iff.mp hf.1.symm
      rw [← Found.term.inj hb]
      exact fun h => nomatch h
    · rw [hint _ _ ht] at hc
      cases hc
    · cases ht with
      | constant _ _ ht => exact ht
      | pure => cases hc
      | pipe => cases hc
      | call => cases hc
  exact hclosed.codes h (Nat.le_refl n) (everyAll_true es)

def valueContract (L : Lexicon) (interpolate : List Term → Except Failure Term)
    (hint : IsInterpolation interpolate) :
    Contract (Compile.host L.id Compile.builtinCode interpolate) :=
  L.contract Compile.builtinCode interpolate BuiltinCode TemplateUnit.Pays (fun _ => rfl)
    (fun h h' => by rw [TemplateUnit.Pays, h', h]) (fun h ht => ht.mono h)
    fun hs hargs hrun => (builtinRun_of_outcome hrun).code hs (constant_of_codes hint hargs)

def handlerContract (L : Lexicon) :
    Contract (Compile.host L.id (fun kind args => .mk (pure (kind.write args))) Compile.noInterpolation) :=
  L.contract _ _ (fun _ kind args t => t = kind.written args) (fun u u' => u' = u) (fun _ => rfl)
    (fun h h' => h'.trans h) (fun _ ht => ht) fun hs _ hrun => by
    obtain rfl := (congrArg Prod.snd hrun).symm
    exact ⟨hs, .refl _, Builtin.eq_written_of_write (congrArg Prod.fst hrun), rfl, rfl⟩

end TemplateCompiler
