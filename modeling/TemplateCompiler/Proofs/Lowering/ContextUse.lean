import TemplateCompiler.Proofs.Lowering.Chains

/-!
# Uses of the context

A host is told that a binding uses the context exactly if the code of the binding has it, when the
context is a variable that nothing else is named like.

* `Shows` : what the variable in code says of whether making the code used the context;
* `contextAccount` : what is made for a host with a resolver shows it;
* `ToldOf`, `context_told` : so does every handler and every property, and the host is told of it.
-/

namespace TemplateCompiler

open TemporaryStack (nameOf)

variable {c : Text} {full own : Prop}

/-! ### The variable in code -/

/-- What the variable `c` in code says of whether making the code used the context. No code was dropped
if `full`, and nothing else is named like the variable if `own`. -/
structure Shows (c : Text) (full own : Prop) (ts : List Term) (used : Bool) : Prop where
  occurs : full → used = true → c ∈ Term.variablesAll ts
  uses : own → c ∈ Term.variablesAll ts → used = true

namespace Shows

variable {ts us heads : List Term} {used used' : Bool}

theorem of_not_mem (h : own → c ∉ Term.variablesAll ts) : Shows c full own ts false :=
  ⟨fun _ hused => (nomatch hused), fun hown hc => absurd hc (h hown)⟩

theorem append (ht : Shows c full own ts used) (hu : Shows c full own us used') :
    Shows c full own (ts ++ us) (used || used') := by
  have hmem : c ∈ Term.variablesAll (ts ++ us) ↔
      c ∈ Term.variablesAll ts ∨ c ∈ Term.variablesAll us := by
    rw [Term.variablesAll_append, List.mem_append]
  refine ⟨fun hfull h => hmem.mpr ?_, fun hown h => Bool.or_eq_true_iff.mpr ?_⟩
  · exact (Bool.or_eq_true_iff.mp h).imp (ht.occurs hfull) (hu.occurs hfull)
  · exact (hmem.mp h).imp (ht.uses hown) (hu.uses hown)

theorem congr (h : ∀ x, x ∈ Term.variablesAll us ↔ x ∈ Term.variablesAll ts)
    (ht : Shows c full own ts used) : Shows c full own us used :=
  ⟨fun hfull hused => (h c).mpr (ht.occurs hfull hused), fun hown hc => ht.uses hown ((h c).mp hc)⟩

theorem madeOf (ht : Shows c full own ts used) (h : Term.MadeOf us heads ts) :
    Shows c full own us used :=
  ht.congr fun _ => h.mem_variablesAll

/-- Code may be dropped if not all of it is asked for. -/
theorem take (ht : Shows c full own ts used) {n : Nat} (hn : full → ts.length ≤ n) :
    Shows c full own (ts.take n) used where
  occurs hfull hused := by
    rw [List.take_of_length_le (hn hfull)]
    exact ht.occurs hfull hused
  uses hown hc := by
    refine ht.uses hown ?_
    rw [← List.take_append_drop n ts, Term.variablesAll_append]
    exact List.mem_append_left _ hc

/-- Builtins are written out with all their values, but for those that no key is left for. -/
theorem written {p : Place} {kind : Builtin} {es : List Expr} (ht : Shows c full own ts used)
    (hlength : ts.length = es.length) (hpaired : full → (Expr.builtin p kind es).isPaired = true)
    (hfunction : own → (Expr.builtin p kind es).function? ≠ some c) :
    Shows c full own [kind.written ts] used := by
  cases kind with
  | array => exact ht.madeOf (Term.madeOf_ofList ts)
  | map keys =>
      have hkeys : full → ts.length = keys.length := fun hfull =>
        hlength.trans (eq_of_beq (hpaired hfull)).symm
      exact (ht.take fun hfull => Nat.le_of_eq (hkeys hfull)).madeOf (Term.madeOf_ofEntries ts keys)
  | pipe slot offset =>
      exact ht.madeOf ((Term.madeOf_ofList _).trans ((Term.madeOf_ofValue _).append
        ((Term.madeOf_ofValue _).append (.refl ts))))
  | call f =>
      have hf : Shows c full own [.ofVar f] false := of_not_mem fun hown hc =>
        hfunction hown (congrArg some (List.mem_singleton.mp hc).symm)
      exact (hf.append ht).madeOf (Term.madeOf_apply (.ofVar f) ts)

end Shows

/-! ### Code for a resolver -/

section Resolver

variable {σ : Type} {note : Note} {lookup : Text → StateM σ (Option Found)} {notify : StateM σ Unit}
  {limit : Int} {b : Text}

/-- The account of a host for which the context is the variable `c`, which no local has. -/
def contextAccount (notify : StateM σ Unit) (limit : Int)
    (hlookup : ∀ name s f, ((lookup name).run s).1 = some f → c ∉ (f.made (.var note c)).code.variables)
    (full : Prop)
    (hown : own → ∀ n, nameOf b n ≠ c) :
    Account (Host.ofResolver (.var note c) lookup notify limit).counting b where
  told := Prod.snd
  told_lookup _ _ := rfl
  told_builtin _ _ _ := rfl
  fits := Shows c full own
  nil := .of_not_mem fun _ => List.not_mem_nil
  append := .append
  congr := fun h ht => ht.congr h
  context := ⟨fun _ _ => List.mem_cons_self, fun _ _ => rfl⟩
  found {name s f} h := .of_not_mem fun _ => Term.variablesAll_singleton _ ▸ hlookup name s.1 f h
  temporary n := .of_not_mem fun h hc => hown h n (List.mem_singleton.mp hc).symm
  permits e := (full → e.isPaired = true) ∧ (own → e.function? ≠ some c)
  builtin h hlength ht hrun := by
    rw [Builtin.eq_written_of_write (congrArg Prod.fst hrun)]
    exact ht.written hlength h.1 h.2
  interpolate {ts u t} ht hrun := by
    cases hrun
    obtain ⟨heads, hmade⟩ := Term.exists_madeOf_inlineOrVariadic limit ts
    exact ht.madeOf hmade

end Resolver

/-! ### Being told -/

/-- What is known of an outcome, if the host was told of `k` uses before: `post` of the result and of how
many it was told of in all, and that a failure tells it nothing. -/
def Counted {σ α : Type} (k : Nat) (post : α → Nat → Prop) : Except Failure α × (σ × Nat) → Prop
  | (.ok a, s) => post a s.2
  | (.error _, s) => s.2 = k

/-- A host that was told of `n` uses, `k` of them before, was told at most once of statements: if they
have the variable `c`. -/
structure ToldOf (c : Text) (full own : Prop) (ss : List Stmt) (k n : Nat) : Prop where
  once : n = k ∨ n = k + 1
  occurs : full → n = k + 1 → c ∈ Stmt.variablesAll ss
  told : own → c ∈ Stmt.variablesAll ss → n = k + 1

theorem Shows.toldOf {ts : List Term} {used : Bool} {ss : List Stmt} (h : Shows c full own ts used)
    (k : Nat) (hss : c ∈ Stmt.variablesAll ss ↔ c ∈ Term.variablesAll ts) :
    ToldOf c full own ss k (k + used.toNat) := by
  cases used with
  | true => exact ⟨.inr rfl, fun hfull _ => hss.mpr (h.occurs hfull rfl), fun _ _ => rfl⟩
  | false =>
      refine ⟨.inl rfl, fun _ hn => absurd hn (Nat.ne_of_lt (Nat.lt_succ_self k)), fun hown hc => ?_⟩
      cases h.uses hown (hss.mp hc)

theorem counted_lowerBinding {σ α : Type} {host : Host σ} {b : Text} {A : Account host.counting b}
    (hA : A.told = Prod.snd) {code : Lower (σ × Nat) α} {post : α → Bool → Prop} (h : Steady A code post)
    (s : σ) (k : Nat) :
    Counted k (fun (a, stack) n => stack.binding = b ∧ ∃ used : Bool, post a used ∧ n = k + used.toNat)
      (outcome (lowerBinding host.counting b code) (s, k)) := by
  obtain ⟨r, hr, htold, hpost⟩ := h (s, k) 0
  rw [hA] at htold
  have hrun := hr.concludes host.counting
  cases r with
  | failed f s' =>
      rw [hrun]
      exact htold
  | done a n used s' =>
      obtain ⟨stack, hbinding, -, hrun⟩ := hrun
      rw [hrun]
      have hn := counting_notify host used s'
      rw [show s'.2 = k from htold] at hn
      exact ⟨hbinding, used, hpost, hn⟩

theorem Handled.mem_variablesAll_code {y : Text} (b : Text) (x : Handled) :
    y ∈ Stmt.variablesAll (x.code b).statements ↔ y ∈ Term.variablesAll x.values := by
  have hdeclared : Stmt.variablesAll (temporaryDeclarations b x.count) = [] := by
    change Stmt.variablesAll (TemporaryStack.declarations { binding := b, count := x.count }) = []
    rw [Stmt.variablesAll, Term.nodesAll_declarations, List.filterMap_nil]
  have hkept : ∀ last : Option Term, Stmt.variablesAll (last.toList.map fun v =>
      .const ("pd_" ++ b) v.verdict) = Term.variablesAll (last.toList.map Term.verdict) := by
    rintro (_ | v) <;> rfl
  rw [code, before, Stmt.variablesAll_append, Stmt.variablesAll_append, hdeclared, List.nil_append,
    Stmt.variablesAll_map_ofTerm, hkept, ← Term.variablesAll_append]
  rcases List.eq_nil_or_concat x.values with hvalues | ⟨ts, t, hvalues⟩
  · rw [hvalues]
    rfl
  · rw [hvalues, List.concat_eq_append, List.dropLast_concat, List.getLast?_concat]
    exact ((Term.MadeOf.refl ts).append (Term.madeOf_verdict t)).mem_variablesAll

theorem Shows.mono {ts : List Term} {used : Bool} {own' : Prop} (h : Shows c full own ts used)
    (hown : own' → own) : Shows c full own' ts used :=
  ⟨h.occurs, fun hown' => h.uses (hown hown')⟩

section Bindings

variable {σ : Type} {host : Host σ} {e : Expr} {b : Text} {A : Account host.counting b}
  (hA : A.told = Prod.snd) (hfits : A.fits = Shows c full own)

include hA hfits

theorem counted_action (he : e.written.Every A.permits) (s : σ) (k : Nat) :
    Counted k (fun code => ToldOf c full own code.statements k)
      (outcome (lowerAction host.counting e b) (s, k)) := by
  rw [lowerAction, outcome_bind, actionBody]
  cases hreplace : e.replaceBuiltins BuiltinFactory.literal with
  | error f => exact rfl
  | ok e' =>
      rw [← Expr.eq_written_of_replaceBuiltins hreplace] at he
      have h := counted_lowerBinding hA (steady_lowerStatements e' he) s k
      dsimp only
      rcases hrun : outcome (lowerBinding host.counting b (e'.lowerStatements host.counting)) (s, k) with
        ⟨f | ⟨body, stack⟩, s'⟩
      · rw [hrun] at h
        exact h
      · rw [hrun, hfits] at h
        obtain ⟨hbinding, used, ⟨ts, rfl, hts⟩, hn⟩ := h
        have hcode : withPreventDefault b (stack.declarations ++ ts.map Stmt.ofTerm) =
            Handled.code b ⟨stack.count, ts, used⟩ := by
          rw [declarations_eq hbinding, ← Handled.withPreventDefault_eq]
        dsimp only
        rw [hcode, outcome_pure, Counted, hn]
        exact hts.toldOf k (Handled.mem_variablesAll_code b _)

/-- The value of a property that is kept has a name of its own. -/
theorem counted_property (he : e.Every A.permits) (simple : Bool) (s : σ) (k : Nat) :
    Counted k (fun code => ToldOf c full (own ∧ "currVal_" ++ b ≠ c)
        (code.statements ++ [.ofTerm code.value]) k)
      (outcome (lowerProperty host.counting e b simple) (s, k)) := by
  have h := counted_lowerBinding hA (steady_lower he) s k
  rw [lowerProperty, outcome_bind]
  rcases hrun : outcome (lowerBinding host.counting b (e.lower host.counting)) (s, k) with
    ⟨f | ⟨t, stack⟩, s'⟩
  · rw [hrun] at h
    exact h
  · rw [hrun, hfits] at h
    obtain ⟨hbinding, used, ht, hn⟩ := h
    have ht : Shows c full (own ∧ "currVal_" ++ b ≠ c) [t] used := ht.mono And.left
    dsimp only
    split
    · rw [outcome_pure, Counted, hn]
      exact ht.toldOf k Iff.rfl
    -- the variable that the value is kept in is a variable of the code, too
    · have hname : Shows c full (own ∧ "currVal_" ++ b ≠ c) [.ofVar ("currVal_" ++ b)] false :=
        .of_not_mem fun hown hc => hown.2 (List.mem_singleton.mp hc).symm
      have hvariables : c ∈ Stmt.variablesAll (stack.declarations ++ [.const ("currVal_" ++ b) t] ++
          [.ofTerm (.ofVar ("currVal_" ++ b))]) ↔
          c ∈ Term.variablesAll ([t] ++ [.ofVar ("currVal_" ++ b)]) := by
        rw [List.append_assoc, Stmt.variablesAll_append, Stmt.variablesAll, Term.nodesAll_declarations]
        exact Iff.rfl
      have htold := (ht.append hname).toldOf k hvariables
      rw [Bool.or_false] at htold
      rw [outcome_pure, Counted, hn]
      exact htold

end Bindings

/-! ### The context of a resolver -/

/-- Nothing else of the binding `b` is named like the variable `c`: no temporary, and no function that a
builtin calls. -/
structure Expr.Spares (c b : Text) (e : Expr) : Prop where
  temporary : ∀ n, nameOf b n ≠ c
  function : e.Every fun x => x.function? ≠ some c

theorem permits_written (c b : Text) (e : Expr) : e.written.Every fun x =>
    ((e.Every fun y => y.isPaired = true) → x.isPaired = true) ∧
      (e.Spares c b → x.function? ≠ some c) := by
  refine Expr.Every.written (fun x y hx _ _ hf hpaired => ⟨hpaired ▸ hx.1, hf ▸ hx.2⟩) ?_
  refine (Expr.every_iff_nodes e).mpr fun x hx => ⟨fun hfull => ?_, fun hown => ?_⟩
  · exact (Expr.every_iff_nodes e).mp hfull x hx
  · exact (Expr.every_iff_nodes e).mp hown.function x hx

/-- If no local has the variable that is the context, the host is told at most once that a binding uses
the context, and never of one that fails. It is told if the code has the variable, where nothing else is
named like it; and only then, where all literal maps have as many values as keys. -/
theorem context_told {σ : Type} (c : Text) (note : Note) (lookup : Text → StateM σ (Option Found))
    (notify : StateM σ Unit) (limit : Int)
    (hlookup : ∀ name s f, ((lookup name).run s).1 = some f → c ∉ (f.made (.var note c)).code.variables)
    (e : Expr) (b : Text) (s : σ) (k : Nat) :
    let host := (Host.ofResolver (.var note c) lookup notify limit).counting
    let full := e.Every fun x => x.isPaired = true
    Counted k (fun code => ToldOf c full (e.Spares c b) code.statements k)
      (outcome (lowerAction host e b) (s, k)) ∧
    ∀ e', e.replaceBuiltins BuiltinFactory.literal = .ok e' → ∀ simple,
      Counted k (fun code => ToldOf c full (e.Spares c b ∧ "currVal_" ++ b ≠ c)
          (code.statements ++ [.ofTerm code.value]) k)
        (outcome (lowerProperty host e' b simple) (s, k)) := by
  let A : Account (Host.ofResolver (.var note c) lookup notify limit).counting b :=
    contextAccount notify limit hlookup (e.Every fun x => x.isPaired = true)
      fun h : e.Spares c b => h.temporary
  refine ⟨counted_action (A := A) rfl rfl (permits_written c b e) s k, fun e' hreplace simple => ?_⟩
  rw [Expr.eq_written_of_replaceBuiltins hreplace]
  exact counted_property (A := A) rfl rfl (permits_written c b e) simple s k

namespace Sample

/-- The handler `f()?.a` uses the context, which the host is told. -/
theorem guardedRead_told :
    (∀ name s f, ((plainHost.lookup name).run s).1 = some f →
      ("ctx" : Text) ∉ (f.made (.ofVar "ctx")).code.variables) ∧
    ∃ code, outcome (lowerAction plainHost.counting guardedRead "0") ((), 0) = (.ok code, ((), 1)) ∧
      ("ctx" : Text) ∈ Stmt.variablesAll code.statements := by
  have hlookup : ∀ name s f, ((plainHost.lookup name).run s).1 = some f →
      ("ctx" : Text) ∉ (f.made (.ofVar "ctx")).code.variables := fun _ _ _ h => nomatch h
  have hpaired : guardedRead.Every fun x => x.isPaired = true := by
    simp [guardedRead, Expr.Every, Expr.EveryAll, Expr.isPaired]
  have htold := (context_told "ctx" {} plainHost.lookup (pure ()) 9 hlookup guardedRead "0" () 0).1
  exact ⟨hlookup, _, rfl, ToldOf.occurs htold hpaired rfl⟩

/-- A map literal with a value `x` that there is no key for. -/
def unkeyedRead : Expr := .map ⟨none, none⟩ [] [.read ⟨none, none⟩ (.context ⟨none, none⟩) "x"]

/-- A builtin call of `ctx`. -/
def contextCall : Expr := .builtin ⟨none, none⟩ (.call "ctx") []

/-- The expression `x()?.a`. -/
def localRead : Expr :=
  let p : Place := ⟨none, none⟩
  .safeRead p (.method p (.context p) "x" []) "a"

/-- The variable `context` as the context, and the local `y` for the name `x`. -/
def localHost (context : Text) : Host Unit :=
  .ofResolver (.ofVar context) (fun name => pure (if name = "x" then some (.term (.ofVar "y")) else none))
    (pure ()) 9

/-- What the host is told of need not be what the code has. A value that no key is left for uses the
context, and is dropped. A function that a builtin calls, a temporary, and the variable that a property
is kept in, may all have the name of the context. -/
theorem not_context_told :
    (∃ e, unkeyedRead.replaceBuiltins BuiltinFactory.literal = .ok e ∧
      outcome (lowerProperty plainHost.counting e "0" true) ((), 0) =
        (.ok ⟨[], .ofEntries []⟩, ((), 1)) ∧
      ("ctx" : Text) ∉ Stmt.variablesAll [.ofTerm (.ofEntries [])]) ∧
    (∃ t, outcome (lowerProperty plainHost.counting contextCall "0" true) ((), 0) =
        (.ok ⟨[], t⟩, ((), 0)) ∧
      ("ctx" : Text) ∈ Stmt.variablesAll [.ofTerm t]) ∧
    (∃ code, outcome (lowerAction (localHost "tmp_0_0").counting localRead "0") ((), 0) =
        (.ok code, ((), 0)) ∧
      ("tmp_0_0" : Text) ∈ Stmt.variablesAll code.statements) ∧
    ∃ code, outcome (lowerProperty (localHost "currVal_0").counting localRead "0" true) ((), 0) =
        (.ok code, ((), 0)) ∧
      ("currVal_0" : Text) ∈ Stmt.variablesAll (code.statements ++ [.ofTerm code.value]) := by
  exact ⟨⟨_, rfl, rfl, by decide⟩, ⟨_, rfl, by decide⟩, ⟨_, rfl, by decide⟩, _, rfl, by decide⟩

end Sample

end TemplateCompiler
