import TemplateCompiler.Proofs.Pool.Requests

/-!
# A pool never changes a literal

* `Pool.Reads` : what the constants of a pool stand for, which is what they are declared with;
* `Pool.Faithful` : what was answered stands for what was asked for, and nothing is declared twice;
* `Pool.Run.faithful` : a pool is faithful after every run.
-/

namespace TemplateCompiler

namespace Pool

/-! ### What constants stand for -/

/-- Every constant stands for the value that it is declared with, in which constants stand for theirs. -/
def Reads (pool : Pool) (values : Values) : Prop :=
  ∀ x, values x = (pool.initializer? x).map (Term.expand pool.names values)

/-- What a declaration is told by: the key of a constant, or that of the factory for what a function
returns. -/
def declaredKey? : Stmt → Option (Bool × Text)
  | .declare _ _ _ (some (.function _ _ [.ret _ result] _)) => (factoryKey result).toOption.map (true, ·)
  | .declare _ _ _ (some t) => t.keyOf.toOption.map (false, ·)
  | _ => none

end Pool

/-- The values with some variables bound in their place. -/
def Values.bind (values : Values) (params : List Text) (args : List Term) : Values :=
  fun x => ((params.zip args).lookup x).or (values x)

namespace Pool

/-- What answers stand for. -/
structure Faithful (log : List (Request × Answer)) (pool : Pool) : Prop where
  /-- Every request is answered. -/
  answers : ∀ r : Request, r.Allowed → ∃ a pool', pool.answer r = .ok (a, pool')
  /-- It is clear what every constant stands for. -/
  reads : ∃ values, pool.Reads values ∧ ∀ values', pool.Reads values' → values' = values
  /-- A literal stands for the one that was asked for, and may be an entry of another. -/
  literal : ∀ values, pool.Reads values → ∀ t force u, (.literal t force, .literal u) ∈ log →
    u.Literal ∧ u.expand pool.names values = t.expand pool.names values
  /-- A factory takes as many arguments as there are, and returns what was asked for. -/
  factory : ∀ values, pool.Reads values → ∀ t function args, (.factory t, .factory function args) ∈ log →
    ∃ name params result, function = .ofVar name ∧
      pool.initializer? name = some (maker params result) ∧ params.length = args.length ∧ params.Nodup ∧
      result.expand pool.names (values.bind params (args.map (Term.expand pool.names values))) =
        t.expand pool.names values
  /-- No two constants have the same name. -/
  names : (Stmt.variablesIn pool.statements).Nodup
  /-- No two constants have the same key, and no two functions. -/
  keys : (pool.statements.map declaredKey?).Nodup ∧ none ∉ pool.statements.map declaredKey?

variable {pool : Pool} {values : Values} {key : Text} {t : Term}

/-! ### What constants stand for -/

theorem Coherent.settled (h : pool.Coherent) (hv : pool.Reads values) :
    ∀ bound, values.Settled pool.names bound := by
  intro bound
  induction bound with
  | zero => exact fun key _ hlt => absurd hlt (Nat.not_lt_zero _)
  | succ bound ih =>
      intro key n hlt hn t ht hkey
      obtain ⟨u, hu, hheld⟩ := h.shared key n hn
      rw [hv n, hu, Option.map_some,
        Term.expand_eq_of_le ih hheld.literal hheld.not_pooled hheld.keyOf (Nat.le_of_lt_succ hlt),
        ht.written_eq hheld.literal hkey hheld.keyOf]

theorem Coherent.isConstantName (h : pool.Coherent) {n : Text} (hn : pool.names key = some n) :
    ∃ i, n = constantName i := by
  obtain ⟨t, ht, -⟩ := h.shared key n hn
  obtain ⟨i, -, hi⟩ := h.named n (mem_variablesIn_of_initializerIn ht)
  exact ⟨i, hi⟩

/-- The parameters of a function are no constants, and none is there twice. -/
theorem Slots.params_eq {count : Nat} {ts : List Term} {params : List Text} (h : Slots count ts params) :
    params = (List.range' count params.length).map parameter := by
  induction h with
  | nil => rfl
  | constant _ _ ih => exact ih
  | param _ ih =>
      rw [List.length_cons, List.range'_succ, List.map_cons, ← ih]

theorem Slots.nodup {count : Nat} {ts : List Term} {params : List Text} (h : Slots count ts params) :
    params.Nodup := by
  rw [h.params_eq]
  exact List.Nodup.map (fun _ _ => parameter_inj) List.nodup_range'

theorem Slots.constantName_notMem {count : Nat} {ts : List Term} {params : List Text}
    (h : Slots count ts params) (n : Nat) : constantName n ∉ params := by
  rw [h.params_eq]
  intro hmem
  obtain ⟨m, -, hm⟩ := List.mem_map.mp hmem
  exact absurd (List.cons.inj hm).1 (by decide)

theorem Settled.congr {names : Names} {values values' : Values}
    (h : ∀ bound, values.Settled names bound)
    (heq : ∀ key n, names key = some n → values' n = values n) :
    ∀ bound, values'.Settled names bound := by
  intro bound key n hlt hn t ht hkey
  rw [heq key n hn]
  exact h bound key n hlt hn t ht hkey

theorem expand_collection (ht : t.isCollection = true) (names : Names) (values : Values) :
    t.expand names values = t.collect ((entriesOf t).map (Term.expand names values)) := by
  cases t with
  | array note es => exact congrArg Term.ofList (Term.expandAll_eq_map names values es)
  | map note es =>
      refine congrArg Term.ofEntries ((Term.expandEntries_eq_map names values es).trans ?_)
      rw [entriesOf, List.map_map, List.zip_map']
      rfl
  | _ => cases ht

theorem hide_none (hidden : List Text) : Values.hide (fun _ => none) hidden = fun _ => none := by
  funext x
  unfold Values.hide
  split <;> rfl

theorem expand_maker (params : List Text) (result : Term) (names : Names) (values : Values) :
    (maker params result).expand names values =
      maker params (result.expand names (values.hide ([] :: params))) := by
  change Term.function {} params [.ret none (result.expand names
    (values.hide ([] :: params ++ Stmt.declaredAll [.ret none result])))] [] = _
  rw [Stmt.declaredAll, Stmt.declaredAll, Stmt.declared, List.append_nil, List.append_nil]
  rfl

/-- The entries of a function that reads its parameters are left as they are written. -/
theorem Slots.expand_eq {names : Names} {count : Nat} {ts : List Term} {params : List Text}
    (h : Slots count ts params) (hv : ∀ bound, values.Settled names bound)
    (hparams : ∀ p ∈ params, values p = none) :
    ts.map (Term.expand names values) = ts.map Term.written := by
  induction h with
  | nil => rfl
  | constant ht _ ih => rw [List.map_cons, List.map_cons, ht.expand_eq hv, ih hparams]
  | @param count _ _ _ ih =>
      obtain ⟨hp, hparams⟩ := List.forall_mem_cons.mp hparams
      rw [List.map_cons, List.map_cons, ih hparams]
      refine congrArg (· :: _) ?_
      change (values (parameter count)).getD (.ofVar (parameter count)) = _
      rw [hp]
      rfl

theorem Coherent.expand_maker (h : pool.Coherent) (hv : ∀ bound, values.Settled pool.names bound)
    {params : List Text} {result : Term} (hmade : MadeUnder key params result) :
    (maker params result).expand pool.names values = (maker params result).written := by
  rw [Term.written, Pool.expand_maker, Pool.expand_maker, hide_none]
  congr 1
  have hhidden : ∀ bound, (values.hide ([] :: params)).Settled pool.names bound := by
    refine Settled.congr hv fun k n hn => ?_
    obtain ⟨i, rfl⟩ := h.isConstantName hn
    refine if_neg fun hmem => ?_
    rcases List.mem_cons.mp hmem with hnil | hmem
    · cases hnil
    · exact hmade.slots.constantName_notMem i hmem
  rw [expand_collection hmade.isCollection, expand_collection hmade.isCollection,
    hmade.slots.expand_eq hhidden fun p hp => if_pos (List.mem_cons_of_mem _ hp)]
  rfl

/-- Every constant is declared with a value whose constants can be replaced by what is written for
them. -/
theorem Coherent.expand_initializer (h : pool.Coherent) (hv : ∀ bound, values.Settled pool.names bound)
    {x : Text} (hx : pool.initializer? x = some t) : t.expand pool.names values = t.written := by
  obtain ⟨s, hs, hvalue⟩ := List.exists_of_findSome?_eq_some hx
  cases h.declared s hs with
  | @constant key n u hconst held hn =>
      subst hconst
      simp only [Stmt.const, Option.ite_none_right_eq_some, Option.some.injEq] at hvalue
      rw [← hvalue.2]
      exact held.literal.expand_eq hv
  | @factory key n params result hconst made hn =>
      subst hconst
      simp only [Stmt.const, Option.ite_none_right_eq_some, Option.some.injEq] at hvalue
      rw [← hvalue.2]
      exact h.expand_maker hv made

def writtenValues (pool : Pool) : Values := fun x => (pool.initializer? x).map Term.written

theorem Coherent.settled_writtenValues (h : pool.Coherent) :
    ∀ bound, pool.writtenValues.Settled pool.names bound := by
  intro bound key n _ hn t ht hkey
  obtain ⟨u, hu, hheld⟩ := h.shared key n hn
  rw [writtenValues, hu, Option.map_some, ht.written_eq hheld.literal hkey hheld.keyOf]

theorem Coherent.reads_iff (h : pool.Coherent) : pool.Reads values ↔ values = pool.writtenValues := by
  have heq : ∀ {values : Values}, (∀ bound, values.Settled pool.names bound) → ∀ x,
      (pool.initializer? x).map (Term.expand pool.names values) = pool.writtenValues x := by
    intro values hv x
    rw [writtenValues]
    cases hx : pool.initializer? x with
    | none => rfl
    | some t => exact congrArg some (h.expand_initializer hv hx)
  constructor
  · intro hv
    funext x
    rw [hv x, heq (h.settled hv)]
  · rintro rfl x
    exact (heq h.settled_writtenValues x).symm

/-! ### What factories return -/

theorem isConstant_unpooled (ht : t.Literal) : t.unpooled.isConstant = true := by
  fun_induction Term.unpooled t with
  | case1 k t ih => exact ih ⟨ht.genuine.1, ht.genuine.2.2⟩
  | case2 t _ => exact ht.isConstant

theorem written_ne_ofVar (ht : t.Literal) (x : Text) : t.written ≠ .ofVar x := by
  have hc := isConstant_unpooled ht
  have hpooled := Term.unpooled_ne_pooled t
  rw [← Term.written_unpooled]
  generalize t.unpooled = u at hc hpooled
  cases u with
  | lit | array | map => exact fun h => nomatch h
  | pooled k u => exact absurd rfl (hpooled k u)
  | _ => cases hc

/-- What is written for an entry as factories are told apart by it. -/
def writtenEntry (t : Term) : Term := (keyEntry t).written

theorem writtenEntry_of_isConstant (hc : t.isConstant = true) : writtenEntry t = t.written := by
  rw [writtenEntry, keyEntry, if_pos hc]

theorem writtenEntry_of_not_isConstant (hc : t.isConstant = false) : writtenEntry t = unknownValue := by
  rw [writtenEntry, keyEntry, if_neg (by simp [hc])]
  rfl

theorem genuine_ofVar (x : Text) : (Term.ofVar x).Genuine := trivial

/-- Entries that are written alike are both constant or both not. -/
theorem isConstant_eq_of_writtenEntry_eq {u : Term} (ht : t.Genuine) (hu : u.Genuine)
    (h : writtenEntry t = writtenEntry u) : t.isConstant = u.isConstant := by
  cases hct : t.isConstant with
  | true =>
      cases hcu : u.isConstant with
      | true => rfl
      | false =>
          rw [writtenEntry_of_isConstant hct, writtenEntry_of_not_isConstant hcu] at h
          exact absurd h (written_ne_ofVar ⟨hct, ht⟩ _)
  | false =>
      cases hcu : u.isConstant with
      | true =>
          rw [writtenEntry_of_not_isConstant hct, writtenEntry_of_isConstant hcu] at h
          exact absurd h.symm (written_ne_ofVar ⟨hcu, hu⟩ _)
      | false => rfl

section Factories

variable {names : Names} {count : Nat} {entries ts : List Term} {params : List Text}

/-- There are as many parameters as entries that are not constant. -/
theorem Slots.length_eq (h : Slots count entries params) (hts : ∀ t ∈ ts, t.Genuine)
    (heq : ts.map writtenEntry = entries.map writtenEntry) :
    params.length = (ts.filter fun t => !t.isConstant).length := by
  induction h generalizing ts with
  | nil =>
      rw [List.map_nil, List.map_eq_nil_iff] at heq
      rw [heq]
      rfl
  | @constant _ u _ _ hu _ ih =>
      obtain ⟨t, ts, rfl, ht, heq⟩ := List.map_eq_cons_iff.mp heq
      obtain ⟨hg, hts⟩ := List.forall_mem_cons.mp hts
      have hc := isConstant_eq_of_writtenEntry_eq hg hu.genuine ht
      rw [List.filter_cons_of_neg (by simp [hc, hu.isConstant]), ih hts heq]
  | param _ ih =>
      obtain ⟨t, ts, rfl, ht, heq⟩ := List.map_eq_cons_iff.mp heq
      obtain ⟨hg, hts⟩ := List.forall_mem_cons.mp hts
      have hc := isConstant_eq_of_writtenEntry_eq hg (genuine_ofVar _) ht
      rw [List.filter_cons_of_pos (by simp [hc, isConstant_ofVar]), List.length_cons, List.length_cons,
        ih hts heq]

/-- With its parameters bound to the entries that are not constant, a function returns all entries. -/
theorem Slots.expand_bound {bound : Values} (h : Slots count entries params) (hts : ∀ t ∈ ts, t.Genuine)
    (heq : ts.map writtenEntry = entries.map writtenEntry) (hv : ∀ n, values.Settled names n)
    (hb : ∀ n, bound.Settled names n)
    (hargs : List.Forall₂ (fun p t => bound p = some (t.expand names values)) params
      (ts.filter fun t => !t.isConstant)) :
    entries.map (Term.expand names bound) = ts.map (Term.expand names values) := by
  induction h generalizing ts with
  | nil =>
      rw [List.map_nil, List.map_eq_nil_iff] at heq
      rw [heq]
      rfl
  | @constant _ u _ _ hu _ ih =>
      obtain ⟨t, ts, rfl, ht, heq⟩ := List.map_eq_cons_iff.mp heq
      obtain ⟨hg, hts⟩ := List.forall_mem_cons.mp hts
      have hc := (isConstant_eq_of_writtenEntry_eq hg hu.genuine ht).trans hu.isConstant
      rw [writtenEntry_of_isConstant hc, writtenEntry_of_isConstant hu.isConstant] at ht
      rw [List.filter_cons_of_neg (by simp [hc])] at hargs
      have htu : u.expand names bound = t.expand names values := by
        rw [hu.expand_eq hb, Term.Literal.expand_eq hv ⟨hc, hg⟩, ht]
      rw [List.map_cons, List.map_cons, ih hts heq hargs, htu]
  | param _ ih =>
      obtain ⟨t, ts, rfl, ht, heq⟩ := List.map_eq_cons_iff.mp heq
      obtain ⟨hg, hts⟩ := List.forall_mem_cons.mp hts
      have hc := isConstant_eq_of_writtenEntry_eq hg (genuine_ofVar _) ht
      rw [List.filter_cons_of_pos (by simp [hc, isConstant_ofVar])] at hargs
      cases hargs with
      | cons hp hargs =>
          rw [List.map_cons, List.map_cons, ih hts heq hargs, Term.ofVar, Term.expand, hp]
          rfl

end Factories

/-- Collections of the same factory key have the same form, and entries that are written alike. -/
theorem collect_eq_of_factoryKey_eq {u : Term} (ht : t.isCollection = true) (hu : u.isCollection = true)
    (hgt : t.Genuine) (hgu : u.Genuine) (hkey : factoryKey t = .ok key) (hkey' : factoryKey u = .ok key) :
    t.collect = u.collect ∧ (entriesOf t).map writtenEntry = (entriesOf u).map writtenEntry := by
  have hshape : ∀ {t : Term}, t.isCollection = true →
      (shape t).written = t.collect ((entriesOf t).map writtenEntry) := by
    intro t ht
    have hlength : ((entriesOf t).map keyEntry).length = (entriesOf t).length := List.length_map keyEntry
    rw [shape, Term.written, expand_collection (isCollection_collect ht _), collect_collect ht hlength,
      entriesOf_collect ht hlength, List.map_map]
    rfl
  have heq := Term.written_eq_of_keyOf_eq (keyable_shape ht hgt) (keyable_shape hu hgu) hkey hkey'
  rw [hshape ht, hshape hu] at heq
  constructor
  · funext ts
    rw [← collect_collect ht (List.length_map writtenEntry), heq,
      collect_collect hu (List.length_map writtenEntry)]
  · have hentries := congrArg entriesOf heq
    rwa [entriesOf_collect ht (List.length_map _), entriesOf_collect hu (List.length_map _)] at hentries

theorem forall₂_of_lookup_zip {params : List Text} {args : List Term} (hnodup : params.Nodup)
    (hlength : params.length = args.length) {g : Text → Option Term}
    (hg : ∀ p ∈ params, g p = (params.zip args).lookup p) :
    List.Forall₂ (fun p a => g p = some a) params args := by
  induction params generalizing args with
  | nil =>
      rw [List.eq_nil_of_length_eq_zero hlength.symm]
      exact .nil
  | cons p params ih =>
      obtain ⟨hp, hnodup⟩ := List.nodup_cons.mp hnodup
      obtain ⟨a, args, rfl⟩ := List.exists_cons_of_length_eq_add_one hlength.symm
      obtain ⟨hgp, hg⟩ := List.forall_mem_cons.mp hg
      refine .cons ?_ (ih hnodup (Nat.succ.inj hlength) fun q hq => ?_)
      · rw [hgp, List.zip_cons_cons, List.lookup_cons, beq_self_eq_true]
      · have hne : q ≠ p := fun h => hp (h ▸ hq)
        rw [hg q hq, List.zip_cons_cons, List.lookup_cons, beq_false_of_ne hne]

theorem bind_of_notMem {params : List Text} {args : List Term} {x : Text} (hx : x ∉ params) :
    values.bind params args x = values x := by
  have hnone : (params.zip args).lookup x = none := by
    rw [List.lookup_eq_none_iff]
    intro p hp
    exact bne_iff_ne.mpr fun h => hx (h ▸ (List.of_mem_zip hp).1)
  rw [Values.bind, hnone, Option.none_or]

/-- A function of the key of a collection returns it when it is called with the entries that are not
constant. -/
theorem Coherent.expand_result (h : pool.Coherent) (hv : ∀ bound, values.Settled pool.names bound)
    (ht : t.isCollection = true) (hg : t.Genuine) (hkey : factoryKey t = .ok key) {params : List Text}
    {result : Term} (hmade : MadeUnder key params result) {args : List Term}
    (hargs : args = (entriesOf t).filter fun t => !t.isConstant) :
    params.length = args.length ∧
      result.expand pool.names (values.bind params (args.map (Term.expand pool.names values))) =
        t.expand pool.names values := by
  subst hargs
  obtain ⟨hcollect, hentries⟩ := collect_eq_of_factoryKey_eq ht hmade.isCollection hg hmade.genuine hkey
    hmade.factoryKey
  have hgenuine := genuine_entriesOf ht hg
  have hlength := hmade.slots.length_eq hgenuine hentries
  refine ⟨hlength, ?_⟩
  generalize hbound : values.bind params (((entriesOf t).filter fun t => !t.isConstant).map
    (Term.expand pool.names values)) = bound
  have hsettled : ∀ n, bound.Settled pool.names n := by
    refine Settled.congr hv fun k n hn => ?_
    obtain ⟨i, rfl⟩ := h.isConstantName hn
    rw [← hbound, bind_of_notMem (hmade.slots.constantName_notMem i)]
  have hargs : List.Forall₂ (fun p t => bound p = some (t.expand pool.names values)) params
      ((entriesOf t).filter fun t => !t.isConstant) := by
    have hzip := forall₂_of_lookup_zip hmade.slots.nodup
      (hlength.trans (List.length_map (Term.expand pool.names values)).symm) fun _ _ => rfl
    refine (List.forall₂_map_right_iff.mp hzip).imp fun p t hp => ?_
    rw [← hbound, Values.bind, hp]
    rfl
  rw [expand_collection hmade.isCollection, expand_collection ht, hcollect,
    hmade.slots.expand_bound hgenuine hentries hv hsettled hargs]

/-! ### Keys of declarations -/

def nameOf? (pool : Pool) : Option (Bool × Text) → Option Text
  | some (false, key) => pool.names key
  | some (true, key) => pool.factories.lookup key
  | none => none

theorem declaredKey?_const {n : Text} (ht : HeldUnder key t) :
    declaredKey? (.const n t) = some (false, key) := by
  have hkey : declaredKey? (.const n t) = t.keyOf.toOption.map (false, ·) := by
    have hc := ht.literal.isConstant
    cases t with
    | lit | array | map | pooled => rfl
    | _ => cases hc
  rw [hkey, ht.keyOf]
  rfl

theorem declaredKey?_maker {n : Text} {params : List Text} {result : Term}
    (h : MadeUnder key params result) : declaredKey? (.const n (maker params result)) = some (true, key) := by
  change (factoryKey result).toOption.map (true, ·) = _
  rw [h.factoryKey]
  rfl

theorem Declared.exists_name {s : Stmt} (h : Declared pool s) :
    ∃ n, pool.nameOf? (declaredKey? s) = some n ∧ s.variable? = some n := by
  cases h with
  | @constant key n t hs held hn =>
      subst hs
      exact ⟨n, (congrArg pool.nameOf? (declaredKey?_const held)).trans hn, rfl⟩
  | @factory key n params result hs made hn =>
      subst hs
      exact ⟨n, (congrArg pool.nameOf? (declaredKey?_maker made)).trans hn, rfl⟩

theorem map_nameOf? {ss : List Stmt} (h : ∀ s ∈ ss, Declared pool s) :
    (ss.map declaredKey?).map pool.nameOf? = (Stmt.variablesIn ss).map some := by
  induction ss with
  | nil => rfl
  | cons s ss ih =>
      obtain ⟨hs, hss⟩ := List.forall_mem_cons.mp h
      obtain ⟨n, hname, hvariable⟩ := hs.exists_name
      rw [List.map_cons, List.map_cons, ih hss, hname]
      exact (congrArg (List.map some) (List.filterMap_cons_some hvariable)).symm

/-- As names tell the keys of declarations, no two have the same key. -/
theorem Coherent.nodup_keys (h : pool.Coherent) : (pool.statements.map declaredKey?).Nodup := by
  refine List.Nodup.of_map pool.nameOf? ?_
  rw [map_nameOf? h.declared]
  exact h.nodup.map fun _ _ => Option.some.inj

theorem Coherent.none_notMem_keys (h : pool.Coherent) : none ∉ pool.statements.map declaredKey? := by
  intro hnone
  obtain ⟨s, hs, hkey⟩ := List.mem_map.mp hnone
  obtain ⟨n, hname, -⟩ := (h.declared s hs).exists_name
  rw [hkey] at hname
  cases hname

/-- After every run of requests, what was answered stands for what was asked for. -/
theorem Run.faithful {log : List (Request × Answer)} (h : Run log pool) : Faithful log pool := by
  obtain ⟨hcoherent, hlog⟩ := h.coherent
  refine ⟨fun r hr => ?_, ?_, ?_, ?_, hcoherent.nodup, hcoherent.nodup_keys, hcoherent.none_notMem_keys⟩
  · obtain ⟨a, pool', hanswer, -⟩ := hcoherent.answer hr
    exact ⟨a, pool', hanswer⟩
  · exact ⟨pool.writtenValues, hcoherent.reads_iff.mpr rfl, fun values' => hcoherent.reads_iff.mp⟩
  · intro values hv t force u hmem
    obtain ⟨ht, hu, hkey⟩ := hlog _ hmem
    have hsettled := hcoherent.settled hv
    obtain ⟨k, hk⟩ := Term.exists_keyOf t ht.keyable
    exact ⟨hu, by rw [ht.expand_eq hsettled, hu.expand_eq hsettled, hu.written_eq ht (hkey.trans hk) hk]⟩
  · intro values hv t function args hmem
    obtain ⟨ht, hg, key, name, hkey, hname, hargs, hlookup⟩ := hlog _ hmem
    obtain ⟨params, result, hn, hmade⟩ := hcoherent.made key name hlookup
    obtain ⟨hlength, hresult⟩ := hcoherent.expand_result (hcoherent.settled hv) ht hg hkey hmade hargs
    exact ⟨name, params, result, hname, hn, hlength, hmade.slots.nodup, hresult⟩

namespace Sample

/-- A literal that is asked for twice. -/
def pair : Term := .ofList [.ofNat 1, .ofNat 2]

def keptPair : Term := .pooled "[1,2]" pair

/-- A collection with the answer among its entries. -/
def mixed : Term := .ofList [keptPair, .ofVar "x"]

/-- The second request for the literal moves it into a constant, after the function that reads it. -/
def log : List (Request × Answer) :=
  [(.literal pair false, .literal keptPair), (.factory mixed, .factory (.ofVar "_c0") [.ofVar "x"]),
    (.literal pair false, .literal keptPair)]

def after : Pool where
  statements := [.const "_c0" (maker ["a0"] (.ofList [keptPair, .ofVar "a0"])), .const "_c1" pair]
  literals := [("[1,2]", pair, some "_c1")]
  factories := [("[[1,2],read(<unknown>)]", "_c0")]
  claimed := [("_c", 2)]

theorem run : Run log after := by
  have h₁ := Run.start.step (r := .literal pair false) ⟨rfl, trivial, trivial, trivial⟩ rfl
  have h₂ := h₁.step (r := .factory mixed)
    ⟨rfl, ⟨rfl, rfl, trivial, trivial, trivial⟩, trivial, trivial⟩ rfl
  exact h₂.step (r := .literal pair false) ⟨rfl, trivial, trivial, trivial⟩ rfl

theorem faithful_pair : Run log after ∧ Faithful log after := ⟨run, run.faithful⟩

end Sample

end Pool

end TemplateCompiler
