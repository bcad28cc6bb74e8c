import TemplateCompiler.Proofs.Code.Nodes
import TemplateCompiler.Proofs.Pool.Constants
import TemplateCompiler.Template.Query

/-!
# Reads outside of event handlers

An event is handled by a function that the instruction for listeners is called with. The event is a
parameter of this function, and what else it reads comes from around it.

* `t.unhandled names` : the variables that `t` reads, but for the parameters of such functions inside them.
  A pooled literal reads the constant that `names` has for it;
* `Instruction.notMem_unhandledAll_listener` : what a listener takes is handled;
* `Term.notMem_unhandled` : what is read nowhere is not read outside of event handlers;
* `Pool.Sound.of_mem_unhandledAll` : what pools declare reads constants, and factories their parameters.
-/

namespace TemplateCompiler

def Term.isListener : Term → Bool
  | .external _ m n => m == coreModule && n == Instruction.listener.name
  | _ => false

def Term.takes (x : Text) : Term → Bool
  | .function _ params _ _ => params.contains x
  | _ => false

section Definitions

variable (names : Names)

mutual

/-- The variables that a term reads outside of the event handlers that take them. -/
def Term.unhandled : Term → List Text
  | .var _ x => [x]
  | .lit .. | .external .. => []
  | .array _ ts => Term.unhandledAll false ts
  | .map _ es => Term.unhandledEntries es
  | .prop _ t _ | .not _ t | .present _ t | .cast _ t => t.unhandled
  | .key _ t u | .binary _ _ t u | .cond _ t u none => t.unhandled ++ u.unhandled
  | .call _ f args _ => f.unhandled ++ Term.unhandledAll f.isListener args
  | .cond _ c t (some u) => c.unhandled ++ (t.unhandled ++ u.unhandled)
  | .function _ _ body _ => Stmt.unhandledAll body
  | .pooled key t =>
    match names key with
    | some n => [n]
    | none => t.unhandled

/-- The same for terms one after the other, which may be the arguments of a listener. -/
def Term.unhandledAll (listens : Bool) : List Term → List Text
  | [] => []
  | t :: ts => (t.unhandled.filter fun x => !(listens && t.takes x)) ++ Term.unhandledAll listens ts

def Term.unhandledEntries : List (MapKey × Term) → List Text
  | [] => []
  | (_, t) :: es => t.unhandled ++ Term.unhandledEntries es

/-- The variables that a statement reads outside of the event handlers that take them. -/
def Stmt.unhandled : Stmt → List Text
  | .declare _ _ _ none => []
  | .declare _ _ _ (some t) | .expr _ t | .ret _ t => t.unhandled
  | .function _ _ _ _ body => Stmt.unhandledAll body
  | .branch _ c yes no => c.unhandled ++ (Stmt.unhandledAll yes ++ Stmt.unhandledAll no)

/-- The same for statements one after the other. -/
def Stmt.unhandledAll : List Stmt → List Text
  | [] => []
  | s :: ss => s.unhandled ++ Stmt.unhandledAll ss

end

end Definitions

section Lemmas

variable {names : Names} {x : Text} {f t u : Term} {ts : List Term} {listens : Bool}

theorem Term.mem_unhandledAll : x ∈ Term.unhandledAll names listens ts ↔
    ∃ t ∈ ts, x ∈ t.unhandled names ∧ (listens && t.takes x) = false := by
  induction ts with
  | nil => simp [Term.unhandledAll]
  | cons t ts ih =>
      simp only [Term.unhandledAll, List.mem_append, List.mem_filter, ih, Bool.not_eq_true', List.mem_cons,
        exists_eq_or_imp]

theorem Stmt.mem_unhandledAll {ss : List Stmt} :
    x ∈ Stmt.unhandledAll names ss ↔ ∃ s ∈ ss, x ∈ s.unhandled names := by
  induction ss with
  | nil => simp [Stmt.unhandledAll]
  | cons s ss ih => simp [Stmt.unhandledAll, ih]

theorem Stmt.notMem_unhandledAll {ss : List Stmt} :
    x ∉ Stmt.unhandledAll names ss ↔ ∀ s ∈ ss, x ∉ s.unhandled names := by
  simp only [Stmt.mem_unhandledAll, not_exists, not_and]

theorem Stmt.notMem_unhandledAll_singleton {s : Stmt} (h : x ∉ s.unhandled names) :
    x ∉ Stmt.unhandledAll names [s] :=
  Stmt.notMem_unhandledAll.mpr (List.forall_mem_singleton.mpr h)

theorem Stmt.notMem_unhandledAll_append {ss ss' : List Stmt} :
    x ∉ Stmt.unhandledAll names (ss ++ ss') ↔
      x ∉ Stmt.unhandledAll names ss ∧ x ∉ Stmt.unhandledAll names ss' := by
  simp only [Stmt.notMem_unhandledAll, List.forall_mem_append]

/-! ### Terms that are put together -/

theorem Term.notMem_unhandledAll (h : ∀ t ∈ ts, x ∉ t.unhandled names) :
    x ∉ Term.unhandledAll names listens ts := by
  rw [Term.mem_unhandledAll]
  rintro ⟨t, ht, hx, -⟩
  exact h t ht hx

theorem Term.notMem_unhandled_ofList (h : ∀ t ∈ ts, x ∉ t.unhandled names) :
    x ∉ (Term.ofList ts).unhandled names :=
  Term.notMem_unhandledAll h

theorem Term.notMem_unhandled_apply {span : Option SourceSpan} (hf : x ∉ f.unhandled names)
    (h : ∀ t ∈ ts, x ∉ t.unhandled names) : x ∉ (Term.apply f ts span).unhandled names :=
  List.not_mem_append hf (Term.notMem_unhandledAll h)

theorem Term.notMem_unhandled_ofVar {y : Text} (h : y ≠ x) : x ∉ (Term.ofVar y).unhandled names := fun hx =>
  h (List.mem_singleton.mp hx).symm

theorem Term.notMem_unhandled_ofValue (v : Primitive) : x ∉ (Term.ofValue v).unhandled names :=
  List.not_mem_nil

namespace Instruction

theorem notMem_unhandled_call {i : Instruction} {span : Option SourceSpan}
    (h : ∀ t ∈ ts, x ∉ t.unhandled names) : x ∉ (i.call ts span).unhandled names :=
  Term.notMem_unhandled_apply List.not_mem_nil h

theorem notMem_unhandled_stmt {i : Instruction} {span : Option SourceSpan}
    (h : ∀ t ∈ ts, x ∉ t.unhandled names) : x ∉ (i.stmt ts span).unhandled names := by
  change x ∉ (i.call ts span).unhandled names
  exact notMem_unhandled_call h

theorem notMem_unhandledAll_stmt {i : Instruction} {span : Option SourceSpan}
    (h : ∀ t ∈ ts, x ∉ t.unhandled names) : x ∉ Stmt.unhandledAll names [i.stmt ts span] :=
  Stmt.notMem_unhandledAll_singleton (notMem_unhandled_stmt h)

theorem notMem_unhandled_spread {limit : Nat} (h : ∀ t ∈ ts, x ∉ t.unhandled names) :
    ∀ t ∈ spread limit ts, x ∉ t.unhandled names := by
  unfold spread
  split
  · exact List.forall_mem_singleton.mpr (Term.notMem_unhandled_ofList h)
  · exact h

/-- A listener handles what its function takes. -/
theorem notMem_unhandledAll_listener {fn : FunctionCode} (h : x ∈ fn.params) (event : Text)
    (span : Option SourceSpan) :
    x ∉ Stmt.unhandledAll names [listener.stmt [.ofText event, fn.term] span] := by
  refine Stmt.notMem_unhandledAll_singleton (List.not_mem_append List.not_mem_nil ?_)
  rw [Term.mem_unhandledAll]
  rintro ⟨t, ht, hx, hopen⟩
  rcases List.mem_cons.mp ht with rfl | ht
  · exact Term.notMem_unhandled_ofValue _ hx
  · rw [List.mem_singleton.mp ht] at hopen
    have htaken : (fn.params.contains x) = true := List.contains_iff_mem.mpr h
    exact absurd htaken (Bool.eq_false_iff.mp hopen)

end Instruction

/-- Statements under a flag read the flags. -/
theorem notMem_unhandled_onFlag {flag : Nat} {ss : List Stmt} (hx : x ≠ renderFlags)
    (h : x ∉ Stmt.unhandledAll names ss) : x ∉ (onFlag flag ss).unhandled names := by
  have hflag : x ∉ (Term.ofVar renderFlags).unhandled names := Term.notMem_unhandled_ofVar hx.symm
  exact List.not_mem_append (List.not_mem_append hflag List.not_mem_nil)
    (List.not_mem_append h List.not_mem_nil)

end Lemmas

/-! ### What is read at all -/

section Variables

variable {names : Names} {x : Text}

mutual

/-- What is no variable of a term, and no constant, is not read. -/
theorem Term.notMem_unhandled (hnames : ∀ key, names key ≠ some x) : ∀ t : Term,
    (∀ u ∈ t.nodes, u.varName? ≠ some x) → x ∉ t.unhandled names
  | .var _ y, h => fun hx => h _ List.mem_cons_self (congrArg some (List.mem_singleton.mp hx).symm)
  | .lit .., _ | .external .., _ => List.not_mem_nil
  | .array _ ts, h => Term.notMem_unhandledAll_of_nodes hnames ts (List.forall_mem_cons.mp h).2
  | .map _ es, h => Term.notMem_unhandledEntries hnames es (List.forall_mem_cons.mp h).2
  | .prop _ t _, h | .not _ t, h | .present _ t, h | .cast _ t, h =>
    Term.notMem_unhandled hnames t (List.forall_mem_cons.mp h).2
  | .key _ t u, h | .binary _ _ t u, h | .cond _ t u none, h =>
    have h := List.forall_mem_append.mp (List.forall_mem_cons.mp h).2
    List.not_mem_append (Term.notMem_unhandled hnames t h.1) (Term.notMem_unhandled hnames u h.2)
  | .call _ f args _, h =>
    have h := List.forall_mem_append.mp (List.forall_mem_cons.mp h).2
    List.not_mem_append (Term.notMem_unhandled hnames f h.1)
      (Term.notMem_unhandledAll_of_nodes hnames args h.2)
  | .cond _ c t (some u), h =>
    have h := List.forall_mem_append.mp (List.forall_mem_cons.mp h).2
    have h' := List.forall_mem_append.mp h.2
    List.not_mem_append (Term.notMem_unhandled hnames c h.1)
      (List.not_mem_append (Term.notMem_unhandled hnames t h'.1) (Term.notMem_unhandled hnames u h'.2))
  | .function _ _ body _, h => Stmt.notMem_unhandledAll_of_nodes hnames body (List.forall_mem_cons.mp h).2
  | .pooled key t, h => by
    rw [Term.unhandled]
    split
    · next n hn => exact fun hx => hnames key (List.mem_singleton.mp hx ▸ hn)
    · exact Term.notMem_unhandled hnames t (List.forall_mem_cons.mp h).2

theorem Term.notMem_unhandledAll_of_nodes {listens : Bool} (hnames : ∀ key, names key ≠ some x) :
    ∀ ts : List Term, (∀ u ∈ Term.nodesAll ts, u.varName? ≠ some x) → x ∉ Term.unhandledAll names listens ts
  | [], _ => List.not_mem_nil
  | t :: ts, h =>
    have h := List.forall_mem_append.mp h
    List.not_mem_append (fun hx => Term.notMem_unhandled hnames t h.1 (List.mem_of_mem_filter hx))
      (Term.notMem_unhandledAll_of_nodes hnames ts h.2)

theorem Term.notMem_unhandledEntries (hnames : ∀ key, names key ≠ some x) : ∀ es : List (MapKey × Term),
    (∀ u ∈ Term.nodesEntries es, u.varName? ≠ some x) → x ∉ Term.unhandledEntries names es
  | [], _ => List.not_mem_nil
  | (_, t) :: es, h =>
    have h := List.forall_mem_append.mp h
    List.not_mem_append (Term.notMem_unhandled hnames t h.1) (Term.notMem_unhandledEntries hnames es h.2)

theorem Stmt.notMem_unhandled (hnames : ∀ key, names key ≠ some x) : ∀ s : Stmt,
    (∀ u ∈ s.nodes, u.varName? ≠ some x) → x ∉ s.unhandled names
  | .declare _ _ _ none, _ => List.not_mem_nil
  | .declare _ _ _ (some t), h | .expr _ t, h | .ret _ t, h => Term.notMem_unhandled hnames t h
  | .function _ _ _ _ body, h => Stmt.notMem_unhandledAll_of_nodes hnames body h
  | .branch _ c yes no, h =>
    have h := List.forall_mem_append.mp h
    have h' := List.forall_mem_append.mp h.2
    List.not_mem_append (Term.notMem_unhandled hnames c h.1)
      (List.not_mem_append (Stmt.notMem_unhandledAll_of_nodes hnames yes h'.1)
        (Stmt.notMem_unhandledAll_of_nodes hnames no h'.2))

theorem Stmt.notMem_unhandledAll_of_nodes (hnames : ∀ key, names key ≠ some x) : ∀ ss : List Stmt,
    (∀ u ∈ Stmt.nodesAll ss, u.varName? ≠ some x) → x ∉ Stmt.unhandledAll names ss
  | [], _ => List.not_mem_nil
  | s :: ss, h =>
    have h := List.forall_mem_append.mp h
    List.not_mem_append (Stmt.notMem_unhandled hnames s h.1) (Stmt.notMem_unhandledAll_of_nodes hnames ss h.2)

end

end Variables

/-! ### Pools -/

section Data

variable {names : Names} {given : Term → Term → Prop} {now later : Text → Prop} {x : Text}

mutual

/-- Data reads what is bound where it stands. -/
theorem Term.Scoped.of_mem_unhandled : ∀ {t : Term}, t.Scoped names given now later → t.IsData →
    x ∈ t.unhandled names → now x
  | .var _ y, h, _, hx => List.mem_singleton.mp hx ▸ h
  | .lit .., _, _, hx | .external .., _, _, hx => nomatch hx
  | .array _ ts, h, hdata, hx => Term.ScopedAll.of_mem_unhandled h hdata hx
  | .map _ es, h, hdata, hx => Term.ScopedEntries.of_mem_unhandled h hdata hx
  | .pooled _ _, ⟨n, hn, h⟩, _, hx => by
    rw [Term.unhandled, hn] at hx
    exact List.mem_singleton.mp hx ▸ h
  | .prop .., _, hdata, _ | .key .., _, hdata, _ | .call .., _, hdata, _ | .function .., _, hdata, _
  | .binary .., _, hdata, _ | .cond .., _, hdata, _ | .not .., _, hdata, _ | .present .., _, hdata, _
  | .cast .., _, hdata, _ => hdata.elim

theorem Term.ScopedAll.of_mem_unhandled : ∀ {ts : List Term},
    Term.ScopedAll names given (fun _ => False) now later ts → Term.IsDataAll ts →
    x ∈ Term.unhandledAll names false ts → now x
  | [], _, _, hx => nomatch hx
  | _ :: _, h, hdata, hx =>
    (List.mem_append.mp hx).elim
      (fun hx => Term.Scoped.of_mem_unhandled (h.1.resolve_left id) hdata.1 (List.mem_of_mem_filter hx))
      (Term.ScopedAll.of_mem_unhandled h.2 hdata.2)

theorem Term.ScopedEntries.of_mem_unhandled : ∀ {es : List (MapKey × Term)},
    Term.ScopedEntries names given now later es → Term.IsDataEntries es →
    x ∈ Term.unhandledEntries names es → now x
  | [], _, _, hx => nomatch hx
  | (_, _) :: _, h, hdata, hx =>
    (List.mem_append.mp hx).elim (Term.Scoped.of_mem_unhandled h.1 hdata.1)
      (Term.ScopedEntries.of_mem_unhandled h.2 hdata.2)

end

end Data

namespace Pool

variable {names : Names} {earlier : Text → Prop} {pool : Pool} {t : Term} {ss : List Stmt} {x : Text}

/-- What a pool declares reads what was declared before, and parameters. -/
theorem Value.of_mem_unhandled (h : Value t) (ht : t.Scoped names NoneGiven earlier earlier)
    (hx : x ∈ t.unhandled names) : earlier x ∨ ∃ n, x = parameter n := by
  cases h with
  | data hdata => exact .inl (ht.of_mem_unhandled hdata hx)
  | @factory params result hparams hdata =>
      obtain ⟨-, hresult, -⟩ := ht
      have hx : x ∈ result.unhandled names := (List.append_nil (result.unhandled names)) ▸ hx
      rcases hresult.of_mem_unhandled hdata hx with hx | hx | hx
      · cases hx
      · exact .inr (hparams x hx)
      · exact .inl hx

/-- What is declared one after the other reads constants and parameters. -/
theorem of_mem_unhandledAll (h : Stmt.WellScoped names NoneGiven earlier ss)
    (hvalues : ∀ s ∈ ss, ∃ n t, s = .const n t ∧ Value t) (hearlier : ∀ y, earlier y → IsConstantName y)
    (hx : x ∈ Stmt.unhandledAll names ss) : IsConstantName x ∨ ∃ n, x = parameter n := by
  induction ss generalizing earlier with
  | nil => cases hx
  | cons s ss ih =>
      obtain ⟨hnamed, hs, hss⟩ := h
      obtain ⟨hvalue, hvalues⟩ := List.forall_mem_cons.mp hvalues
      rcases List.mem_append.mp hx with hx | hx
      · obtain ⟨n, t, rfl, ht⟩ := hvalue
        exact (ht.of_mem_unhandled hs hx).imp_left (hearlier x)
      · exact ih hss hvalues (fun y hy => hy.elim (hnamed y) (hearlier y)) hx

theorem isConstantName_of_wellScoped (h : Stmt.WellScoped names NoneGiven earlier ss) :
    ∀ y ∈ Stmt.variablesIn ss, IsConstantName y := by
  induction ss generalizing earlier with
  | nil => exact List.forall_mem_nil _
  | cons s ss ih =>
      intro y hy
      exact (Stmt.mem_variablesIn_cons.mp hy).elim (h.1 y) (ih h.2.2 y)

theorem Sound.isConstantName (h : pool.Sound) (hx : pool.Declares x) : IsConstantName x :=
  isConstantName_of_wellScoped h.statements x hx

/-- A constant reads constants. -/
theorem Sound.of_mem_unhandled (h : pool.Sound) (ht : pool.Constant t) (hx : x ∈ t.unhandled pool.names) :
    IsConstantName x :=
  h.isConstantName (ht.closed.of_mem_unhandled (Term.isData_of_isConstant t ht.isConstant) hx)

/-- A pool that was empty reads its own constants, and its factories their parameters. -/
theorem Sound.of_mem_unhandledAll (h : pool.Sound) (hgrown : Pool.le {} pool)
    (hx : x ∈ Stmt.unhandledAll pool.names pool.statements) : IsConstantName x ∨ ∃ n, x = parameter n := by
  obtain ⟨ss, hss, hvalues⟩ := hgrown.added
  rw [List.nil_append] at hss
  exact Pool.of_mem_unhandledAll h.statements (hss ▸ hvalues) (fun _ hnone => hnone.elim) hx

end Pool

end TemplateCompiler
