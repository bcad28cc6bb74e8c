import Mathlib.Data.List.Flatten
import Mathlib.Data.List.Perm.Subperm
import TemplateCompiler.Proofs.Code.Calls
import TemplateCompiler.Proofs.Template.Host

/-!
# Accounting for pure slots

Pipes and pure functions remember their last values in *blocks* of pure slots, which their calls name.
A pure function takes a new block whenever its code is made, also if the same expression is lowered
twice. So no block is named by two calls, which is best seen by keeping books:

* `RuntimeCall.block?` : the block that a call names;
* `Tiles a bs b` : the blocks `bs` of pure functions cover the slots from `a` up to `b`;
* `Spends p post` : what a step of a lowering takes, and what it makes of it;
* `spends_lower` : the calls of pure functions in the code of an expression name blocks that were taken
  for it, each at most once, and each exactly once if no value of a map is dropped.
-/

namespace TemplateCompiler

/-! ### Blocks -/

/-- A block of pure slots. -/
structure Block where
  /-- The data slot of the pipe that it belongs to, if it is no pure function's. -/
  pipe : Option Nat
  start : Nat
  stop : Nat
  deriving DecidableEq

def Term.nat? : Term → Option Nat
  | .lit _ (.int n) => if 0 ≤ n then some n.toNat else none
  | _ => none

theorem Term.nat?_ofNat (n : Nat) : (Term.ofNat n).nat? = some n := by
  simp [Term.ofNat, Term.ofValue, Term.nat?]

namespace RuntimeCall

/-- The values that a call of a family of instructions has after its first two arguments. They stand one
by one, or in an array if there are more than `limit`. -/
def values? (family : Int → Instruction) (limit : Nat) (c : RuntimeCall) : Option (List Term) :=
  match c.args with
  | _ :: _ :: rest =>
    if c.name = (family (limit + 1)).name then
      match rest with
      | [.array _ values] => some values
      | _ => none
    else if c.name = (family rest.length).name then some rest
    else none
  | _ => none

def pipeBlock? (c : RuntimeCall) : Option Block :=
  match c.args, c.values? Instruction.pipeBind Instruction.maxPipeBind with
  | slot :: offset :: _, some values =>
    match slot.nat?, offset.nat? with
    | some slot, some offset => some ⟨some slot, offset, offset + (1 + values.length)⟩
    | _, _ => none
  | _, _ => none

def pureBlock? (c : RuntimeCall) : Option Block :=
  match c.args, c.values? Instruction.pureFunction Instruction.maxPureFunction with
  | offset :: _, some values => offset.nat?.map fun offset => ⟨none, offset, offset + (1 + values.length)⟩
  | _, _ => none

def block? (c : RuntimeCall) : Option Block := c.pipeBlock?.or c.pureBlock?

end RuntimeCall

namespace Instruction

/-- What the names of the instructions for pipes start with. -/
def pipeFront : Text := "ɵɵpipeBind"

/-- What the names of the instructions for pure functions start with. -/
def pureFront : Text := "ɵɵpureFunction"

/-- Whether a name is neither that of a pipe nor that of a pure function. -/
def isPlain (name : Text) : Bool :=
  name.take pipeFront.length != pipeFront && name.take pureFront.length != pureFront

theorem name_ne_pipeBind {name : Text} (h : name.take pipeFront.length ≠ pipeFront) (n : Int) :
    name ≠ (pipeBind n).name := by
  rintro rfl
  exact h rfl

theorem name_ne_pureFunction {name : Text} (h : name.take pureFront.length ≠ pureFront) (n : Int) :
    name ≠ (pureFunction n).name := by
  rintro rfl
  exact h rfl

theorem pipeBind_ne_pureFunction (n m : Int) : (pipeBind n).name ≠ (pureFunction m).name := by
  intro heq
  have hbyte : some (105 : UInt8) = some 117 := congrArg (fun name : Text => name[5]?) heq
  cases hbyte

theorem values?_of_ne {family : Int → Instruction} {c : RuntimeCall}
    (h : ∀ n, c.name ≠ (family n).name) (limit : Nat) : c.values? family limit = none := by
  unfold RuntimeCall.values?
  split
  · rw [if_neg (h _), if_neg (h _)]
  · rfl

/-- Arguments that were spread can be read back. -/
theorem values?_spread {family : Int → Instruction} {limit : Nat} (a b : Term) (args : List Term)
    (hmany : ∀ n : Nat, limit < n → (family n).name = (family (limit + 1)).name)
    (hfew : args.length ≤ limit → (family args.length).name ≠ (family (limit + 1)).name) :
    RuntimeCall.values? family limit ⟨(family args.length).name, a :: b :: spread limit args⟩ =
      some args := by
  unfold RuntimeCall.values? spread
  by_cases h : limit < args.length
  · rw [if_pos h]
    dsimp only
    rw [if_pos (hmany _ h)]
    rfl
  · rw [if_neg h]
    dsimp only
    rw [if_neg (hfew (Nat.le_of_not_lt h)), if_pos rfl]

theorem arity_of_lt {lo hi n : Int} (h : hi < n) : arity lo hi n = "V" :=
  if_neg fun hn => absurd hn.2 (Int.not_le.mpr h)

theorem ofInt_natCast_ne (n : Nat) : Text.ofInt n ≠ "V" := by
  intro h
  have hmem : (86 : UInt8) ∈ Text.ofNat n := by
    have : Text.ofInt n = Text.ofNat n := by
      rw [Text.ofInt, if_neg (by omega), Int.natAbs_natCast]
    rw [← this, h]
    decide
  exact absurd (Text.isDigit_of_mem_ofNat hmem) (by decide)

theorem values?_pureFunction (a b : Term) (args : List Term) :
    RuntimeCall.values? pureFunction maxPureFunction
      ⟨(pureFunction args.length).name, a :: b :: spread maxPureFunction args⟩ = some args := by
  refine values?_spread a b args (fun n hn => ?_) fun hn heq => ?_
  · rw [name, name, arity_of_lt (by exact_mod_cast hn), arity_of_lt (by decide)]
  · rw [name, name, arity_of_lt (n := maxPureFunction + 1) (by decide), arity,
      if_pos ⟨by omega, by exact_mod_cast hn⟩] at heq
    exact ofInt_natCast_ne _ (List.append_cancel_left heq)

theorem values?_pipeBind (a b : Term) {args : List Term} (hargs : args ≠ []) :
    RuntimeCall.values? pipeBind maxPipeBind
      ⟨(pipeBind args.length).name, a :: b :: spread maxPipeBind args⟩ = some args := by
  have hpos : 1 ≤ args.length := List.length_pos_of_ne_nil hargs
  refine values?_spread a b args (fun n hn => ?_) fun hn heq => ?_
  · rw [name, name, arity_of_lt (by exact_mod_cast hn), arity_of_lt (by decide)]
  · rw [name, name, arity_of_lt (n := maxPipeBind + 1) (by decide), arity,
      if_pos ⟨by omega, by exact_mod_cast hn⟩] at heq
    exact ofInt_natCast_ne _ (List.append_cancel_left heq)

end Instruction

def pureBlock (offset count : Nat) : Block := ⟨none, offset, offset + (1 + count)⟩

def pipeBlock (slot offset count : Nat) : Block := ⟨some slot, offset, offset + (1 + count)⟩

@[simp] theorem pureBlock?_pureFunction (offset : Nat) (b : Term) (args : List Term) :
    RuntimeCall.pureBlock? ⟨(Instruction.pureFunction args.length).name,
      .ofNat offset :: b :: Instruction.spread Instruction.maxPureFunction args⟩ =
        some (pureBlock offset args.length) := by
  unfold RuntimeCall.pureBlock?
  rw [Instruction.values?_pureFunction]
  dsimp only
  rw [Term.nat?_ofNat]
  rfl

@[simp] theorem pipeBlock?_pipeBind (slot offset : Nat) {args : List Term} (h : args ≠ []) :
    RuntimeCall.pipeBlock? ⟨(Instruction.pipeBind args.length).name,
      .ofNat slot :: .ofNat offset :: Instruction.spread Instruction.maxPipeBind args⟩ =
        some (pipeBlock slot offset args.length) := by
  unfold RuntimeCall.pipeBlock?
  rw [Instruction.values?_pipeBind _ _ h]
  dsimp only
  rw [Term.nat?_ofNat, Term.nat?_ofNat]
  rfl

theorem pureBlock?_of_ne {c : RuntimeCall} (h : ∀ n, c.name ≠ (Instruction.pureFunction n).name) :
    c.pureBlock? = none := by
  unfold RuntimeCall.pureBlock?
  rw [Instruction.values?_of_ne h]
  split <;> simp_all

theorem pipeBlock?_of_ne {c : RuntimeCall} (h : ∀ n, c.name ≠ (Instruction.pipeBind n).name) :
    c.pipeBlock? = none := by
  unfold RuntimeCall.pipeBlock?
  rw [Instruction.values?_of_ne h]
  split <;> simp_all

/-- Other instructions name no blocks. -/
theorem block?_of_isPlain {c : RuntimeCall} (h : Instruction.isPlain c.name = true) :
    c.pipeBlock? = none ∧ c.pureBlock? = none := by
  rw [Instruction.isPlain, Bool.and_eq_true, bne_iff_ne, bne_iff_ne] at h
  exact ⟨pipeBlock?_of_ne (Instruction.name_ne_pipeBind h.1),
    pureBlock?_of_ne (Instruction.name_ne_pureFunction h.2)⟩

def pureBlocks (cs : List RuntimeCall) : List Block := cs.filterMap RuntimeCall.pureBlock?

theorem pureBlocks_append (cs cs' : List RuntimeCall) :
    pureBlocks (cs ++ cs') = pureBlocks cs ++ pureBlocks cs' := List.filterMap_append

theorem pureBlocks_pureCode (slot : Nat) (name : Text) (args : List Term) :
    pureBlocks (pureCode slot (.ofVar name) args).calls =
      pureBlock slot args.length :: pureBlocks (Term.callsAll args) := by
  rw [pureCode, Instruction.calls_call, pureBlocks, List.filterMap_cons_some (pureBlock?_pureFunction ..),
    Term.callsAll, Term.callsAll, Instruction.callsAll_spread, Term.calls_ofNat, Term.calls_ofVar]
  rfl

theorem pureBlocks_pipeCode (slot offset : Nat) (args : List Term) :
    pureBlocks (pipeCode slot offset args).calls = pureBlocks (Term.callsAll args) := by
  have hne : ∀ n, (Instruction.pipeBind args.length).name ≠ (Instruction.pureFunction n).name :=
    fun n => Instruction.pipeBind_ne_pureFunction args.length n
  rw [pipeCode, Instruction.calls_call, pureBlocks, List.filterMap_cons_none (pureBlock?_of_ne hne),
    Term.callsAll, Term.callsAll, Instruction.callsAll_spread, Term.calls_ofNat, Term.calls_ofNat]
  rfl

/-- Blocks of pure functions that cover the slots from `a` up to `b`. -/
def Tiles : (a : Nat) → List Block → (b : Nat) → Prop
  | a, [], b => a = b
  | a, x :: xs, b => x.pipe = none ∧ x.start = a ∧ a < x.stop ∧ Tiles x.stop xs b

theorem Tiles.append {bs bs' : List Block} {b c : Nat} : ∀ {a : Nat}, Tiles a bs b → Tiles b bs' c →
    Tiles a (bs ++ bs') c := by
  induction bs with
  | nil =>
      rintro a rfl h
      exact h
  | cons x bs ih => exact fun h h' => ⟨h.1, h.2.1, h.2.2.1, ih h.2.2.2 h'⟩

/-! ### Accounts -/

def Accounts (full : Prop) (l bs : List Block) : Prop := l.Subperm bs ∧ (full → l.Perm bs)

namespace Accounts

variable {full : Prop} {l l' bs bs' : List Block}

theorem of_perm (h : l.Perm bs) : Accounts full l bs := ⟨h.subperm, fun _ => h⟩

theorem append (h : Accounts full l bs) (h' : Accounts full l' bs') :
    Accounts full (l ++ l') (bs ++ bs') :=
  ⟨h.1.append h'.1, fun hf => (h.2 hf).append (h'.2 hf)⟩

theorem perm_left (h : Accounts full l bs) (hl : l'.Perm l) : Accounts full l' bs :=
  ⟨hl.subperm.trans h.1, fun hf => hl.trans (h.2 hf)⟩

theorem trans (h : Accounts full l l') (h' : Accounts full l' bs) : Accounts full l bs :=
  ⟨h.1.trans h'.1, fun hf => (h.2 hf).trans (h'.2 hf)⟩

end Accounts

/-- Code whose pure functions have the blocks `bs`, and that is no runtime function itself. -/
structure Holds (full : Prop) (bs : List Block) (t : Term) : Prop where
  runtime : t.runtime? = none
  accounts : Accounts full (pureBlocks t.calls) bs

/-- Several terms whose pure functions have the blocks `bs`. -/
structure HoldsAll (full : Prop) (bs : List Block) (ts : List Term) : Prop where
  runtime : ∀ t ∈ ts, t.runtime? = none
  accounts : Accounts full (pureBlocks (Term.callsAll ts)) bs

/-- What a step of a lowering takes: blocks `bs` of pure slots, with which the result has `post`. -/
def Spends {α : Type} (p : Lower Assembly α) (post : List Block → α → Prop) : Prop :=
  ∀ s a s', outcome p s = (.ok a, s') →
    ∃ bs, Tiles s.host.unit.pureSlots bs s'.host.unit.pureSlots ∧ post bs a

section Rules

variable {α β : Type} {post : List Block → α → Prop}

theorem spends_pure {a : α} (h : post [] a) : Spends (pure a) post := by
  intro s b s' hrun
  cases hrun
  exact ⟨[], rfl, h⟩

theorem spends_throw {f : Failure} : Spends (throw f : Lower Assembly α) post := by
  intro s b s' hrun
  cases hrun

/-- A step that fails at the end. -/
theorem spends_bind_throw {p : Lower Assembly β} {f : β → Failure} :
    Spends (p >>= fun a => throw (f a)) post := by
  intro s b s' hrun
  obtain ⟨a, s₁, -, hthrow⟩ := outcome_bind_ok.mp hrun
  cases hthrow

/-- One step after the other. -/
theorem spends_bind {p : Lower Assembly β} {q : β → Lower Assembly α} {mid : List Block → β → Prop}
    (hp : Spends p mid) (hq : ∀ a bs, mid bs a → Spends (q a) fun bs' t => post (bs ++ bs') t) :
    Spends (p >>= q) post := by
  intro s t s'' hrun
  obtain ⟨a, s', hps, hqs⟩ := outcome_bind_ok.mp hrun
  obtain ⟨bs, htiles, hmid⟩ := hp s a s' hps
  obtain ⟨bs', htiles', hpost⟩ := hq a bs hmid s' t s'' hqs
  exact ⟨bs ++ bs', htiles.append htiles', hpost⟩

theorem spends_map {p : Lower Assembly β} {g : β → α} {mid : List Block → β → Prop}
    (hp : Spends p mid) (h : ∀ bs a, mid bs a → post bs (g a)) :
    Spends (p >>= fun a => pure (g a)) post := by
  refine spends_bind hp fun a bs hmid => spends_pure ?_
  rw [List.append_nil]
  exact h bs a hmid

theorem spends_mono {p : Lower Assembly α} {mid : List Block → α → Prop} (hp : Spends p mid)
    (h : ∀ bs a, mid bs a → post bs a) : Spends p post := by
  intro s a s' hrun
  obtain ⟨bs, htiles, hmid⟩ := hp s a s' hrun
  exact ⟨bs, htiles, h bs a hmid⟩

/-- A step that takes nothing. -/
theorem spends_free {p : Lower Assembly β} {q : β → Lower Assembly α}
    (hp : ∀ s a s', outcome p s = (.ok a, s') →
      s'.host.unit.pureSlots = s.host.unit.pureSlots) (hq : ∀ a, Spends (q a) post) :
    Spends (p >>= q) post := by
  intro s t s'' hrun
  obtain ⟨a, s', hps, hqs⟩ := outcome_bind_ok.mp hrun
  obtain ⟨bs, htiles, hpost⟩ := hq a s' t s'' hqs
  rw [hp s a s' hps] at htiles
  exact ⟨bs, htiles, hpost⟩

theorem spends_get {q : Lowering Assembly → Lower Assembly α} (h : ∀ s, Spends (q s) post) :
    Spends (get >>= q) post :=
  spends_free (fun s a s' hrun => by cases hrun; rfl) h

theorem spends_modify {q : Lower Assembly α} (used : Bool) (h : Spends q post) :
    Spends (modify (fun s => { s with usesContext := used }) >>= fun _ => q) post :=
  spends_free (fun s a s' hrun => by cases hrun; rfl) fun _ => h

end Rules

/-! ### The parts of a lowering -/

/-- Interpolations pass their values on, but for the count. -/
def PassesOn (interpolate : List Term → Except Failure Term) : Prop :=
  ∀ args t, interpolate args = .ok t → ∃ n vs, t = (Instruction.interpolation n).call vs ∧
    (vs = args.drop 1 ∨ vs = [.ofList (args.drop 1)])

theorem PassesOn.calls_eq {interpolate : List Term → Except Failure Term} (h : PassesOn interpolate)
    {args : List Term} {t : Term} (ht : interpolate args = .ok t) : t.runtime? = none ∧
      ∃ n vs, t.calls = ⟨(Instruction.interpolation n).name, vs⟩ :: Term.callsAll (args.drop 1) := by
  obtain ⟨n, vs, rfl, hvs⟩ := h args t ht
  refine ⟨rfl, n, vs, ?_⟩
  rw [Instruction.calls_call]
  rcases hvs with rfl | rfl
  · rfl
  · simp [Term.callsAll]

namespace Holds

variable {full : Prop} {bs bs' bs'' : List Block} {c t u : Term} {ts : List Term} {name : Text}

theorem of_calls_eq_nil (hr : t.runtime? = none) (hc : t.calls = []) : Holds full [] t :=
  ⟨hr, by rw [hc]; exact .of_perm (.refl _)⟩

/-- A term with the calls of another. -/
theorem congr (h : Holds full bs t) (hr : u.runtime? = none) (hc : u.calls = t.calls) :
    Holds full bs u := ⟨hr, hc ▸ h.accounts⟩

/-- A term with the calls of two others. -/
theorem pair (ht : Holds full bs t) (hu : Holds full bs' u) {w : Term} (hr : w.runtime? = none)
    (hc : w.calls = t.calls ++ u.calls) : Holds full (bs ++ bs') w := by
  refine ⟨hr, ?_⟩
  rw [hc, pureBlocks_append]
  exact ht.accounts.append hu.accounts

theorem cons (ht : Holds full bs t) (hts : HoldsAll full bs' ts) :
    HoldsAll full (bs ++ bs') (t :: ts) := by
  refine ⟨List.forall_mem_cons.mpr ⟨ht.runtime, hts.runtime⟩, ?_⟩
  rw [Term.callsAll, pureBlocks_append]
  exact ht.accounts.append hts.accounts

theorem guardCode (hc : Holds full bs c) (ht : Holds full bs' t) :
    Holds full (bs ++ bs') (Answers.guardCode c t) := by
  refine hc.pair ht rfl ?_
  simp [Answers.guardCode]

end Holds

/-- A call whose arguments were lowered before what is called. -/
theorem HoldsAll.call {full : Prop} {bs bs' : List Block} {c t : Term} {ts : List Term}
    (hts : HoldsAll full bs ts) (hc : Holds full bs' c) (hr : t.runtime? = none)
    (hcalls : t.calls = c.calls ++ Term.callsAll ts) : Holds full (bs ++ bs') t := by
  refine ⟨hr, ?_⟩
  rw [hcalls, pureBlocks_append]
  exact (hts.accounts.append hc.accounts).perm_left List.perm_append_comm

/-- A host that takes pure slots for pure functions only. -/
structure Thrifty (host : Host Assembly) : Prop where
  context : host.context.runtime? = none ∧ host.context.calls = []
  lookup : ∀ name s, ((host.lookup name).run s).2.unit.pureSlots = s.unit.pureSlots ∧
    ∀ f, ((host.lookup name).run s).1 = some f →
      (f.made host.context).code.runtime? = none ∧ (f.made host.context).code.calls = []
  builtin : ∀ {full : Prop} {kind ts bs s t s'}, HoldsAll full bs ts → (full → kind.used ts = ts) →
    outcome (host.builtin kind ts) s = (.ok t, s') →
    ∃ bs', Tiles s.unit.pureSlots bs' s'.unit.pureSlots ∧ Holds full (bs ++ bs') t
  interpolate : PassesOn host.interpolate

section Steps

variable {host : Host Assembly} {full : Prop}

theorem spends_lookup (hhost : Thrifty host) (name : Text) :
    Spends (Lower.onHost (host.lookup name)) fun bs found =>
      bs = [] ∧ ∀ f, found = some f →
        (f.made host.context).code.runtime? = none ∧ (f.made host.context).code.calls = [] := by
  intro s found s' hrun
  cases hrun
  exact ⟨[], (hhost.lookup name s.host).1.symm, rfl, (hhost.lookup name s.host).2⟩

theorem spends_localOf (hhost : Thrifty host) (r : Lowered) (name : Text) (used : Bool) :
    Spends (Expr.localOf host r name used) fun bs found => bs = [] ∧
      ∀ m, found = some m → r.isContext = true ∧ m.code.runtime? = none ∧ m.code.calls = [] := by
  unfold Expr.localOf
  by_cases hr : r.isContext = true
  · rw [if_pos hr]
    refine spends_bind (spends_lookup hhost name) fun found bs hfound => ?_
    cases found with
    | some f =>
        refine spends_modify used (spends_pure ⟨by rw [hfound.1]; rfl, fun m hm => ?_⟩)
        cases hm
        exact ⟨hr, hfound.2 f rfl⟩
    | none => exact spends_pure ⟨by rw [hfound.1]; rfl, by rintro _ ⟨⟩⟩
  · rw [if_neg hr]
    exact spends_pure ⟨rfl, by rintro _ ⟨⟩⟩

/-- Code that may be the context itself, which takes nothing. -/
def HoldsMade (full : Prop) (bs : List Block) (m : Lowered) : Prop :=
  Holds full bs m.code ∧ (m.isContext = true → bs = [])

theorem Holds.made {bs : List Block} {t : Term} (h : Holds full bs t) : HoldsMade full bs ⟨t, false⟩ :=
  ⟨h, nofun⟩

theorem spends_fresh {code : Lower Assembly Term} (h : Spends code (Holds full)) :
    Spends code.fresh (HoldsMade full) := spends_map h fun _ _ ht => ht.made

theorem spends_code {made : Lower Assembly Lowered} (h : Spends made (HoldsMade full)) :
    Spends made.code (Holds full) := spends_map h fun _ _ hm => hm.1

theorem spends_readCode (hhost : Thrifty host) {code : Lower Assembly Lowered} {name : Text}
    (hc : Spends code (HoldsMade full)) : Spends (Expr.readCode host name code) (HoldsMade full) := by
  unfold Expr.readCode
  refine spends_get fun s => spends_bind hc fun c bs hbs => ?_
  refine spends_bind (spends_localOf hhost c name _) fun found bs' hfound => ?_
  rw [hfound.1]
  cases found with
  | some m =>
      obtain ⟨hr, hmr, hmc⟩ := hfound.2 m rfl
      rw [hbs.2 hr]
      exact spends_pure ⟨.of_calls_eq_nil hmr hmc, fun _ => rfl⟩
  | none =>
      refine spends_pure (Holds.made ?_)
      rw [List.append_nil, List.append_nil]
      exact hbs.1.congr rfl (Term.calls_prop ..)

theorem spends_methodCode (hhost : Thrifty host) {args : Lower Assembly (List Term)}
    {code : Lower Assembly Lowered} {place : Place} {r : Expr} {name : Text}
    (ha : Spends args (HoldsAll full)) (hc : Spends code (HoldsMade full)) :
    Spends (Expr.methodCode host place r name args code) (Holds full) := by
  unfold Expr.methodCode
  refine spends_bind ha fun ts bs hts => ?_
  split
  · split
    · next a =>
        refine spends_pure ?_
        rw [List.append_nil]
        refine ⟨rfl, ?_⟩
        have h := hts.accounts
        rw [Term.callsAll, Term.callsAll, List.append_nil] at h
        rwa [Term.calls_erased]
    · exact spends_throw
  · refine spends_get fun s => spends_bind hc fun c bs' hbs => ?_
    refine spends_bind (spends_localOf hhost c name _) fun found bs'' hfound => ?_
    rw [hfound.1]
    cases found with
    | some m =>
        obtain ⟨hr, hmr, hmc⟩ := hfound.2 m rfl
        rw [hbs.2 hr]
        exact spends_pure (hts.call (.of_calls_eq_nil hmr hmc) rfl (Term.calls_apply ts hmr))
    | none =>
        refine spends_pure ?_
        rw [List.append_nil, List.append_nil]
        exact hts.call hbs.1 rfl (Term.calls_applyMethod ..)

theorem spends_targetCode (hhost : Thrifty host) {code : Lower Assembly Lowered} {place : Place}
    {v : Expr} {name : Text} (hc : Spends code (HoldsMade full)) :
    Spends (Expr.targetCode host place name v code) (Holds full) := by
  unfold Expr.targetCode
  refine spends_get fun s => spends_bind hc fun c bs hbs => ?_
  have hprop : Spends (pure (.prop {} c.code name)) fun bs' t => Holds full (bs ++ bs') t := by
    refine spends_pure ?_
    rw [List.append_nil]
    exact hbs.1.congr rfl (Term.calls_prop ..)
  by_cases hr : c.isContext = true
  · rw [if_pos hr]
    refine spends_bind (spends_lookup hhost name) fun found bs' hfound => ?_
    rw [hfound.1]
    split
    · next note o field _ heq =>
        obtain ⟨f, rfl, hf⟩ := Option.map_eq_some_iff.mp heq
        have hquiet := hfound.2 f rfl
        rw [hf] at hquiet
        rw [hbs.2 hr]
        exact spends_modify _ (spends_pure (.of_calls_eq_nil hquiet.1 hquiet.2))
    · exact spends_bind_throw
    · exact hprop
  · rw [if_neg hr]
    exact hprop

theorem Term.callsAll_interpolationArgs {ts : List Term} : ∀ {texts : List Text},
    texts.length = ts.length + 1 →
      Term.callsAll (Expr.interpolationArgs texts ts) = Term.callsAll ts := by
  induction ts with
  | nil =>
      intro texts h
      match texts, h with
      | [text], _ => simp [Expr.interpolationArgs, Term.callsAll]
  | cons t ts ih =>
      intro texts h
      match texts, h with
      | text :: texts, h =>
        rw [Expr.interpolationArgs, Term.callsAll, Term.callsAll, Term.callsAll, Term.calls_ofText,
          ih (Nat.succ.inj h)]
        rfl

theorem spends_interpolate (hhost : Thrifty host) {ts : List Term} {bs : List Block} {n : Nat}
    {texts : List Text} (hlength : texts.length = ts.length + 1) (hts : HoldsAll full bs ts)
    (range : Option Span) :
    Spends (match host.interpolate (.ofNat n :: Expr.interpolationArgs texts ts) with
      | .ok t => pure t
      | .error f => throw (f.locateRange range) : Lower Assembly Term)
      fun bs' t => Holds full (bs ++ bs') t := by
  cases h : host.interpolate (.ofNat n :: Expr.interpolationArgs texts ts) with
  | error f => exact spends_throw
  | ok t =>
      obtain ⟨hr, n, vs, hcalls⟩ := hhost.interpolate.calls_eq h
      refine spends_pure ⟨hr, ?_⟩
      rw [hcalls, List.drop_succ_cons, List.drop_zero, Term.callsAll_interpolationArgs hlength,
        List.append_nil, pureBlocks, List.filterMap_cons_none (block?_of_isPlain rfl).2]
      exact hts.accounts

theorem spends_builtin (hhost : Thrifty host) {kind : Builtin} {args : Lower Assembly (List Term)}
    {count : Nat} (hargs : Spends args fun bs ts => HoldsAll full bs ts ∧ ts.length = count)
    (hused : full → ∀ ts : List Term, ts.length = count → kind.used ts = ts) :
    Spends (do Lower.onHostE (host.builtin kind (← args))) (Holds full) := by
  refine spends_bind hargs fun ts bs hts => ?_
  intro s t s' hrun
  rw [outcome_onHostE] at hrun
  rcases hbuiltin : outcome (host.builtin kind ts) s.host with ⟨f | u, h'⟩
  · rw [hbuiltin] at hrun
    cases hrun
  · rw [hbuiltin] at hrun
    cases hrun
    exact hhost.builtin hts.1 (fun hf => hused hf ts hts.2) hbuiltin

/-- A temporary is live while `q` runs, which takes nothing. -/
theorem spends_bracket {α β : Type} {q : Temporary → Lower Assembly β} {g : Temporary → β → α}
    {mid : Temporary → List Block → β → Prop} {post : List Block → α → Prop}
    (hq : ∀ t, Spends (q t) (mid t)) (h : ∀ t bs a, mid t bs a → post bs (g t a)) :
    Spends (do
      let t ← Lower.allocate
      let a ← q t
      Lower.release t
      return g t a) post := by
  refine spends_free (fun s a s' hrun => by cases hrun; rfl) fun t => ?_
  refine spends_bind (hq t) fun a bs hmid => ?_
  refine spends_free (fun s u s' hrun => ?_) fun _ => spends_pure ?_
  · unfold Lower.release at hrun
    rw [outcome_bind, outcome_get] at hrun
    dsimp only at hrun
    split at hrun
    · cases hrun
      rfl
    · cases hrun
  · rw [List.append_nil]
    exact h t bs a hmid

/-- Temporaries that stand for receivers call nothing. -/
def Pins.Quiet (pins : Pins) : Prop := ∀ t, some t ∈ pins → t.runtime? = none ∧ t.calls = []

theorem Pins.Quiet.append {pins : Pins} (h : pins.Quiet) {pin : Option Term}
    (hpin : ∀ t, pin = some t → t.runtime? = none ∧ t.calls = []) : Pins.Quiet (pins ++ [pin]) := by
  intro t ht
  rcases List.mem_append.mp ht with ht | ht
  · exact h t ht
  · exact hpin t (List.mem_singleton.mp ht).symm

theorem spends_guarded {plain : Pins → Lower Assembly Lowered}
    (he : ∀ pins : Pins, pins.Quiet → Spends (plain pins) (HoldsMade full)) :
    ∀ (gs : List (Guard Assembly)),
      (∀ g ∈ gs, ∀ pins : Pins, pins.Quiet → Spends (g.receiver pins) (HoldsMade full)) →
      ∀ pins : Pins, pins.Quiet → Spends (Spine.guarded plain gs pins) (HoldsMade full)
  | [], _, pins, hpins => by
    rw [Spine.guarded]
    exact he pins hpins
  | g :: gs, hgs, pins, hpins => by
    obtain ⟨hg, hgs⟩ := List.forall_mem_cons.mp hgs
    have ih := spends_guarded he gs hgs
    rw [Spine.guarded]
    refine spends_bind (hg pins hpins) fun c bs hc => ?_
    split
    · refine spends_bracket (fun t => ih (pins ++ [some (.ofVar t.name)]) (hpins.append fun u hu => ?_))
        fun t bs' m hm => ?_
      · cases hu
        exact ⟨rfl, Term.calls_ofVar _⟩
      · refine Holds.made (Holds.guardCode (hc.1.congr rfl ?_) hm.1)
        rw [Term.calls_set, Term.calls_ofVar, List.nil_append]
    · refine spends_map (ih (pins ++ [none]) (hpins.append (by rintro _ ⟨⟩))) ?_
      exact fun bs' m hm => (hc.1.guardCode hm.1).made

/-- What is known of an expression and of the receivers its spine guards. -/
def PlainSpends (host : Host Assembly) (full : Prop) (e : Expr) : Prop :=
  ∀ r ∈ e :: e.safeReceivers, ∀ pins : Pins, pins.Quiet →
    Spends ((r.spine host).plain pins) (HoldsMade full)

theorem PlainSpends.made {e : Expr} (h : PlainSpends host full e) :
    Spends (e.spine host).made (HoldsMade full) := by
  rw [Spine.made, spine_guards]
  refine spends_guarded (h e List.mem_cons_self) _ (fun g hg => ?_) [] fun t ht =>
    absurd ht List.not_mem_nil
  obtain ⟨r, hr, rfl⟩ := List.mem_map.mp hg
  exact h r (List.mem_cons_of_mem e hr)

theorem PlainSpends.lower {e : Expr} (h : PlainSpends host full e) :
    Spends (e.spine host).lower (Holds full) := spends_code h.made

/-- An expression that is no access guards nothing. -/
theorem PlainSpends.leaf {e : Expr} {code : Lower Assembly Term} (hs : e.spine host = .leaf code)
    (hr : e.safeReceivers = []) (h : Spends code (Holds full)) : PlainSpends host full e := by
  intro r hmem pins _
  rw [hr, List.mem_singleton] at hmem
  rw [hmem, hs]
  exact spends_fresh h

/-- An access with an ordinary receiver guards what the receiver guards. -/
theorem PlainSpends.access {e r : Expr} (hr : PlainSpends host full r)
    (hs : e.safeReceivers = r.safeReceivers)
    (h : ∀ pins : Pins, pins.Quiet → Spends ((e.spine host).plain pins) (HoldsMade full)) :
    PlainSpends host full e := by
  intro r' hmem pins hpins
  rw [hs, List.mem_cons] at hmem
  rcases hmem with rfl | hmem
  · exact h pins hpins
  · exact hr r' (List.mem_cons_of_mem r hmem) pins hpins

/-- A safe access guards its receiver, too. -/
theorem PlainSpends.safeAccess {e r : Expr} (hr : PlainSpends host full r)
    (hs : e.safeReceivers = r.safeReceivers ++ [r])
    (h : ∀ pins : Pins, pins.Quiet → Spends ((e.spine host).plain pins) (HoldsMade full)) :
    PlainSpends host full e := by
  intro r' hmem pins hpins
  rw [hs, List.mem_cons, List.mem_append, List.mem_singleton] at hmem
  rcases hmem with rfl | hmem | rfl
  · exact h pins hpins
  · exact hr r' (List.mem_cons_of_mem r hmem) pins hpins
  · exact hr r' List.mem_cons_self pins hpins

theorem spends_pinned {r : Expr} (hr : PlainSpends host full r) {pins : Pins} (hpins : pins.Quiet) :
    Spends ((r.spine host).pinned pins) (HoldsMade full) := by
  unfold Spine.pinned
  split
  · next t ht =>
      obtain ⟨htr, htc⟩ := hpins t (List.mem_of_getElem? ht)
      exact spends_pure (Holds.of_calls_eq_nil htr htc).made
  · exact hr r List.mem_cons_self pins hpins

mutual

theorem plainSpends (hhost : Thrifty host) : ∀ e : Expr, (full → e.Every fun x => x.isPaired = true) →
    PlainSpends host full e
  | .context p, _ => by
    intro r hmem pins _
    have hr : r = .context p := List.mem_singleton.mp hmem
    rw [hr, Expr.spine]
    refine spends_modify true (spends_pure ⟨.of_calls_eq_nil hhost.context.1 hhost.context.2, ?_⟩)
    exact fun _ => rfl
  | .read p r name, h => by
    have hr := plainSpends hhost r fun hf => (Expr.every_iff.mp (h hf)).2.1
    refine .access hr rfl fun pins hpins => ?_
    rw [Expr.spine]
    exact spends_readCode hhost (hr r List.mem_cons_self pins hpins)
  | .safeRead p r name, h => by
    have hr := plainSpends hhost r fun hf => (Expr.every_iff.mp (h hf)).2.1
    refine .safeAccess hr rfl fun pins hpins => ?_
    rw [Expr.spine]
    exact spends_readCode hhost (spends_pinned hr hpins)
  | .index p o k, h => by
    have ho := plainSpends hhost o fun hf => (Expr.every_iff.mp (h hf)).2.1
    have hk := plainSpends hhost k fun hf => (Expr.every_iff.mp (h hf)).2.2.1
    refine .access ho rfl fun pins hpins => ?_
    rw [Expr.spine]
    refine spends_fresh (spends_bind (ho o List.mem_cons_self pins hpins) fun c bs hc => ?_)
    exact spends_map hk.lower fun bs' t ht => hc.1.pair ht rfl (Term.calls_key ..)
  | .method p r name args, h => by
    have hr := plainSpends hhost r fun hf => (Expr.every_iff.mp (h hf)).2.1
    have hargs := spends_lowerAll hhost args fun hf => (Expr.every_iff.mp (h hf)).2.2
    refine .access hr rfl fun pins hpins => ?_
    rw [Expr.spine]
    exact spends_fresh (spends_methodCode hhost (spends_mono hargs fun bs ts hts => hts.1)
      (hr r List.mem_cons_self pins hpins))
  | .safeMethod p r name args, h => by
    have hr := plainSpends hhost r fun hf => (Expr.every_iff.mp (h hf)).2.1
    have hargs := spends_lowerAll hhost args fun hf => (Expr.every_iff.mp (h hf)).2.2
    refine .safeAccess hr rfl fun pins hpins => ?_
    rw [Expr.spine]
    exact spends_fresh (spends_methodCode hhost (spends_mono hargs fun bs ts hts => hts.1)
      (spends_pinned hr hpins))
  | .write p r name v, h => by
    have hr := plainSpends hhost r fun hf => (Expr.every_iff.mp (h hf)).2.1
    have hv := plainSpends hhost v fun hf => (Expr.every_iff.mp (h hf)).2.2.1
    refine .leaf (by rw [Expr.spine]) rfl ?_
    refine spends_bind (spends_targetCode hhost hr.made) fun target bs htarget => ?_
    exact spends_map hv.lower fun bs' t ht => htarget.pair ht rfl (Term.calls_set ..)
  | .indexWrite p o k v, h => by
    have ho := plainSpends hhost o fun hf => (Expr.every_iff.mp (h hf)).2.1
    have hk := plainSpends hhost k fun hf => (Expr.every_iff.mp (h hf)).2.2.1
    have hv := plainSpends hhost v fun hf => (Expr.every_iff.mp (h hf)).2.2.2.1
    refine .leaf (by rw [Expr.spine]) rfl ?_
    refine spends_bind ho.lower fun c bs hc => spends_bind hk.lower fun j bs' hj => ?_
    refine spends_map hv.lower fun bs'' t ht => ?_
    rw [← List.append_assoc]
    exact (hc.pair hj rfl (Term.calls_key _ _ {})).pair ht rfl (Term.calls_set ..)
  | .call p f args, h => by
    have hf := plainSpends hhost f fun hf => (Expr.every_iff.mp (h hf)).2.1
    have hargs := spends_lowerAll hhost args fun hf => (Expr.every_iff.mp (h hf)).2.2
    refine .leaf (by rw [Expr.spine]) rfl ?_
    refine spends_bind hargs fun ts bs hts => spends_map hf.lower fun bs' c hc => ?_
    exact hts.1.call hc rfl (Term.calls_apply ts hc.runtime)
  | .conditional p c y z, h => by
    have hc := plainSpends hhost c fun hf => (Expr.every_iff.mp (h hf)).2.1
    have hy := plainSpends hhost y fun hf => (Expr.every_iff.mp (h hf)).2.2.1
    have hz := plainSpends hhost z fun hf => (Expr.every_iff.mp (h hf)).2.2.2.1
    refine .leaf (by rw [Expr.spine]) rfl ?_
    refine spends_bind hc.lower fun ct bs hct => spends_bind hy.lower fun yt bs' hyt => ?_
    refine spends_map hz.lower fun bs'' zt hzt => ?_
    have hpair := hyt.pair (w := .key {} yt zt) hzt rfl (Term.calls_key ..)
    refine hct.pair hpair rfl ?_
    rw [Term.calls_choose, Term.calls_key]
  | .binary p o l r, h => by
    have hl := plainSpends hhost l fun hf => (Expr.every_iff.mp (h hf)).2.1
    have hr := plainSpends hhost r fun hf => (Expr.every_iff.mp (h hf)).2.2.1
    refine .leaf (by rw [Expr.spine]) rfl ?_
    split
    · exact spends_throw
    · refine spends_bind hl.lower fun lt bs hlt => spends_map hr.lower fun bs' rt hrt => ?_
      exact hlt.pair hrt rfl (Term.calls_operation ..)
  | .not p e, h => by
    have he := plainSpends hhost e fun hf => (Expr.every_iff.mp (h hf)).2.1
    refine .leaf (by rw [Expr.spine]) rfl (spends_map he.lower fun bs t ht => ?_)
    exact ht.congr rfl (Term.calls_negate ..)
  | .present p e, h => by
    have he := plainSpends hhost e fun hf => (Expr.every_iff.mp (h hf)).2.1
    refine .leaf (by rw [Expr.spine]) rfl (spends_map he.lower fun bs t ht => ?_)
    exact ht.congr rfl (Term.calls_assertPresent ..)
  | .literal p v, _ => by
    refine .leaf (by rw [Expr.spine]) rfl (spends_pure (.of_calls_eq_nil rfl ?_))
    exact Term.calls_ofValue v
  | .interpolation p texts es, h => by
    have hes := spends_lowerAll hhost es fun hf => (Expr.every_iff.mp (h hf)).2
    refine .leaf (by rw [Expr.spine]) rfl ?_
    by_cases hlength : texts.length = es.length + 1
    · rw [if_neg (not_not_intro hlength)]
      refine spends_bind hes fun ts bs hts => spends_interpolate hhost ?_ hts.1 p.span
      rw [hlength, hts.2]
    · rw [if_pos hlength]
      exact spends_throw
  | .builtin p kind args, h => by
    have hargs := spends_lowerAll hhost args fun hf => (Expr.every_iff.mp (h hf)).2
    refine .leaf (by rw [Expr.spine]) rfl (spends_builtin hhost hargs fun hf ts hts => ?_)
    have hpaired := (Expr.every_iff.mp (h hf)).1
    cases kind with
    | map keys => exact List.take_of_length_le (Nat.le_of_eq (hts.trans (eq_of_beq hpaired).symm))
    | _ => rfl
  | .chain p es, _ => .leaf (by rw [Expr.spine]) rfl spends_bind_throw
  | .array p es, _ => .leaf (by rw [Expr.spine]) rfl spends_throw
  | .map p ks vs, _ => .leaf (by rw [Expr.spine]) rfl spends_throw
  | .pipe p e name args, _ => .leaf (by rw [Expr.spine]) rfl spends_throw
  | .quote p s t l, _ => .leaf (by rw [Expr.spine]) rfl spends_throw

theorem spends_lowerAll (hhost : Thrifty host) : ∀ es : List Expr,
    (full → Expr.EveryAll (fun x => x.isPaired = true) es) →
    Spends (Expr.lowerAll host es) fun bs ts => HoldsAll full bs ts ∧ ts.length = es.length
  | [], _ => by
    rw [Expr.lowerAll]
    exact spends_pure ⟨⟨fun t ht => (nomatch ht), .of_perm (.refl _)⟩, rfl⟩
  | e :: es, h => by
    have he := plainSpends hhost e fun hf => (h hf).1
    have hes := spends_lowerAll hhost es fun hf => (h hf).2
    rw [Expr.lowerAll]
    refine spends_bind he.lower fun t bs ht => spends_map hes fun bs' ts hts => ?_
    exact ⟨ht.cons hts.1, congrArg Nat.succ hts.2⟩

end

/-- The pure functions in the code of an expression have blocks of their own. -/
theorem spends_lower (hhost : Thrifty host) (e : Expr) :
    Spends (e.lower host) (Holds (e.Every fun x => x.isPaired = true)) :=
  (plainSpends hhost e id).lower

end Steps

/-! ### The hosts of bindings -/

theorem Term.runtime?_of_isConstant {t : Term} (h : t.isConstant = true) : t.runtime? = none := by
  cases t with
  | external => cases h
  | _ => rfl

theorem Term.callsAll_filter_not_isConstant (ts : List Term) :
    Term.callsAll (ts.filter fun t => !t.isConstant) = Term.callsAll ts := by
  induction ts with
  | nil => rfl
  | cons t ts ih =>
      rw [List.filter_cons, Term.callsAll]
      cases ht : t.isConstant with
      | true =>
          rw [if_neg (by decide), ih, Term.calls_of_isConstant t ht]
          rfl
      | false =>
          rw [if_pos (by decide), Term.callsAll, ih]

/-- The arguments a builtin has use for name blocks of all its arguments. -/
theorem HoldsAll.used {full : Prop} {bs : List Block} {ts : List Term} (h : HoldsAll full bs ts)
    {kind : Builtin} (hused : full → kind.used ts = ts) :
    Accounts full (pureBlocks (Term.callsAll (kind.used ts))) bs := by
  refine .trans ⟨?_, fun hf => ?_⟩ h.accounts
  · have hsub : (kind.used ts).Sublist ts := by
      cases kind with
      | map keys => exact List.take_sublist _ _
      | _ => exact List.Sublist.refl _
    rw [Term.callsAll_eq_flatMap, Term.callsAll_eq_flatMap]
    exact ((hsub.flatMap _).filterMap _).subperm
  · rw [hused hf]

theorem BuiltinRun.holds {full : Prop} {kind : Builtin} {ts : List Term} {bs : List Block}
    {s s' : Assembly} {t : Term} (h : BuiltinRun s kind ts t s') (hts : HoldsAll full bs ts)
    (hused : full → kind.used ts = ts) :
    ∃ bs', Tiles s.unit.pureSlots bs' s'.unit.pureSlots ∧ Holds full (bs ++ bs') t := by
  have haccounts := hts.accounts
  cases h with
  | shared hkind hconstant hrun =>
      have hwritten : (kind.written ts).isConstant = true := by
        cases kind with
        | array => exact hconstant
        | map keys =>
            refine allConstantEntries_iff.mpr fun e he => ?_
            exact allConstant_iff.mp hconstant _ (List.of_mem_zip he).2
        | _ => cases hkind
      have ht := Pool.isConstant_of_literal hwritten hrun
      refine ⟨[], rfl, Term.runtime?_of_isConstant ht, ?_⟩
      rw [Term.callsAll_of_allConstant ts hconstant] at haccounts
      rw [Term.calls_of_isConstant t ht, List.append_nil]
      exact haccounts
  | @pure _ _ dynamic _ pool hkind _ hrun =>
      obtain ⟨hdynamic, name, rfl⟩ := Pool.args_of_factory hrun
      refine ⟨[pureBlock s.unit.pureSlots dynamic.length], ⟨rfl, rfl, ?_, rfl⟩, rfl, ?_⟩
      · exact Nat.lt_add_of_pos_right (Nat.add_pos_left Nat.one_pos _)
      · rw [pureBlocks_pureCode]
        rw [Builtin.entriesOf_written hkind] at hdynamic
        have hblocks : Accounts full (pureBlocks (Term.callsAll dynamic)) bs := by
          rw [hdynamic, Term.callsAll_filter_not_isConstant]
          exact hts.used hused
        refine (hblocks.append (.of_perm (.refl [pureBlock _ _]))).perm_left ?_
        exact (List.perm_append_singleton _ _).symm
  | pipe =>
      refine ⟨[], rfl, rfl, ?_⟩
      rw [pureBlocks_pipeCode, List.append_nil]
      exact haccounts
  | call =>
      refine ⟨[], rfl, rfl, ?_⟩
      rw [Term.calls_apply _ rfl, Term.calls_ofVar, List.nil_append, List.append_nil]
      exact haccounts

/-- The host of a binding takes pure slots for pure functions only. -/
theorem thrifty_host (scope : Nat) {interpolate : List Term → Except Failure Term}
    (h : PassesOn interpolate) : Thrifty (Compile.host scope Compile.builtinCode interpolate) := by
  refine ⟨⟨rfl, Term.calls_ofVar _⟩, fun name s => ⟨rfl, fun f hf => ?_⟩, fun hts hused hrun => ?_, h⟩
  · obtain ⟨var, -, rfl⟩ := Option.map_eq_some_iff.mp hf
    exact ⟨rfl, Term.calls_ofVar _⟩
  · exact (builtinRun_of_outcome hrun).holds hts hused

/-! ### Interpolations -/

theorem interpolationValues_eq {args values : List Term} (h : interpolationValues args = .ok values) :
    values = args.drop 1 := by
  unfold interpolationValues at h
  dsimp only at h
  split at h
  · cases h
  · cases h
    rfl

theorem passesOn_boundedInterpolation (limit : Int) : PassesOn (boundedInterpolation limit) := by
  intro args t h
  obtain ⟨values, hvalues, h⟩ := except_bind_ok.mp h
  generalize (if limit ≤ 0 || (Instruction.maxInterpolation : Int) < limit then
    (Instruction.maxInterpolation : Int) else limit) = bound at h
  dsimp only at h
  rw [interpolationValues_eq hvalues] at h
  split at h
  · cases h
    exact ⟨_, _, rfl, .inl rfl⟩
  · cases h
    exact ⟨_, _, rfl, .inr rfl⟩

theorem passesOn_variadicInterpolation : PassesOn variadicInterpolation := by
  intro args t h
  obtain ⟨values, hvalues, h⟩ := except_bind_ok.mp h
  rw [interpolationValues_eq hvalues] at h
  cases h
  exact ⟨_, _, rfl, .inr rfl⟩

theorem passesOn_noInterpolation : PassesOn Compile.noInterpolation := by
  intro args t h
  cases h

theorem passesOn_interpolate (settings : TemplateSettings) : PassesOn settings.interpolate := by
  unfold TemplateSettings.interpolate
  split
  · exact passesOn_variadicInterpolation
  · exact passesOn_boundedInterpolation _

theorem PassesOn.isInterpolation {interpolate : List Term → Except Failure Term}
    (h : PassesOn interpolate) : IsInterpolation interpolate := by
  intro args t ht
  obtain ⟨n, vs, rfl, -⟩ := h args t ht
  rfl

end TemplateCompiler
