import TemplateCompiler.Proofs.Expr.Children
import TemplateCompiler.Proofs.Lowering.Soundness
import TemplateCompiler.Proofs.Pool.Constants
import TemplateCompiler.Proofs.Template.Steps

/-!
# Invariants of a compilation

A compilation changes its state in five ways: the pool names further constants, scopes are added and
changed, the unit is, and a directive or the type of a pipe is added to those found so far. What all five
preserve (`Lasting`) is true of the state that a compilation ends in, if it was true of the one it started
from (`Lasting.compileFunctions`).

* `Preserves I p` : the step `p` leaves a state with `I` if it starts in one and succeeds; the rules say so of
  each way a step is put together;
* `Pooling.grows_` : a step over a pool names further constants and renames none.
-/

namespace TemplateCompiler

variable {ε σ α β : Type}

/-- A step that succeeds preserves `I`. -/
def Preserves (I : σ → Prop) (p : ExceptT ε (StateM σ) α) : Prop :=
  ∀ s a s', I s → outcome p s = (.ok a, s') → I s'

namespace Preserves

variable {I : σ → Prop}

theorem pure (a : α) : Preserves I (Pure.pure a : ExceptT ε (StateM σ) α) := by
  intro s _ s' hs h
  cases h
  exact hs

theorem throw (e : ε) : Preserves I (MonadExcept.throw e : ExceptT ε (StateM σ) α) := by
  intro s _ s' _ h
  cases h

theorem get : Preserves I (MonadState.get : ExceptT ε (StateM σ) σ) := by
  intro s _ s' hs h
  cases h
  exact hs

theorem modify {f : σ → σ} (h : ∀ s, I s → I (f s)) :
    Preserves I (modify f : ExceptT ε (StateM σ) PUnit) := by
  intro s _ s' hs hrun
  cases hrun
  exact h s hs

theorem lift (x : Except ε α) : Preserves I (liftM x : ExceptT ε (StateM σ) α) := by
  intro s a s' hs h
  cases h
  exact hs

theorem bind {p : ExceptT ε (StateM σ) α} {q : α → ExceptT ε (StateM σ) β} (hp : Preserves I p)
    (hq : ∀ a, Preserves I (q a)) : Preserves I (p >>= q) := by
  intro s b s' hs h
  obtain ⟨a, s₁, hp', hq'⟩ := outcome_bind_ok.mp h
  exact hq a s₁ b s' (hp s a s₁ hs hp') hq'

theorem forM {f : α → ExceptT ε (StateM σ) PUnit} (h : ∀ a, Preserves I (f a)) (as : List α) :
    Preserves I (as.forM f) := by
  induction as with
  | nil => exact pure _
  | cons a as ih => exact (h a).bind fun _ => ih

end Preserves

/-! ### Pools -/

namespace Pool

variable {pool pool' : Pool}

/-- A literal that is asked for may name a further constant. -/
theorem names_le_of_literal {t t' : Term} {force : Bool} (h : pool.literal t force = .ok (t', pool')) :
    pool.names.le pool'.names := by
  unfold Pool.literal at h
  split at h
  · cases h
    exact Names.le_refl _
  · obtain ⟨key, -, h⟩ := except_bind_ok.mp h
    split at h
    · cases h
      exact Names.le_refl _
    · next kept hlookup =>
        cases h
        have hnone : pool.names key = none := by rw [names, hlookup]; rfl
        exact names_le_share (pool.declare t).2 hnone _
    · next hlookup =>
        have hnone : (pool.keep key t).names key = none := by rw [names_keep, names, hlookup]; rfl
        split at h
        · cases h
          exact names_keep pool key t ▸ names_le_share ((pool.keep key t).declare t).2 hnone _
        · cases h
          exact names_keep pool key t ▸ Names.le_refl _

theorem names_le_of_factoryEntries {ts : List Term} : ∀ {count : Nat} {pool pool' : Pool} {entries params},
    Pool.factoryEntries count ts pool = .ok (entries, params, pool') → pool.names.le pool'.names := by
  induction ts with
  | nil =>
      intro count pool pool' entries params h
      cases h
      exact Names.le_refl _
  | cons t ts ih =>
      intro count pool pool' entries params h
      rw [Pool.factoryEntries] at h
      split at h
      · obtain ⟨⟨shared, pool₁⟩, hshared, h⟩ := except_bind_ok.mp h
        obtain ⟨⟨rest, params₁, pool₂⟩, hrest, h⟩ := except_bind_ok.mp h
        cases h
        exact Names.le_trans (names_le_of_literal hshared) (ih hrest)
      · obtain ⟨⟨rest, params₁, pool₁⟩, hrest, h⟩ := except_bind_ok.mp h
        cases h
        exact ih hrest

theorem names_le_of_factoryFor {key : Text} {values : List Term} {build : List Term → Term}
    {r : Term × List Term} (h : pool.factoryFor key values build = .ok (r, pool')) :
    pool.names.le pool'.names := by
  unfold Pool.factoryFor at h
  dsimp only at h
  split at h
  · cases h
    exact Names.le_refl _
  · obtain ⟨⟨entries, params, pool₁⟩, hentries, h⟩ := except_bind_ok.mp h
    cases h
    have hle : pool.names.le pool₁.names := names_le_of_factoryEntries hentries
    exact hle

/-- A factory that is asked for may name further constants. -/
theorem names_le_of_factory {t : Term} {r : Term × List Term} (h : pool.factory t = .ok (r, pool')) :
    pool.names.le pool'.names := by
  unfold Pool.factory at h
  split at h
  · obtain ⟨key, -, h⟩ := except_bind_ok.mp h
    exact names_le_of_factoryFor h
  · obtain ⟨key, -, h⟩ := except_bind_ok.mp h
    exact names_le_of_factoryFor h
  · cases h

end Pool

/-- A step over a pool names further constants. -/
def Names.Below (names : Names) (pool : Pool) : Prop := names.le pool.names

namespace Names.Below

variable (names : Names)

theorem shared (t : Term) : Preserves names.Below (shared t) := by
  intro pool t' pool' hle h
  exact Names.le_trans hle (Pool.names_le_of_literal (outcome_shared_ok.mp h))

theorem creation (q : Query) (slot : Nat) : Preserves names.Below (q.creation slot) := by
  refine .bind ?_ fun _ => .pure _
  unfold Query.predicateCode
  split
  · exact shared names _
  · exact .pure _
  · exact .pure _
  · exact .throw _

theorem creations : ∀ (slot : Nat) (qs : List Query), Preserves names.Below (Query.creations slot qs)
  | _, [] => .pure _
  | slot, q :: qs => .bind (creation names q slot) fun _ => .bind (creations (slot + 1) qs) fun _ => .pure _

theorem function (qs : List Query) (component : Text) :
    Preserves names.Below (Query.function qs component) :=
  .bind (creations names 0 qs) fun _ => .pure _

end Names.Below

/-! ### Compilations -/

/-- An invariant that holds whatever a compilation does to its state. -/
structure Lasting (I : Assembly → Prop) : Prop where
  pool : ∀ {s : Assembly} (pool : Pool), s.pool.names.le pool.names → I s → I { s with pool }
  scopes : ∀ {s : Assembly} (scopes : ScopeTree), I s → I { s with scopes }
  unit : ∀ {s : Assembly} (unit : TemplateUnit), I s → I { s with unit }
  directive : ∀ {s : Assembly} (t : Term), I s →
    I { s with directives := addDistinct s.pool.names t s.directives }
  pipe : ∀ {s : Assembly} (t : Term), I s → I { s with pipes := addDistinct s.pool.names t s.pipes }

theorem Preserves.locating {I : Assembly → Prop} {span : Option SourceSpan} {step : Compile α}
    (h : Preserves I step) : Preserves I (Compile.locating span step) :=
  fun s a s' hs hrun => h s a s' hs (Compile.outcome_locating_ok.mp hrun)

theorem Preserves.finishUnit {I : Assembly → Prop} (front : List Stmt) :
    Preserves I (Compile.finishUnit front) :=
  .bind .get fun _ => .pure _

namespace Lasting

open Compile

variable {I : Assembly → Prop} (hI : Lasting I)

include hI

theorem onPool {step : Pooling α} (h : ∀ names : Names, Preserves names.Below step) :
    Preserves I (onPool step) := by
  intro s a s' hs hrun
  obtain ⟨pool, hstep, rfl⟩ := outcome_onPool_ok.mp hrun
  exact hI.pool pool (h s.pool.names s.pool a pool (Names.le_refl _) hstep) hs

theorem changeUnit (f : TemplateUnit → TemplateUnit) : Preserves I (changeUnit f) :=
  .modify fun _ hs => hI.unit _ hs

theorem create (i : Instruction) (args : List Term) (span : Option SourceSpan) :
    Preserves I (create i args span) := hI.changeUnit _

theorem update (ss : List Stmt) : Preserves I (update ss) := hI.changeUnit _

theorem allocateSlot : Preserves I allocateSlot := .bind .get fun _ => .bind (hI.changeUnit _) fun _ => .pure _

theorem allocatePureSlots (count : Nat) : Preserves I (allocatePureSlots count) :=
  .bind .get fun _ => .bind (hI.changeUnit _) fun _ => .pure _

theorem nextBinding : Preserves I nextBinding := .bind .get fun _ => .bind (hI.changeUnit _) fun _ => .pure _

theorem freshName : Preserves I freshName := by
  intro s a s' hs h
  cases h
  exact hI.scopes _ hs

theorem bindName (name : Text) (e : ScopeEntry) : Preserves I (bindName name e) := by
  intro s a s' hs h
  unfold Compile.bindName at h
  rw [outcome_bind, outcome_get] at h
  dsimp only at h
  split at h
  · cases h
    exact hI.scopes _ hs
  · cases h

theorem startUnit (outer level : Nat) (parameter path functionName : Text) :
    Preserves I (startUnit outer level parameter path functionName) := by
  intro s a s' hs h
  cases h
  exact hI.unit { level, parameter, path, functionName, scope := s.scopes.scopes.length }
    (hI.scopes (s.scopes.nest outer false).2 hs)

theorem bindVariables (vars : List Named) : Preserves I (bindVariables vars) :=
  .forM (fun _ => .bind .get fun _ => .bind hI.freshName fun _ => hI.bindName _ _) vars

/-! ### Bindings -/

theorem replaceBuiltins (types : List (Text × Term)) (e : Expr) :
    Preserves I (e.replaceBuiltins (pipeFactory types)) := by
  have hnode : ∀ x : Expr, Preserves I (x.replaceBuiltin (pipeFactory types)) := by
    intro x
    cases x
    case pipe p a name args =>
      refine .bind (.bind hI.allocateSlot fun _ => .bind (hI.create _ _ _) fun _ => ?_) fun _ => .pure _
      split
      · exact .bind (.modify fun _ hs => hI.pipe _ hs) fun _ =>
          .bind (hI.allocatePureSlots _) fun _ => .pure _
      · exact .bind (hI.allocatePureSlots _) fun _ => .pure _
    case array => exact .bind (.pure _) fun _ => .pure _
    case map => exact .bind (.pure _) fun _ => .pure _
    all_goals exact .pure _
  induction e using Expr.induct with
  | step e ih =>
      have hall : ∀ {es : List Expr}, (∀ c ∈ es, Preserves I (c.replaceBuiltins (pipeFactory types))) →
          Preserves I (Expr.rebuildAllM (Expr.replaceBuiltin (pipeFactory types)) es) := by
        intro es
        induction es with
        | nil => exact fun _ => .pure _
        | cons c es ihs =>
            intro h
            obtain ⟨hc, hes⟩ := List.forall_mem_cons.mp h
            exact .bind hc fun _ => .bind (ihs hes) fun _ => .pure _
      rw [Expr.replaceBuiltins, Expr.rebuildM_eq]
      exact .bind (hall ih) fun _ => hnode _

theorem builtinCode (kind : Builtin) (args : List Term) : Preserves I (builtinCode kind args) := by
  have hcollection : ∀ literal entries, Preserves I (collection literal entries) := by
    intro literal entries
    unfold Compile.collection
    split
    · exact hI.onPool fun _ => Names.Below.shared _ _
    · refine .bind (hI.onPool fun names => ?_) fun _ => .bind (hI.allocatePureSlots _) fun _ => .pure _
      intro pool r pool' hle h
      rw [outcome_bind, outcome_get] at h
      dsimp only at h
      split at h
      · next hfactory =>
          cases h
          exact Names.le_trans hle (Pool.names_le_of_factory hfactory)
      · cases h
  unfold Compile.builtinCode
  split
  · exact .throw _
  · cases kind with
    | array => exact hcollection _ _
    | map keys => exact hcollection _ _
    | pipe slot offset => exact .pure _
    | call function => exact .pure _

/-- What is known of the host of a binding if nothing of its answers is: the invariant. -/
def contract (scope : Nat) {builtin : Builtin → List Term → Compile Term}
    (hbuiltin : ∀ kind args, Preserves I (builtin kind args))
    (interpolate : List Term → Except Failure Term) : Contract (host scope builtin interpolate) where
  holds := I
  later _ u := I u
  refl h := h
  trans _ h := h
  holds_later h := h
  lookup _ _ _ := True
  builtin _ _ _ _ := True
  later_lookup _ hs := hI.scopes _ hs
  lookup_later _ _ _ := trivial
  later_builtin hs _ h := hbuiltin _ _ _ _ _ hs h
  builtin_later _ _ _ _ := trivial

/-- Lowering a binding preserves the invariant. -/
theorem lowerBinding {scope : Nat} {builtin : Builtin → List Term → Compile Term}
    (hbuiltin : ∀ kind args, Preserves I (builtin kind args))
    {interpolate : List Term → Except Failure Term} {b : Text} {code : Lower Assembly α}
    {post : Answers → Nat → Nat → α → Prop}
    (hcode : Makes (hI.contract scope hbuiltin interpolate) b code post) :
    Preserves I (TemplateCompiler.lowerBinding (host scope builtin interpolate) b code) := by
  intro s r s' hs h
  have hmakes := outcome_lowerBinding hcode (s := s) hs
  rw [h] at hmakes
  obtain ⟨-, -, s₁, hs₁, rfl | rfl, -⟩ := hmakes
  · exact hs₁
  · exact hs₁

theorem loweredValue (value : Expr) (interpolate : List Term → Except Failure Term) :
    Preserves I (loweredValue value interpolate) := by
  refine .bind .get fun s => .bind hI.nextBinding fun b => .bind ?_ fun _ =>
    .bind (hI.update _) fun _ => .pure _
  intro s₁ code s₂ hs h
  obtain ⟨t, stack, hbinding, -⟩ := lowerProperty_cases h
  exact hI.lowerBinding hI.builtinCode (makes_lower value) s₁ _ s₂ hs hbinding

theorem boundValue (types : List (Text × Term)) (interpolate : List Term → Except Failure Term)
    (value : Expr) : Preserves I (boundValue types interpolate value) := by
  refine .bind (hI.replaceBuiltins types value) fun e => ?_
  split
  · exact hI.loweredValue _ _
  · exact .bind (hI.loweredValue _ _) fun _ => .pure _

theorem handler (name : Text) (action : Expr) : Preserves I (handler name action) := by
  intro s f s' hs h
  obtain ⟨s₁, _, hget, h⟩ := outcome_bind_ok.mp h
  cases hget
  obtain ⟨_, s₂, hset, h⟩ := outcome_bind_ok.mp h
  cases hset
  obtain ⟨code, s₃, haction, h⟩ := outcome_bind_ok.mp h
  cases h
  obtain ⟨e, body, stack, -, hbinding, -⟩ := lowerAction_cases haction
  refine hI.lowerBinding (fun kind args s t s' hs h => ?_) (makes_lowerStatements e) _ _ _ ?_ hbinding
  · obtain rfl := congrArg Prod.snd h
    exact hs
  exact hI.scopes _ hs

/-! ### Nodes -/

variable (cx : Setting)

theorem matchDirectives (name : Text) (parts : Parts) : Preserves I (matchDirectives cx name parts) := by
  unfold Compile.matchDirectives
  split
  · exact .pure _
  · exact .forM (fun t => .modify fun _ hs => hI.directive t hs) _

theorem sharedArray (entries : List Term) : Preserves I (sharedArray entries) := by
  unfold Compile.sharedArray
  split
  · exact .pure _
  · exact hI.onPool fun _ => Names.Below.shared _ _

theorem bindReferences (refs : List Named) : Preserves I (bindReferences refs) :=
  .bind (.forM (fun _ => .bind hI.allocateSlot fun _ => .bind hI.freshName fun _ => hI.bindName _ _) refs)
    fun _ => hI.sharedArray _

theorem switchSpace (key : Text) (span : Option SourceSpan) : Preserves I (switchSpace key span) := by
  refine .bind .get fun s => ?_
  split
  · exact .bind (hI.changeUnit _) fun _ => hI.create _ _ _
  · exact .pure _

theorem listen (element : Text) (o : Output) : Preserves I (listen element o) := by
  refine .locating ?_
  dsimp only
  by_cases h : (!o.phase.isEmpty) = true
  · rw [if_pos h]
    exact .bind (.throw _) fun _ => .bind .get fun _ => .bind (hI.handler _ _) fun _ => hI.create _ _ _
  · rw [if_neg h]
    exact .bind .get fun _ => .bind (hI.handler _ _) fun _ => hI.create _ _ _

theorem bindInput (slot : Nat) (i : Input) : Preserves I (bindInput cx slot i) :=
  .locating <| .bind (.lift _) fun _ => .bind (hI.boundValue _ _ _) fun _ => hI.update _

theorem startElement (span : Option SourceSpan) (name : Text) (parts : Parts) (childless : Bool) :
    Preserves I (startElement cx span name parts childless) := by
  refine .bind hI.allocateSlot fun slot => .bind (.lift _) fun parsed => ?_
  refine .bind (hI.matchDirectives cx _ _) fun _ => .bind (hI.sharedArray _) fun attrs =>
    .bind (hI.bindReferences _) fun refs => ?_
  have hrest : ∀ (form : ElementForm) (args : List Term), Preserves I (do
      Compile.create form.start args span
      parts.outputs.forM (Compile.listen parsed.2)
      parts.inputs.forM (Compile.bindInput cx slot)
      return form) := fun form args =>
    .bind (hI.create _ _ _) fun _ => .bind (.forM (hI.listen _) _) fun _ =>
      .bind (.forM (hI.bindInput cx _) _) fun _ => .pure _
  dsimp only
  by_cases h : elementForm parsed.1 parsed.2 parts childless ≠ .container
  · rw [if_pos h]
    exact .bind (hI.switchSpace _ _) fun _ => hrest _ _
  · rw [if_neg h]
    exact hrest _ _

theorem endElement (span : Option SourceSpan) (form : ElementForm) : Preserves I (endElement span form) := by
  cases form with
  | closed => exact .pure _
  | opened => exact hI.create _ _ _
  | container => exact hI.create _ _ _

theorem compileBoundText (span : Option SourceSpan) (e : Expr) : Preserves I (compileBoundText cx span e) :=
  .locating <| .bind hI.allocateSlot fun _ => .bind (hI.create _ _ _) fun _ =>
    .bind (hI.boundValue _ _ _) fun _ => hI.update _

theorem compileContent (span : Option SourceSpan) (selector : Text) (attrs : List Named) :
    Preserves I (compileContent cx span selector attrs) := .bind hI.allocateSlot fun _ => hI.create _ _ _

theorem startTemplate (span : Option SourceSpan) (tag : Text) (parts : Parts) (children : List Node) :
    Preserves I (startTemplate cx span tag parts children) :=
  .bind hI.allocateSlot fun _ => .bind (.lift _) fun _ => .bind .get fun _ =>
    .bind (hI.matchDirectives cx _ _) fun _ => .bind (hI.sharedArray _) fun _ =>
    .bind (hI.bindReferences _) fun _ => .bind (hI.create _ _ _) fun _ =>
    .bind (.forM (hI.listen _) _) fun _ => .bind (.forM (hI.bindInput cx _) _) fun _ =>
    .bind .get fun _ => .bind (hI.startUnit _ _ _ _ _) fun _ => .pure _

theorem endTemplate (outer : TemplateUnit) : Preserves I (endTemplate outer) :=
  .bind (.finishUnit _) fun _ => hI.changeUnit _

omit hI

mutual

theorem compileNode (hI : Lasting I) (cx : Setting) : ∀ n : Node, Preserves I (compileNode cx n)
  | .text span value => by
      rw [Compile.compileNode]
      exact .bind hI.allocateSlot fun _ => hI.create _ _ _
  | .boundText span e => by
      rw [Compile.compileNode]
      exact hI.compileBoundText cx span e
  | .content span selector attrs => by
      rw [Compile.compileNode]
      exact hI.compileContent cx span selector attrs
  | .misplaced part => by
      rw [Compile.compileNode]
      exact .throw _
  | .element span name parts children => by
      rw [Compile.compileNode]
      exact .bind (hI.startElement cx _ _ _ _) fun _ => .bind (compileNodes hI cx children) fun _ =>
        hI.endElement _ _
  | .template span tag parts vars children => by
      rw [Compile.compileNode]
      exact .bind (hI.startTemplate cx _ _ _ _) fun _ => .bind (hI.bindVariables _) fun _ =>
        .bind (compileNodes hI cx children) fun _ => hI.endTemplate _

theorem compileNodes (hI : Lasting I) (cx : Setting) : ∀ ns : List Node, Preserves I (compileNodes cx ns)
  | [] => by
      rw [Compile.compileNodes]
      exact .pure _
  | n :: ns => by
      rw [Compile.compileNodes]
      exact .bind (compileNode hI cx n) fun _ => compileNodes hI cx ns

end

/-! ### Templates -/

include hI

theorem announceContent (any : Bool) (selectors : List ContentSelector) :
    Preserves I (announceContent any selectors) := by
  unfold Compile.announceContent
  split
  · split
    · exact hI.create _ _ _
    · exact .bind (hI.onPool fun _ => Names.Below.shared _ _) fun _ =>
        .bind (hI.onPool fun _ => Names.Below.shared _ _) fun _ => hI.create _ _ _
  · exact .pure _

theorem addQuery (q : Query) : Preserves I (addQuery q) :=
  .bind hI.allocateSlot fun _ => .bind (hI.onPool fun _ => Names.Below.creation _ _ _) fun _ =>
    .bind (hI.changeUnit _) fun _ => hI.update _

theorem templateFunction (settings : TemplateSettings) (nodes : List Node) :
    Preserves I (templateFunction settings nodes) :=
  .bind (hI.startUnit _ _ _ _ _) fun _ => .bind (hI.bindVariables _) fun _ => .bind (.lift _) fun _ =>
    .bind (hI.announceContent _ _) fun _ => .bind (.forM hI.addQuery _) fun _ =>
    .bind (hI.compileNodes _ nodes) fun _ => .finishUnit _

theorem compileFunctions (settings : TemplateSettings) (nodes : List Node) :
    Preserves I (compileFunctions settings nodes) := by
  refine .bind (hI.templateFunction settings nodes) fun _ => ?_
  split
  · exact .bind (hI.onPool fun _ => Names.Below.function _ _ _) fun _ => .pure _
  · exact .pure _

end Lasting

end TemplateCompiler
