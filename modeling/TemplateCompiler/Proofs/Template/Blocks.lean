import TemplateCompiler.Proofs.Template.Addressing
import TemplateCompiler.Proofs.Template.Coverage

/-!
# Pure slots do not overlap

The blocks of pure slots that the calls of a unit name lie side by side. Two calls share a block only if
they are of the same pipe, whose receiver was lowered twice; and if no value of a map is dropped, no slot
is left unused.

* `FunctionCode.blocks` : the blocks that the calls of a function name;
* `Packed full slot offset bs slot' offset'` : the blocks `bs` are apart and lie in the pure slots from
  `offset` up to `offset'`. Their pipes are in the slots from `slot` up to `slot'`;
* `UnitPlan.Tiled` : all that is said about the blocks of a unit;
* `blocks_tile` : it holds of every unit of a compiled template.
-/

namespace TemplateCompiler

/-! ### The calls of a function -/

def Stmt.isQuery (s : Stmt) : Bool := s.instruction?.any fun c => c.name = Instruction.query.name

mutual

/-- The calls that a statement makes itself. The functions that it declares make theirs, and what a query
was given is not made here. -/
def Stmt.ownCalls : Stmt → List RuntimeCall
  | .function .. => []
  | .branch _ c yes no => c.calls ++ (Stmt.ownCallsAll yes ++ Stmt.ownCallsAll no)
  | .expr span t => if (Stmt.expr span t).isQuery then [] else t.calls
  | .declare _ _ _ none => []
  | .declare _ _ _ (some t) | .ret _ t => t.calls

/-- The calls that statements make themselves. -/
def Stmt.ownCallsAll : List Stmt → List RuntimeCall
  | [] => []
  | s :: ss => s.ownCalls ++ Stmt.ownCallsAll ss

end

/-- The calls of a function, but for those in the functions inside. -/
def FunctionCode.ownCalls (fn : FunctionCode) : List RuntimeCall := Stmt.ownCallsAll fn.body

def FunctionCode.blocks (fn : FunctionCode) : List Block := fn.ownCalls.filterMap RuntimeCall.block?

/-- How many pure slots a statement reserves. -/
def Stmt.reserved? (s : Stmt) : Option Nat :=
  s.instruction?.bind fun c =>
    if c.name = Instruction.reserveSlots.name then c.args.head?.bind Term.nat? else none

/-- How many pure slots a function reserves at the end of its first run. -/
def FunctionCode.reserved (fn : FunctionCode) : Nat := (fn.creation.getLast?.bind Stmt.reserved?).getD 0

namespace Stmt

theorem ownCallsAll_append (ss ss' : List Stmt) :
    ownCallsAll (ss ++ ss') = ownCallsAll ss ++ ownCallsAll ss' := by
  induction ss with
  | nil => rfl
  | cons s ss ih => rw [List.cons_append, ownCallsAll, ownCallsAll, ih, List.append_assoc]

theorem ownCallsAll_eq_flatMap (ss : List Stmt) : ownCallsAll ss = ss.flatMap ownCalls := by
  induction ss with
  | nil => rfl
  | cons s ss ih => rw [ownCallsAll, ih, List.flatMap_cons]

theorem ownCallsAll_of_isQuiet {ss : List Stmt} (h : ∀ s ∈ ss, s.isQuiet = true) :
    ownCallsAll ss = [] := by
  rw [ownCallsAll_eq_flatMap]
  refine List.flatMap_eq_nil_iff.mpr fun s hs => ?_
  have hquiet := h s hs
  match s, hquiet with
  | .function .., _ => rfl
  | .declare _ _ _ none, _ => rfl

theorem ownCalls_stmt {i : Instruction} (h : i.name ≠ Instruction.query.name) (args : List Term)
    (span : Option SourceSpan) : (i.stmt args span).ownCalls = ⟨i.name, args⟩ :: Term.callsAll args := by
  have hquery : (i.stmt args span).isQuery = false := by
    rw [isQuery, instruction?_stmt, Option.any_some]
    exact decide_eq_false h
  rw [← calls_stmt i args span, Instruction.stmt, ofTerm, ownCalls]
  rw [Instruction.stmt, ofTerm] at hquery
  rw [hquery, calls]
  rfl

theorem ownCallsAll_phase (flag : Nat) (ss : List Stmt) :
    ownCallsAll (TemplateUnit.phase flag ss) = ownCallsAll ss := by
  unfold TemplateUnit.phase
  cases ss with
  | nil => rfl
  | cons s ss =>
      rw [List.isEmpty_cons, if_neg Bool.false_ne_true, onFlag, Stmt.when, ownCallsAll, ownCalls,
        Term.calls_operation, Term.calls_ofVar, Term.calls_ofNat]
      simp [ownCallsAll]

/-- Statements that are expressions or declarations of constants. -/
def isLine : Stmt → Bool
  | .declare .. => true
  | s => s.instruction?.isSome && !s.isQuery

theorem ownCallsAll_of_isLine {ss : List Stmt} (h : ∀ s ∈ ss, s.isLine = true) :
    ownCallsAll ss = callsAll ss := by
  induction ss with
  | nil => rfl
  | cons s ss ih =>
      obtain ⟨hs, hss⟩ := List.forall_mem_cons.mp h
      have hcalls : s.ownCalls = s.calls := by
        cases s with
        | declare span mods x t => cases t <;> rfl
        | expr span t =>
            have hquery : (Stmt.expr span t).isQuery = false := by
              simpa using (Bool.and_eq_true_iff.mp hs).2
            rw [ownCalls, hquery]
            rfl
        | _ => cases hs
      rw [ownCallsAll, callsAll, hcalls, ih hss]

end Stmt

/-! ### Blocks side by side -/

/-- Two calls have slots of their own, unless they are of the same pipe. -/
def Block.Apart (a b : Block) : Prop :=
  if a.pipe.isSome = true ∧ a.pipe = b.pipe then a.start = b.start ∧ a.stop = b.stop
  else a.stop ≤ b.start ∨ b.stop ≤ a.start

instance (a b : Block) : Decidable (a.Apart b) := by unfold Block.Apart; infer_instance

theorem Block.Apart.symm {a b : Block} (h : a.Apart b) : b.Apart a := by
  unfold Block.Apart at h ⊢
  split at h
  · next heq =>
      rw [if_pos ⟨heq.2 ▸ heq.1, heq.2.symm⟩]
      exact ⟨h.1.symm, h.2.symm⟩
  · next hne =>
      have hne' : ¬(b.pipe.isSome = true ∧ b.pipe = a.pipe) := fun heq => hne ⟨heq.2 ▸ heq.1, heq.2.symm⟩
      rw [if_neg hne']
      exact h.symm

/-- Blocks that are apart, in the pure slots from `offset` up to `offset'`, which they cover if `full`. The
pipes among them are in the slots from `slot` up to `slot'`. -/
structure Packed (full : Prop) (slot offset : Nat) (bs : List Block) (slot' offset' : Nat) : Prop where
  slots : slot ≤ slot'
  offsets : offset ≤ offset'
  within : ∀ b ∈ bs, offset ≤ b.start ∧ b.stop ≤ offset'
  pipes : ∀ b ∈ bs, ∀ k, b.pipe = some k → slot ≤ k ∧ k < slot'
  apart : bs.Pairwise Block.Apart
  covers : full → ∀ k, offset ≤ k → k < offset' → ∃ b ∈ bs, b.start ≤ k ∧ k < b.stop

namespace Packed

variable {full : Prop} {slot slot' slot'' offset offset' offset'' : Nat} {bs bs' : List Block}

theorem nil (h : slot ≤ slot') : Packed full slot offset [] slot' offset :=
  ⟨h, Nat.le_refl _, fun _ hb => (nomatch hb), fun _ hb => (nomatch hb), .nil,
    fun _ _ h h' => absurd h (Nat.not_le.mpr h')⟩

theorem append (h : Packed full slot offset bs slot' offset')
    (h' : Packed full slot' offset' bs' slot'' offset'') :
    Packed full slot offset (bs ++ bs') slot'' offset'' := by
  refine ⟨Nat.le_trans h.slots h'.slots, Nat.le_trans h.offsets h'.offsets, fun b hb => ?_, fun b hb k hk => ?_, ?_,
    fun hf k hk hk' => ?_⟩
  · have hle := h.offsets
    have hle' := h'.offsets
    rcases List.mem_append.mp hb with hb | hb
    · have := h.within b hb
      omega
    · have := h'.within b hb
      omega
  · have hle := h.slots
    have hle' := h'.slots
    rcases List.mem_append.mp hb with hb | hb
    · have := h.pipes b hb k hk
      omega
    · have := h'.pipes b hb k hk
      omega
  · refine List.pairwise_append.mpr ⟨h.apart, h'.apart, fun a ha b hb => ?_⟩
    have hne : ¬(a.pipe.isSome = true ∧ a.pipe = b.pipe) := by
      rintro ⟨hsome, heq⟩
      obtain ⟨k, hk⟩ := Option.isSome_iff_exists.mp hsome
      have hlt := (h.pipes a ha k hk).2
      have hge := (h'.pipes b hb k (heq ▸ hk)).1
      omega
    rw [Block.Apart, if_neg hne]
    exact .inl (Nat.le_trans (h.within a ha).2 (h'.within b hb).1)
  · by_cases hmid : k < offset'
    · obtain ⟨b, hb, hin⟩ := h.covers hf k hk hmid
      exact ⟨b, List.mem_append_left _ hb, hin⟩
    · obtain ⟨b, hb, hin⟩ := h'.covers hf k (Nat.le_of_not_lt hmid) hk'
      exact ⟨b, List.mem_append_right _ hb, hin⟩

theorem mono {full' : Prop} (h : Packed full slot offset bs slot' offset') (hfull : full' → full) :
    Packed full' slot offset bs slot' offset' :=
  ⟨h.slots, h.offsets, h.within, h.pipes, h.apart, fun hf => h.covers (hfull hf)⟩

theorem perm (h : Packed full slot offset bs slot' offset') (hp : bs'.Perm bs) :
    Packed full slot offset bs' slot' offset' := by
  refine ⟨h.slots, h.offsets, fun b hb => h.within b (hp.mem_iff.mp hb),
    fun b hb => h.pipes b (hp.mem_iff.mp hb), (hp.pairwise_iff fun h => h.symm).mpr h.apart,
    fun hf k hk hk' => ?_⟩
  obtain ⟨b, hb, hin⟩ := h.covers hf k hk hk'
  exact ⟨b, hp.mem_iff.mpr hb, hin⟩

/-- Blocks of pure functions that cover slots. -/
theorem of_tiles : ∀ {offset : Nat}, Tiles offset bs offset' → Packed full slot offset bs slot offset' := by
  induction bs with
  | nil =>
      rintro offset rfl
      exact .nil (Nat.le_refl _)
  | cons b bs ih =>
      rintro offset ⟨hpipe, rfl, hlt, htiles⟩
      have hone : Packed full slot b.start [b] slot b.stop := by
        refine ⟨Nat.le_refl _, Nat.le_of_lt hlt, ?_, ?_, List.pairwise_singleton .., fun _ k hk hk' => ?_⟩
        · exact List.forall_mem_singleton.mpr ⟨Nat.le_refl _, Nat.le_refl _⟩
        · refine List.forall_mem_singleton.mpr fun k hk => ?_
          rw [hpipe] at hk
          cases hk
        · exact ⟨b, List.mem_singleton_self b, hk, hk'⟩
      exact hone.append (ih htiles)

theorem accounts (h : Packed True slot offset bs slot' offset') (ha : Accounts full bs' bs) :
    Packed full slot offset bs' slot' offset' := by
  obtain ⟨l, hl, hsub⟩ := ha.1
  have hmem : ∀ b ∈ bs', b ∈ bs := fun b hb => hsub.subset (hl.mem_iff.mpr hb)
  refine ⟨h.slots, h.offsets, fun b hb => h.within b (hmem b hb), fun b hb => h.pipes b (hmem b hb),
    (hl.pairwise_iff fun h => h.symm).mp (h.apart.sublist hsub), fun hf k hk hk' => ?_⟩
  obtain ⟨b, hb, hin⟩ := h.covers trivial k hk hk'
  exact ⟨b, (ha.2 hf).mem_iff.mpr hb, hin⟩

end Packed

/-! ### The blocks of a value -/

namespace Pipe

def block (p : Pipe) : Block := pipeBlock p.slot p.offset p.count

theorem Placed.block_bounds {p : Pipe} {ps : List Pipe} : ∀ {slot offset : Nat},
    Placed slot offset ps → p ∈ ps → offset ≤ p.block.start ∧ p.block.stop ≤ offset + size ps := by
  induction ps with
  | nil => exact fun _ h => nomatch h
  | cons q ps ih =>
      intro slot offset h hp
      have hsize : size (q :: ps) = 1 + q.count + size ps := by simp [size]
      rcases List.mem_cons.mp hp with rfl | hp
      · have := h.2.1
        simp only [block, pipeBlock]
        omega
      · have := ih h.2.2.2 hp
        omega

/-- Pipes in different slots have blocks of their own. -/
theorem Placed.apart {p q : Pipe} {ps : List Pipe} : ∀ {slot offset : Nat}, Placed slot offset ps →
    p ∈ ps → q ∈ ps → p.block.Apart q.block := by
  induction ps with
  | nil => exact fun _ h => nomatch h
  | cons r ps ih =>
      intro slot offset h hp hq
      have hsame : r.block.Apart r.block := by
        rw [Block.Apart, if_pos ⟨rfl, rfl⟩]
        exact ⟨rfl, rfl⟩
      have hrest : ∀ q ∈ ps, r.block.Apart q.block := by
        intro q hq
        have hslot := (h.2.2.2.slot_bounds hq).1
        have hstart := (h.2.2.2.block_bounds hq).1
        have hne : ¬(r.block.pipe.isSome = true ∧ r.block.pipe = q.block.pipe) := by
          rintro ⟨-, heq⟩
          have heq : r.slot = q.slot := Option.some_inj.mp heq
          have := h.1
          omega
        rw [Block.Apart, if_neg hne]
        have := h.2.1
        exact .inl (by simp only [block, pipeBlock] at hstart ⊢; omega)
      rcases List.mem_cons.mp hp with rfl | hp'
      · rcases List.mem_cons.mp hq with rfl | hq'
        · exact hsame
        · exact hrest q hq'
      · rcases List.mem_cons.mp hq with rfl | hq'
        · exact (hrest p hp').symm
        · exact ih h.2.2.2 hp' hq'

theorem Placed.covers {ps : List Pipe} : ∀ {slot offset k : Nat}, Placed slot offset ps → offset ≤ k →
    k < offset + size ps → ∃ p ∈ ps, p.block.start ≤ k ∧ k < p.block.stop := by
  induction ps with
  | nil =>
      intro slot offset k _ hk hk'
      exact absurd hk (Nat.not_le.mpr hk')
  | cons q ps ih =>
      intro slot offset k h hk hk'
      have hsize : size (q :: ps) = 1 + q.count + size ps := by simp [size]
      have hoffset := h.2.1
      by_cases hq : k < offset + (1 + q.count)
      · refine ⟨q, List.mem_cons_self, ?_⟩
        simp only [block, pipeBlock]
        omega
      · obtain ⟨p, hp, hin⟩ := ih h.2.2.2 (Nat.le_of_not_lt hq) (by omega)
        exact ⟨p, List.mem_cons_of_mem q hp, hin⟩

/-- Calls of pipes in consecutive slots. -/
theorem Placed.packed {full : Prop} {ps : List Pipe} {slot offset : Nat} (h : Placed slot offset ps)
    {bs : List Block} (hbs : ∀ b ∈ bs, ∃ p ∈ ps, b = p.block)
    (hfull : full → ∀ p ∈ ps, p.block ∈ bs) :
    Packed full slot offset bs (slot + ps.length) (offset + size ps) := by
  refine ⟨Nat.le_add_right .., Nat.le_add_right .., fun b hb => ?_, fun b hb k hk => ?_, ?_,
    fun hf k hk hk' => ?_⟩
  · obtain ⟨p, hp, rfl⟩ := hbs b hb
    exact h.block_bounds hp
  · obtain ⟨p, hp, rfl⟩ := hbs b hb
    obtain rfl : p.slot = k := Option.some_inj.mp hk
    exact h.slot_bounds hp
  · refine List.pairwise_of_forall_mem_list fun a ha b hb => ?_
    obtain ⟨p, hp, rfl⟩ := hbs a ha
    obtain ⟨q, hq, rfl⟩ := hbs b hb
    exact h.apart hp hq
  · obtain ⟨p, hp, hin⟩ := h.covers hk hk'
    exact ⟨p.block, hfull hf p hp, hin⟩

end Pipe

/-- The blocks of calls are those of pipes and those of pure functions. -/
theorem perm_blocks (cs : List RuntimeCall) : (cs.filterMap RuntimeCall.block?).Perm
    (cs.filterMap RuntimeCall.pipeBlock? ++ pureBlocks cs) := by
  induction cs with
  | nil => exact .refl _
  | cons c cs ih =>
      rw [pureBlocks] at ih ⊢
      cases hpipe : c.pipeBlock? with
      | none =>
          have hblock : c.block? = c.pureBlock? := by rw [RuntimeCall.block?, hpipe, Option.none_or]
          rw [List.filterMap_cons_none hpipe]
          cases hpure : c.pureBlock? with
          | none =>
              rw [List.filterMap_cons_none (hblock.trans hpure), List.filterMap_cons_none hpure]
              exact ih
          | some b =>
              rw [List.filterMap_cons_some (hblock.trans hpure), List.filterMap_cons_some hpure]
              exact (ih.cons b).trans List.perm_middle.symm
      | some b =>
          have hpure : c.pureBlock? = none := by
            refine pureBlock?_of_ne fun n heq => ?_
            have hnone : c.pipeBlock? = none := pipeBlock?_of_ne fun m hm =>
              Instruction.pipeBind_ne_pureFunction m n (hm.symm.trans heq)
            rw [hpipe] at hnone
            cases hnone
          have hblock : c.block? = some b := by rw [RuntimeCall.block?, hpipe, Option.some_or]
          rw [List.filterMap_cons_some hblock, List.filterMap_cons_some hpipe,
            List.filterMap_cons_none hpure]
          exact ih.cons b

/-- A call of a pipe or of a pure function names a block. -/
def RuntimeCall.Named (c : RuntimeCall) : Prop :=
  Instruction.isPlain c.name = false → c.block?.isSome = true

theorem RuntimeCall.Named.of_isPlain {c : RuntimeCall} (h : Instruction.isPlain c.name = true) :
    c.Named := by
  intro hplain
  rw [h] at hplain
  cases hplain

theorem block?_eq_none {c : RuntimeCall} (h : Instruction.isPlain c.name = true) : c.block? = none := by
  obtain ⟨hpipe, hpure⟩ := block?_of_isPlain h
  rw [RuntimeCall.block?, hpipe, hpure]
  rfl

theorem ValueCall.cases {ps : List Pipe} (hps : ∀ p ∈ ps, 0 < p.count) {c : RuntimeCall}
    (h : ValueCall ps [] c) : c.Named ∧ ∀ b, c.pipeBlock? = some b → ∃ p ∈ ps, b = p.block := by
  cases h with
  | @interpolation n vs =>
      have hplain : Instruction.isPlain (Instruction.interpolation n).name = true := rfl
      refine ⟨.of_isPlain hplain, fun b hb => ?_⟩
      rw [(block?_of_isPlain hplain).1] at hb
      cases hb
  | @pure slot factory args =>
      have hpipe : RuntimeCall.pipeBlock? ⟨(Instruction.pureFunction args.length).name,
          .ofNat slot :: factory :: Instruction.spread Instruction.maxPureFunction args⟩ = none :=
        pipeBlock?_of_ne fun n heq => Instruction.pipeBind_ne_pureFunction n _ heq.symm
      refine ⟨fun _ => ?_, fun b hb => ?_⟩
      · rw [RuntimeCall.block?, hpipe, pureBlock?_pureFunction]
        rfl
      · rw [hpipe] at hb
        cases hb
  | @pipe p args hp hargs =>
      have hne : args ≠ [] := by
        rintro rfl
        exact absurd (hps p hp) (by rw [← hargs]; exact Nat.lt_irrefl 0)
      refine ⟨fun _ => ?_, fun b hb => ⟨p, hp, ?_⟩⟩
      · rw [RuntimeCall.block?, pipeBlock?_pipeBind _ _ hne]
        rfl
      · rw [pipeBlock?_pipeBind _ _ hne, hargs, Option.some_inj] at hb
        exact hb.symm
  | given hq => cases hq

theorem Pipe.Placed.count_pos {p : Pipe} {ps : List Pipe} : ∀ {slot offset : Nat},
    Pipe.Placed slot offset ps → p ∈ ps → 0 < p.count := by
  induction ps with
  | nil => exact fun _ h => nomatch h
  | cons q ps ih =>
      intro slot offset h hp
      rcases List.mem_cons.mp hp with rfl | hp
      · exact h.2.2.1
      · exact ih h.2.2.2 hp

section

variable {settings : TemplateSettings} {f : Assembly} {L : Lexicon} {u : TemplateUnit} {e : Expr}
  {v : LoweredValue}

theorem valueAnswers_passing (L : Lexicon) {interpolate : List Term → Except Failure Term}
    (h : PassesOn interpolate) (f : Assembly) : (valueAnswers L interpolate f).Passing where
  aliased := valueAnswers_not_aliased
  builtin ht := ⟨_, ht⟩
  interpolate ht := by
    obtain ⟨-, n, vs, hcalls⟩ := h.calls_eq ht
    rw [hcalls]
    exact List.subset_cons_self ..

/-- The maps of a binding have as many values as before. -/
theorem ValueCode.paired (h : ValueCode settings f L u e v) (he : e.Every fun x => x.isPaired = true) :
    v.expr.Every fun x => x.isPaired = true :=
  (h.converted.kept _ (fun _ _ hx hy => hy.paired.trans hx) ⟨he, trivial⟩).1

/-- A binding whose maps have as many values as keys calls all its pipes. -/
theorem ValueCode.callsPipe (h : ValueCode settings f L u e v)
    (he : e.Every fun x => x.isSource = true) (hpaired : e.Every fun x => x.isPaired = true) {p : Pipe}
    (hp : p ∈ v.pipes) : p.block ∈ v.made.code.calls.filterMap RuntimeCall.pipeBlock? := by
  have hplaced : ∀ q, q ∈ v.expr.pipes ↔ ∃ p ∈ v.pipes, q = (p.slot, p.offset, p.count) := by
    intro q
    rw [← Expr.mem_pipesAll_singleton, h.converted.placed q, Expr.mem_pipesAll_singleton,
      Expr.pipes_of_isSource he]
    simp
  have hkept := h.paired hpaired
  have hkeeping : v.expr.Every Expr.Keeping := by
    refine (Expr.every_iff_nodes _).mpr fun x hx => ⟨(Expr.every_iff_nodes _).mp hkept x hx, ?_⟩
    intro q hq
    obtain ⟨r, hr, rfl⟩ := (hplaced q).mp (List.mem_filterMap.mpr ⟨x, hx, hq⟩)
    exact h.placed.count_pos hr
  exact callsPipe_code (valueAnswers_passing L (passesOn_interpolation settings v.expr) f) h.code hkeeping
    (p.slot, p.offset, p.count) ((hplaced _).mpr ⟨p, hp, rfl⟩)

/-- The blocks of a binding lie side by side. -/
theorem ValueCode.packed (h : ValueCode settings f L u e v) (he : e.Every fun x => x.isSource = true) :
    (∀ c ∈ v.made.code.calls, c.Named) ∧ Packed (e.Every fun x => x.isPaired = true) u.slots u.pureSlots
      (v.made.code.calls.filterMap RuntimeCall.block?) (u.slots + v.pipes.length) v.stop := by
  have hcalls := h.calls
  rw [Expr.pipes_of_isSource he] at hcalls
  have hcases := fun c hc => (hcalls.calls c hc).cases fun p hp => h.placed.count_pos hp
  refine ⟨fun c hc => (hcases c hc).1, ?_⟩
  have hpipes : Packed (e.Every fun x => x.isPaired = true) u.slots u.pureSlots
      (v.made.code.calls.filterMap RuntimeCall.pipeBlock?) (u.slots + v.pipes.length)
      (u.pureSlots + Pipe.size v.pipes) := by
    refine h.placed.packed (fun b hb => ?_) fun hf p hp => h.callsPipe he hf hp
    obtain ⟨c, hc, hb⟩ := List.mem_filterMap.mp hb
    exact (hcases c hc).2 b hb
  have hpure : Packed (e.Every fun x => x.isPaired = true) (u.slots + v.pipes.length)
      (u.pureSlots + Pipe.size v.pipes) (pureBlocks v.made.code.calls) (u.slots + v.pipes.length) v.stop :=
    (Packed.of_tiles h.tiles).accounts ⟨h.accounts.1, fun hf => h.accounts.2 (h.paired hf)⟩
  exact (hpipes.append hpure).perm (perm_blocks _)

end

/-! ### The blocks of a unit -/

namespace Stmt

/-- A statement without pipes and pure functions, that reserves no slots. -/
structure Plain (s : Stmt) : Prop where
  calls : ∀ c ∈ s.ownCalls, Instruction.isPlain c.name = true
  reserved : s.reserved? = none

theorem Plain.stmt {i : Instruction} {args : List Term} {span : Option SourceSpan}
    (hi : Instruction.isPlain i.name = true) (hquery : i.name ≠ Instruction.query.name)
    (hreserve : i.name ≠ Instruction.reserveSlots.name)
    (hargs : ∀ c ∈ Term.callsAll args, Instruction.isPlain c.name = true) : (i.stmt args span).Plain := by
  constructor
  · rw [ownCalls_stmt hquery]
    exact List.forall_mem_cons.mpr ⟨hi, hargs⟩
  · rw [reserved?, instruction?_stmt, Option.bind_some, if_neg hreserve]

end Stmt

/-- What a part of a compilation adds to a unit: statements that name blocks of the slots that it takes. -/
def Packs (full : Prop) (u u' : TemplateUnit) : Prop :=
  ∃ cs us, u'.creation = u.creation ++ cs ∧ u'.update = u.update ++ us ∧ (∀ s ∈ cs, s.reserved? = none) ∧
    (∀ c ∈ Stmt.ownCallsAll cs ++ Stmt.ownCallsAll us, c.Named) ∧
    Packed full u.slots u.pureSlots
      ((Stmt.ownCallsAll cs ++ Stmt.ownCallsAll us).filterMap RuntimeCall.block?) u'.slots u'.pureSlots

namespace Packs

variable {full : Prop} {u u' u'' : TemplateUnit}

theorem trans (h : Packs full u u') (h' : Packs full u' u'') : Packs full u u'' := by
  obtain ⟨cs, us, hcs, hus, hnone, hnamed, hpacked⟩ := h
  obtain ⟨cs', us', hcs', hus', hnone', hnamed', hpacked'⟩ := h'
  refine ⟨cs ++ cs', us ++ us', by rw [hcs', hcs, List.append_assoc], by rw [hus', hus, List.append_assoc],
    fun s hs => (List.mem_append.mp hs).elim (hnone s) (hnone' s), ?_⟩
  -- The two parts of each step come together.
  have hperm : (Stmt.ownCallsAll (cs ++ cs') ++ Stmt.ownCallsAll (us ++ us')).Perm
      ((Stmt.ownCallsAll cs ++ Stmt.ownCallsAll us) ++
        (Stmt.ownCallsAll cs' ++ Stmt.ownCallsAll us')) := by
    rw [Stmt.ownCallsAll_append, Stmt.ownCallsAll_append, List.append_assoc, List.append_assoc]
    refine .append_left _ ?_
    rw [← List.append_assoc, ← List.append_assoc]
    exact List.perm_append_comm.append_right _
  refine ⟨fun c hc => ?_, ?_⟩
  · rcases List.mem_append.mp (hperm.mem_iff.mp hc) with hc | hc
    · exact hnamed c hc
    · exact hnamed' c hc
  · refine Packed.perm ?_ (hperm.filterMap _)
    rw [List.filterMap_append]
    exact hpacked.append hpacked'

theorem mono {full' : Prop} (h : Packs full u u') (hfull : full' → full) : Packs full' u u' := by
  obtain ⟨cs, us, hcs, hus, hnone, hnamed, hpacked⟩ := h
  exact ⟨cs, us, hcs, hus, hnone, hnamed, hpacked.mono hfull⟩

/-- Statements that name no blocks. -/
theorem plain {cs us : List Stmt} (hcs : u'.creation = u.creation ++ cs)
    (hus : u'.update = u.update ++ us) (hplain : ∀ s ∈ cs, s.Plain)
    (hcalls : ∀ c ∈ Stmt.ownCallsAll us, Instruction.isPlain c.name = true) (hslots : u.slots ≤ u'.slots)
    (hpure : u'.pureSlots = u.pureSlots) : Packs full u u' := by
  have hall : ∀ c ∈ Stmt.ownCallsAll cs ++ Stmt.ownCallsAll us, Instruction.isPlain c.name = true := by
    intro c hc
    rw [List.mem_append, Stmt.ownCallsAll_eq_flatMap, List.mem_flatMap] at hc
    rcases hc with ⟨s, hs, hc⟩ | hc
    · exact (hplain s hs).calls c hc
    · exact hcalls c hc
  refine ⟨cs, us, hcs, hus, fun s hs => (hplain s hs).reserved, fun c hc => .of_isPlain (hall c hc), ?_⟩
  rw [List.filterMap_eq_nil_iff.mpr fun c hc => block?_eq_none (hall c hc), hpure]
  exact .nil hslots

/-- A step that only adds a statement to the first run. -/
theorem created {s : Stmt} (hs : s.Plain) (n : Nat) : Packs full u ((u.take n).created [s]) :=
  plain rfl (List.append_nil _).symm (List.forall_mem_singleton.mpr hs) (fun _ hc => (nomatch hc))
    (Nat.le_add_right ..) rfl

end Packs

section

variable {settings : TemplateSettings} {f : Assembly}

/-- What a unit declares calls nothing but the loading of references. -/
theorem Lexicon.Settled.calls {L : Lexicon} (h : L.Settled f) (hL : L.Local) {x : Text} {t : Term}
    (hmem : (x, t) ∈ f.scopes.declared L.id) : ∀ c ∈ t.calls, Instruction.isPlain c.name = true := by
  obtain ⟨p, hp, -, ht⟩ := h.exists_binding hmem
  rcases p with ⟨name, b⟩
  cases hL _ hp with
  | event => cases ht
  | reference =>
      cases ht
      rw [Instruction.calls_call]
      exact List.forall_mem_cons.mpr ⟨rfl, by simp [Term.callsAll]⟩
  | property =>
      cases ht
      simp [Lexicon.variableValue]

theorem ownCallsAll_declarations {L : Lexicon} (h : L.Settled f) (hL : L.Local) :
    ∀ c ∈ Stmt.ownCallsAll (f.scopes.declarations L.id), Instruction.isPlain c.name = true := by
  intro c hc
  rw [Stmt.ownCallsAll_eq_flatMap, ScopeTree.declarations_eq_map] at hc
  obtain ⟨s, hs, hc⟩ := List.mem_flatMap.mp hc
  obtain ⟨d, hd, rfl⟩ := List.mem_map.mp hs
  exact h.calls hL hd c hc

/-- An event handler calls nothing but the loading of references. -/
theorem HandlerCode.isPlain_calls {L : Lexicon} {e : Expr} {fn : FunctionCode} {id count : Nat}
    {ts : List Term} (h : HandlerCode f L e fn id count ts) (hL : L.Local) :
    ∀ c ∈ fn.term.calls, Instruction.isPlain c.name = true := by
  intro c hc
  rw [FunctionCode.term, Term.calls, h.body, handlerBody, Stmt.callsAll_append, Stmt.callsAll_append,
    callsAll_temporaries, List.nil_append, Stmt.callsAll_eq_flatMap, Stmt.callsAll_eq_flatMap] at hc
  rcases List.mem_append.mp hc with hc | hc
  · obtain ⟨s, hs, hc⟩ := List.mem_flatMap.mp hc
    rw [ScopeTree.declarations_eq_map] at hs
    obtain ⟨d, hd, rfl⟩ := List.mem_map.mp hs
    exact h.settled.calls (hL.enter id) hd c hc
  · -- The values themselves call nothing.
    obtain ⟨s, hs, hc⟩ := List.mem_flatMap.mp hc
    rcases List.mem_append.mp hs with hs | hs
    · obtain ⟨t, ht, rfl⟩ := List.mem_map.mp hs
      rw [Stmt.ofTerm, Stmt.calls, h.calls t (List.dropLast_subset ts ht)] at hc
      cases hc
    · obtain ⟨t, ht, rfl⟩ := Option.map_eq_some_iff.mp (Option.mem_toList.mp hs)
      rw [Stmt.calls, Term.calls_operation, Term.calls_erased, Term.calls_ofValue,
        h.calls t (List.mem_of_getLast? ht)] at hc
      cases hc

theorem ValueCode.packed_statements {L : Lexicon} {u : TemplateUnit} {e : Expr} {v : LoweredValue}
    (h : ValueCode settings f L u e v) (he : e.Every fun x => x.isSource = true) {b : Nat}
    {i : Instruction} {args : List Term} {span : Option SourceSpan}
    (hi : Instruction.isPlain i.name = true) (hquery : i.name ≠ Instruction.query.name)
    (hargs : Term.callsAll args = (v.passed b).calls) :
    (∀ c ∈ Stmt.ownCallsAll (v.statements b ++ [i.stmt args span]), c.Named) ∧
      Packed (e.Every fun x => x.isPaired = true) u.slots u.pureSlots
        ((Stmt.ownCallsAll (v.statements b ++ [i.stmt args span])).filterMap RuntimeCall.block?)
        (u.slots + v.pipes.length) v.stop := by
  have hlines : ∀ s ∈ v.statements b ++ [i.stmt args span], s.isLine = true := by
    refine List.forall_mem_append.mpr ⟨fun s hs => ?_, List.forall_mem_singleton.mpr ?_⟩
    · unfold LoweredValue.statements at hs
      split at hs
      · cases hs
      · rcases List.mem_append.mp hs with hs | hs
        · obtain ⟨k, -, rfl⟩ := List.mem_map.mp hs
          rfl
        · rw [List.mem_singleton.mp hs]
          rfl
    · exact Bool.and_eq_true_iff.mpr ⟨rfl, by simp [Stmt.isQuery, Stmt.instruction?_stmt, hquery]⟩
  have hwrapping : ∀ c ∈ v.wrapping b, Instruction.isPlain c.name = true := by
    unfold LoweredValue.wrapping
    split
    · exact fun c hc => nomatch hc
    · exact List.forall_mem_singleton.mpr rfl
  obtain ⟨hnamed, hpacked⟩ := h.packed he
  rw [Stmt.ownCallsAll_of_isLine hlines]
  have hperm : (Stmt.callsAll (v.statements b ++ [i.stmt args span])).Perm _ := v.perm_calls b hargs
  refine ⟨fun c hc => ?_, hpacked.perm ?_⟩
  · rcases List.mem_cons.mp (hperm.mem_iff.mp hc) with rfl | hc
    · exact .of_isPlain hi
    · exact (List.mem_append.mp hc).elim (fun hc => .of_isPlain (hwrapping c hc)) (hnamed c)
  · refine (hperm.filterMap _).trans ?_
    rw [List.filterMap_cons_none (block?_eq_none hi), List.filterMap_append,
      List.filterMap_eq_nil_iff.mpr fun c hc => block?_eq_none (hwrapping c hc), List.nil_append]

theorem callsAll_of_constant {pool : Pool} {args : List Term} (h : ∀ t ∈ args, pool.Constant t) :
    Term.callsAll args = [] := by
  rw [Term.callsAll_eq_flatMap]
  exact List.flatMap_eq_nil_iff.mpr fun t ht => Term.calls_of_isConstant t (h t ht).isConstant

theorem isPlain_refresh (q : Query) (slot : Nat) :
    ∀ c ∈ (q.refresh slot).ownCalls, Instruction.isPlain c.name = true := by
  have hvalue : (if q.first then Term.prop {} (.ofVar queryTemporary) "first"
      else .ofVar queryTemporary).calls = [] := by
    cases q.first <;> simp
  have hcalls : (q.refresh slot).ownCalls =
      [⟨Instruction.queryRefresh.name, [.set (.ofVar queryTemporary) (Instruction.load.call [.ofNat slot])]⟩,
        ⟨Instruction.load.name, [.ofNat slot]⟩] := by
    rw [Query.refresh, Stmt.ofTerm, Stmt.ownCalls, if_neg (by simp [Stmt.isQuery, Stmt.instruction?, Term.operation]),
      Term.calls_operation, Instruction.calls_call, Term.calls_set, Term.calls_prop, hvalue]
    simp [Term.callsAll, Instruction.calls_call]
  rw [hcalls]
  exact List.forall_mem_cons.mpr ⟨rfl, List.forall_mem_singleton.mpr rfl⟩

/-- What a binding adds to a unit. -/
theorem ValueCode.packs {L : Lexicon} {u : TemplateUnit} {e : Expr} {v : LoweredValue} {full : Prop}
    (h : ValueCode settings f L u e v) (he : e.Every fun x => x.isSource = true)
    (hfull : full → e.Every fun x => x.isPaired = true) {i : Instruction} {args : List Term}
    {span : Option SourceSpan} (hi : Instruction.isPlain i.name = true)
    (hquery : i.name ≠ Instruction.query.name)
    (hargs : Term.callsAll args = (v.passed u.bindings).calls) :
    Packs full u ((u.evaluated v).updated [i.stmt args span]) := by
  have hpipes : ∀ s ∈ v.pipes.map Pipe.stmt, s.Plain := by
    intro s hs
    obtain ⟨p, -, rfl⟩ := List.mem_map.mp hs
    exact .stmt rfl (by decide) (by decide) (by simp [Term.callsAll])
  have hplain : ∀ c ∈ Stmt.ownCallsAll (v.pipes.map Pipe.stmt), Instruction.isPlain c.name = true := by
    intro c hc
    rw [Stmt.ownCallsAll_eq_flatMap] at hc
    obtain ⟨s, hs, hc⟩ := List.mem_flatMap.mp hc
    exact (hpipes s hs).calls c hc
  obtain ⟨hnamed, hpacked⟩ := h.packed_statements he hi hquery hargs
  refine ⟨v.pipes.map Pipe.stmt, _, rfl, List.append_assoc .., fun s hs => (hpipes s hs).reserved,
    fun c hc => ?_, ?_⟩
  · exact (List.mem_append.mp hc).elim (fun hc => .of_isPlain (hplain c hc)) (hnamed c)
  · rw [List.filterMap_append, List.filterMap_eq_nil_iff.mpr fun c hc => block?_eq_none (hplain c hc),
      List.nil_append]
    exact hpacked.mono hfull

/-- What an item adds to a unit. -/
theorem Step.packs {i : Item} {g g' : Stage} (h : Step settings f i g g') (hg : g.names.Local)
    (hsource : ∀ e, i.value? = some e → e.Every fun x => x.isSource = true) :
    Packs (∀ e, i.value? = some e → e.Every fun x => x.isPaired = true) g.unit g'.unit := by
  have hnone : ∀ c ∈ ([] : List RuntimeCall), Instruction.isPlain c.name = true :=
    List.forall_mem_nil _
  have hconstant : ∀ {args : List Term}, (∀ t ∈ args, f.pool.Constant t) →
      ∀ c ∈ Term.callsAll args, Instruction.isPlain c.name = true := by
    intro args hargs c hc
    rw [callsAll_of_constant hargs] at hc
    cases hc
  have hslotted : ∀ {slot : Nat} {args : List Term}, (∀ t ∈ args, f.pool.Constant t) →
      ∀ c ∈ Term.callsAll (.ofNat slot :: args), Instruction.isPlain c.name = true := by
    intro slot args hargs
    rw [Term.callsAll, Term.calls_ofNat]
    exact hconstant hargs
  cases h with
  | nested =>
      exact .plain (List.append_nil _).symm (List.append_nil _).symm (List.forall_mem_nil _) hnone
        (Nat.le_refl _) rfl
  | item h =>
      cases h with
      | none =>
          exact .plain (List.append_nil _).symm (List.append_nil _).symm (List.forall_mem_nil _) hnone
            (Nat.le_refl _) rfl
      | mark hi hargs =>
          simp only [List.mem_cons, List.not_mem_nil, or_false] at hi
          rcases hi with rfl | rfl | rfl <;>
            exact .created (.stmt rfl (by decide) (by decide) (hconstant hargs)) 0
      | leaf hi hargs =>
          rcases hi with ⟨rfl, -⟩ | rfl <;>
            exact .created (.stmt rfl (by decide) (by decide) (hslotted hargs)) 1
      | query =>
          refine .plain rfl rfl (List.forall_mem_singleton.mpr ⟨hnone, rfl⟩) ?_ (Nat.le_succ _) rfl
          rw [Stmt.ownCallsAll, Stmt.ownCallsAll, List.append_nil]
          exact isPlain_refresh _ _
      | @boundText L u u₁ a e v span span' hu hv =>
          have htext : Packs (∀ d, Item.value? (.boundText e) = some d → d.Every fun x => x.isPaired = true)
              u u₁ := by
            rw [hu]
            exact .created (.stmt rfl (by decide) (by decide) (hslotted fun _ ht => absurd ht List.not_mem_nil)) 1
          refine htext.trans (hv.packs (hsource e rfl) (fun hf => hf e rfl) rfl (by decide) ?_)
          rw [hu]
          simp [Term.callsAll, TemplateUnit.created, TemplateUnit.take]
      | @element L u a refs space i switch args span hi hswitch hargs =>
          refine .plain rfl (List.append_nil _).symm ?_ hnone (Nat.le_add_right ..) rfl
          refine List.forall_mem_append.mpr ⟨fun s hs => ?_, List.forall_mem_singleton.mpr ?_⟩
          · rcases hswitch with rfl | ⟨hspace, rfl⟩
            · cases hs
            · rw [List.mem_singleton.mp hs]
              simp only [List.mem_cons, List.not_mem_nil, or_false] at hspace
              rcases hspace with rfl | rfl | rfl <;> exact .stmt rfl (by decide) (by decide) hnone
          · simp only [List.mem_cons, List.not_mem_nil, or_false] at hi
            rcases hi with rfl | rfl | rfl <;>
              exact .stmt rfl (by decide) (by decide) (hslotted hargs)
      | container hargs =>
          refine .created (.stmt rfl (by decide) (by decide) ?_) _
          rw [Term.callsAll, Term.callsAll, Term.calls_ofNat, Term.calls_ofVar]
          exact hconstant hargs
      | output hhandler =>
          refine .created (.stmt rfl (by decide) (by decide) ?_) 0
          rw [Term.callsAll, Term.callsAll, Term.callsAll, Term.calls_ofText, List.append_nil]
          exact hhandler.isPlain_calls hg
      | @input L u a i instruction v unit span hi hv hunit =>
          have hargs := callsAll_inputArguments a i.name (v.passed u.bindings) hunit
          simp only [List.mem_cons, List.not_mem_nil, or_false] at hi
          rcases hi with rfl | rfl | rfl | rfl <;>
            exact hv.packs (hsource _ rfl) (fun hf => hf _ rfl) rfl (by decide) hargs

/-- What items add to a unit one after the other. -/
theorem Steps.packs {is : List Item} {g g' : Stage} (h : Steps settings f is g g') (hg : g.names.Local)
    (hsource : ∀ e ∈ is.filterMap Item.value?, e.Every fun x => x.isSource = true) :
    Packs (∀ e ∈ is.filterMap Item.value?, e.Every fun x => x.isPaired = true) g.unit g'.unit := by
  induction is generalizing g with
  | nil =>
      cases h
      exact .plain (List.append_nil _).symm (List.append_nil _).symm (List.forall_mem_nil _)
        (List.forall_mem_nil _) (Nat.le_refl _) rfl
  | cons i is ih =>
      cases h with
      | @cons _ _ _ g₁ _ hi his =>
          have hhead : ∀ e, i.value? = some e → e ∈ (i :: is).filterMap Item.value? :=
            fun e he => List.mem_filterMap.mpr ⟨i, List.mem_cons_self, he⟩
          have htail : is.filterMap Item.value? ⊆ (i :: is).filterMap Item.value? :=
            ((List.sublist_cons_self i is).filterMap _).subset
          have hone := hi.packs hg fun e he => hsource e (hhead e he)
          have hrest := ih his (hi.local hg) fun e he => hsource e (htail he)
          exact (hone.mono fun hf e he => hf e (hhead e he)).trans (hrest.mono fun hf e he => hf e (htail he))

end

/-! ### Compiled templates -/

/-- The pure slots of a unit: its calls of pipes and pure functions have blocks that are apart and within
the slots that it reserves. If every map has as many values as keys, no slot is left over. -/
structure UnitPlan.Tiled (p : UnitPlan) (fn : FunctionCode) : Prop where
  named : ∀ c ∈ fn.ownCalls, c.Named
  apart : fn.blocks.Pairwise Block.Apart
  within : ∀ b ∈ fn.blocks, b.stop ≤ fn.reserved
  covered : (∀ e ∈ p.values, e.Every fun x => x.isPaired = true) →
    ∀ k < fn.reserved, ∃ b ∈ fn.blocks, b.start ≤ k ∧ k < b.stop
  /-- Slots are reserved last, and if there are any. -/
  reserved : fn.creation.filterMap Stmt.reserved? = if fn.reserved = 0 then [] else [fn.reserved]

section

variable {settings : TemplateSettings} {f : Assembly} {p : UnitPlan} {fn : FunctionCode}

theorem UnitCode.ownCalls_eq {start g : Stage} (h : UnitCode settings f p fn start g) :
    fn.ownCalls = Stmt.ownCallsAll g.unit.creation ++ (Stmt.ownCallsAll g.unit.reservation ++
      (Stmt.ownCallsAll (f.scopes.declarations g.names.id) ++ Stmt.ownCallsAll g.unit.update)) := by
  obtain ⟨qs, rfl⟩ := h.function
  simp only [FunctionCode.ownCalls, TemplateUnit.function, Stmt.ownCallsAll_append,
    Stmt.ownCallsAll_phase, Stmt.ownCallsAll_of_isQuiet h.nested,
    Stmt.ownCallsAll_of_isQuiet (isQuiet_temporaries qs), List.nil_append, List.append_nil,
    List.append_assoc]

theorem TemplateUnit.reserved_eq (u : TemplateUnit) {ss : List Stmt} (hfn : fn.creation = ss ++ u.reservation)
    (h : ∀ s ∈ ss, s.reserved? = none) : fn.reserved = u.pureSlots ∧
      fn.creation.filterMap Stmt.reserved? = if fn.reserved = 0 then [] else [fn.reserved] := by
  have hss : ss.filterMap Stmt.reserved? = [] := List.filterMap_eq_nil_iff.mpr h
  have hreserved : fn.reserved = u.pureSlots := by
    unfold FunctionCode.reserved
    rw [hfn]
    unfold reservation
    split
    · next hzero =>
        rw [List.append_nil, hzero]
        cases hlast : ss.getLast? with
        | none => rfl
        | some s => rw [Option.bind_some, h s (List.mem_of_getLast? hlast)]; rfl
    · have hslots : (Instruction.reserveSlots.stmt [.ofNat u.pureSlots]).reserved? = some u.pureSlots := by
        rw [Stmt.reserved?, Stmt.instruction?_stmt, Option.bind_some, if_pos rfl]
        exact Term.nat?_ofNat _
      rw [List.getLast?_concat, Option.bind_some, hslots]
      rfl
  refine ⟨hreserved, ?_⟩
  rw [hreserved, hfn, List.filterMap_append, hss, List.nil_append]
  unfold reservation
  split
  · rfl
  · rw [List.filterMap_cons, Stmt.reserved?, Stmt.instruction?_stmt, Option.bind_some, if_pos rfl]
    exact congrArg (fun n : Option Nat => match n with | none => [] | some n => [n]) (Term.nat?_ofNat _)

theorem UnitPlan.Code.tiled (h : p.Code settings f fn)
    (hsource : ∀ e ∈ p.values, e.Every fun x => x.isSource = true) : p.Tiled fn := by
  obtain ⟨start, g, h⟩ := h
  obtain ⟨cs, us, hcs, hus, hnone, hnamed, hpacked⟩ := h.steps.packs h.entries hsource
  have hempty : start.unit.creation = [] ∧ start.unit.update = [] ∧ start.unit.pureSlots = 0 := by
    rw [h.blank]
    exact ⟨rfl, rfl, rfl⟩
  rw [hempty.1, List.nil_append] at hcs
  rw [hempty.2.1, List.nil_append] at hus
  rw [hempty.2.2] at hpacked
  subst hcs hus
  obtain ⟨hreserved, hlast⟩ := g.unit.reserved_eq h.creation hnone
  -- What the unit reserves and declares names no blocks.
  have hplain : ∀ c ∈ Stmt.ownCallsAll g.unit.reservation ++
      Stmt.ownCallsAll (f.scopes.declarations g.names.id), Instruction.isPlain c.name = true := by
    intro c hc
    rcases List.mem_append.mp hc with hc | hc
    · unfold TemplateUnit.reservation at hc
      split at hc
      · cases hc
      · rw [Stmt.ownCallsAll, Stmt.ownCalls_stmt (by decide)] at hc
        simp only [Term.callsAll, Term.calls_ofNat, List.append_nil, Stmt.ownCallsAll,
          List.mem_singleton] at hc
        rw [hc]
        rfl
    · exact ownCallsAll_declarations h.settled (h.steps.local h.entries) c hc
  have hperm : fn.ownCalls.Perm ((Stmt.ownCallsAll g.unit.reservation ++
      Stmt.ownCallsAll (f.scopes.declarations g.names.id)) ++
      (Stmt.ownCallsAll g.unit.creation ++ Stmt.ownCallsAll g.unit.update)) := by
    rw [h.ownCalls_eq, ← List.append_assoc (Stmt.ownCallsAll g.unit.reservation), ← List.append_assoc]
    rw [← List.append_assoc (_ ++ _) (Stmt.ownCallsAll g.unit.creation)]
    exact List.perm_append_comm.append_right _
  have hblocks : fn.blocks.Perm ((Stmt.ownCallsAll g.unit.creation ++
      Stmt.ownCallsAll g.unit.update).filterMap RuntimeCall.block?) := by
    refine (hperm.filterMap _).trans ?_
    rw [List.filterMap_append, List.filterMap_eq_nil_iff.mpr fun c hc => block?_eq_none (hplain c hc),
      List.nil_append]
  have hpacked := hpacked.perm hblocks
  rw [← hreserved] at hpacked
  refine ⟨fun c hc => ?_, hpacked.apart, fun b hb => (hpacked.within b hb).2,
    fun hf k hk => hpacked.covers hf k (Nat.zero_le k) hk, hlast⟩
  rcases List.mem_append.mp (hperm.mem_iff.mp hc) with hc | hc
  · exact .of_isPlain (hplain c hc)
  · exact hnamed c hc

end

/-- The blocks of pure slots do not overlap in any unit of a compiled template. -/
theorem blocks_tile {settings : TemplateSettings} {nodes : List Node} {c : CompiledTemplate}
    {pool pool' : Pool} (hpool : pool.Sound) (h : compileTemplate settings nodes pool = (.ok c, pool')) :
    List.Forall₂ (fun p fn => (∀ e ∈ p.values, e.Every fun x => x.isSource = true) → p.Tiled fn)
      (settings.plan nodes) c.units := by
  obtain ⟨f, g, rfl, hcompiled⟩ := compiled_of_compileTemplate hpool h
  exact hcompiled.units.imp fun p fn hp hsource => hp.tiled hsource

namespace Sample

/-- The result of a pipe in a text of its own and in a template, both with a pure function. -/
def safelyPiped : List Node :=
  let p : Place := ⟨none, none⟩
  let read (name : Text) : Expr := .read p (.context p) name
  [.boundText none (.safeRead p (.pipe p (read "x") "up" [.array p [read "y"]]) "z"),
    .template none [] {} [] [.boundText none (.map p [⟨"k", false⟩] [.pipe p (read "x") "low" []])]]

theorem blocks_tile_safelyPiped : Pool.Sound {} ∧
    (∀ p ∈ TemplateSettings.plan {} safelyPiped, ∀ e ∈ p.values,
      e.Every (fun x => x.isSource = true) ∧ e.Every fun x => x.isPaired = true) ∧
    ∃ c pool, compileTemplate {} safelyPiped {} = (.ok c, pool) ∧
      List.Forall₂ UnitPlan.Tiled (TemplateSettings.plan {} safelyPiped) c.units := by
  have hvalues : ∀ p ∈ TemplateSettings.plan {} safelyPiped, ∀ e ∈ p.values,
      e.Every (fun x => x.isSource = true) ∧ e.Every fun x => x.isPaired = true := by
    have hnodes : ∀ p ∈ TemplateSettings.plan {} safelyPiped, ∀ e ∈ p.values, ∀ x ∈ e.nodes,
        x.isSource = true ∧ x.isPaired = true := by
      decide
    exact fun p hp e he => ⟨(Expr.every_iff_nodes e).mpr fun x hx => (hnodes p hp e he x hx).1,
      (Expr.every_iff_nodes e).mpr fun x hx => (hnodes p hp e he x hx).2⟩
  obtain ⟨c, pool, h⟩ := exists_compiled_of_isOk
    (by decide +kernel : (compileTemplate {} safelyPiped {}).1.isOk = true)
  refine ⟨.empty, hvalues, c, pool, h, ?_⟩
  exact ((List.forall₂_and_left _ _).mpr ⟨hvalues, blocks_tile .empty h⟩).imp
    fun p fn hp => hp.2 fun e he => (hp.1 e he).1

/-- A map with a value but no key for it. -/
def unkeyed : List Node :=
  let p : Place := ⟨none, none⟩
  [.boundText none (.map p [] [.pipe p (.read p (.context p) "x") "up" []])]

/-- The pipe of a value that is dropped takes slots that nothing uses, and a pipe that a query or a binding
is given takes none. -/
theorem slots_unused_unkeyed :
    (∃ c pool fn, compileTemplate {} unkeyed {} = (.ok c, pool) ∧
      c.units = [fn] ∧ fn.reserved = 3 ∧ ∀ b ∈ fn.blocks, ¬(b.start ≤ 0 ∧ 0 < b.stop)) ∧
    (∃ c pool fn, compileTemplate givenPipe [] {} = (.ok c, pool) ∧
      c.units = [fn] ∧ fn.reserved = 0 ∧
      ⟨some 0, 0, 2⟩ ∈ (Stmt.callsAll fn.body).filterMap RuntimeCall.block?) ∧
    ∃ c pool fn, compileTemplate {} placedPipe {} = (.ok c, pool) ∧
      c.units = [fn] ∧ fn.reserved = 0 ∧ ⟨some 7, 5, 7⟩ ∈ fn.blocks := by
  refine ⟨?_, ?_, ?_⟩
  · obtain ⟨c, pool, fn, h, hfn, heq⟩ := exists_unit_of_map (by decide +kernel :
      (compileTemplate {} unkeyed {}).1.toOption.map (fun c => c.units.map fun fn =>
        (fn.reserved, fn.blocks)) = some [(3, [pureBlock 2 0])])
    obtain ⟨hreserved, hblocks⟩ := Prod.mk.inj heq
    refine ⟨c, pool, fn, h, hfn, hreserved, ?_⟩
    rw [hblocks]
    decide
  · obtain ⟨c, pool, fn, h, hfn, heq⟩ := exists_unit_of_map (by decide +kernel :
      (compileTemplate givenPipe [] {}).1.toOption.map (fun c => c.units.map fun fn =>
        (fn.reserved, (Stmt.callsAll fn.body).filterMap RuntimeCall.block?)) = some [(0, [⟨some 0, 0, 2⟩])])
    obtain ⟨hreserved, hblocks⟩ := Prod.mk.inj heq
    refine ⟨c, pool, fn, h, hfn, hreserved, ?_⟩
    rw [hblocks]
    exact List.mem_singleton_self _
  · obtain ⟨c, pool, fn, h, hfn, heq⟩ := exists_unit_of_map (by decide +kernel :
      (compileTemplate {} placedPipe {}).1.toOption.map (fun c => c.units.map fun fn =>
        (fn.reserved, fn.blocks)) = some [(0, [⟨some 7, 5, 7⟩])])
    obtain ⟨hreserved, hblocks⟩ := Prod.mk.inj heq
    refine ⟨c, pool, fn, h, hfn, hreserved, ?_⟩
    rw [hblocks]
    exact List.mem_singleton_self _

end Sample

end TemplateCompiler
