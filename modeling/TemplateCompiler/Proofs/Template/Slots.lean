import TemplateCompiler.Proofs.Template.Units

/-!
# Data slots

A unit numbers what it creates. The slots are taken one after the other, and an element or container is
followed by one slot for each of its references.

* `Stmt.slot?` : the slot that a statement creates something in;
* `Laid n ks ss m` : the statements `ss` create things in the slots from `n` up to `m`, where `ks` are the
  numbers of references of the elements and containers among them;
* `UnitCode.laid` : the first run of a unit does this from the slot 0 on;
* `FunctionCode.pipeName` : the pipe in a slot, which is found again because slots are different.
-/

namespace TemplateCompiler

/-! ### Instructions as statements -/

def Stmt.instruction? : Stmt → Option RuntimeCall
  | .expr _ (.call _ f args _) => f.runtime?.map (⟨·, args⟩)
  | _ => none

theorem Stmt.instruction?_stmt (i : Instruction) (args : List Term) (span : Option SourceSpan) :
    (i.stmt args span).instruction? = some ⟨i.name, args⟩ := rfl

/-- The instructions that create something in a slot, which is their first argument. -/
def Instruction.slotted : List Instruction :=
  [.query, .element, .elementStart, .containerStart, .container, .text, .projection, .pipe]

/-- The instructions that create elements and containers. -/
def Instruction.anchors : List Instruction := [.element, .elementStart, .containerStart, .container]

namespace Stmt

/-- The slot that a statement creates something in. -/
def slot? (s : Stmt) : Option Nat :=
  s.instruction?.bind fun c =>
    if c.name ∈ Instruction.slotted.map Instruction.name then c.args.head?.bind Term.nat? else none

/-- Whether a statement creates an element or container. -/
def isAnchor (s : Stmt) : Bool :=
  s.instruction?.any fun c => c.name ∈ Instruction.anchors.map Instruction.name

/-- The slot and the name of the pipe that a statement creates. -/
def pipe? (s : Stmt) : Option (Nat × Text) :=
  s.instruction?.bind fun c =>
    match c.args with
    | [slot, .lit _ (.text name)] =>
      if c.name = Instruction.pipe.name then slot.nat?.map (·, name) else none
    | _ => none

variable {i : Instruction} {args : List Term} {span : Option SourceSpan}

theorem slot?_stmt (h : i ∈ Instruction.slotted) (slot : Nat) :
    (i.stmt (.ofNat slot :: args) span).slot? = some slot := by
  rw [slot?, instruction?_stmt, Option.bind_some, if_pos (List.mem_map_of_mem h)]
  exact Term.nat?_ofNat slot

theorem slot?_stmt_of_notMem (h : i.name ∉ Instruction.slotted.map Instruction.name) :
    (i.stmt args span).slot? = none := by
  rw [slot?, instruction?_stmt, Option.bind_some, if_neg h]

theorem isAnchor_stmt : (i.stmt args span).isAnchor =
    decide (i.name ∈ Instruction.anchors.map Instruction.name) := rfl

theorem slot?_of_pipe? {s : Stmt} {slot : Nat} {name : Text} (h : s.pipe? = some (slot, name)) :
    s.slot? = some slot := by
  obtain ⟨c, hc, h⟩ := Option.bind_eq_some_iff.mp h
  rw [slot?, hc, Option.bind_some]
  split at h
  · next t note text hargs =>
      split at h
      · next hname =>
          obtain ⟨n, hn, heq⟩ := Option.map_eq_some_iff.mp h
          obtain ⟨rfl, -⟩ := Prod.mk.inj heq
          rw [hname, if_pos (by decide), hargs]
          exact hn
      · cases h
  · cases h

end Stmt

theorem Pipe.pipe?_stmt (p : Pipe) : p.stmt.pipe? = some (p.slot, p.name) := by
  have hslot := Term.nat?_ofNat p.slot
  change (if Instruction.pipe.name = Instruction.pipe.name then
    (Term.ofNat p.slot).nat?.map (·, p.name) else none) = _
  rw [if_pos rfl, hslot]
  rfl

/-! ### Layouts -/

/-- Statements that create things in consecutive slots, those of references apart. -/
inductive Laid : Nat → List Nat → List Stmt → Nat → Prop
  | nil {n : Nat} : Laid n [] [] n
  | none {n m : Nat} {ks : List Nat} {s : Stmt} {ss : List Stmt} :
      s.slot? = .none → Laid n ks ss m → Laid n ks (s :: ss) m
  | plain {n m : Nat} {ks : List Nat} {s : Stmt} {ss : List Stmt} :
      s.slot? = some n → s.isAnchor = false → Laid (n + 1) ks ss m → Laid n ks (s :: ss) m
  /-- The slots after an element or container are those of its references. -/
  | anchor {n m k : Nat} {ks : List Nat} {s : Stmt} {ss : List Stmt} :
      s.slot? = some n → s.isAnchor = true → Laid (n + (1 + k)) ks ss m → Laid n (k :: ks) (s :: ss) m

namespace Laid

variable {n m o : Nat} {ks ks' : List Nat} {s : Stmt} {ss ss' : List Stmt}

theorem append (h : Laid n ks ss m) (h' : Laid m ks' ss' o) : Laid n (ks ++ ks') (ss ++ ss') o := by
  induction h with
  | nil => exact h'
  | none hs _ ih => exact .none hs (ih h')
  | plain hs ha _ ih => exact .plain hs ha (ih h')
  | anchor hs ha _ ih => exact .anchor hs ha (ih h')

theorem of_slot?_eq_none (h : ∀ s ∈ ss, s.slot? = Option.none) : Laid n [] ss n := by
  induction ss with
  | nil => exact .nil
  | cons s ss ih =>
      obtain ⟨hs, hss⟩ := List.forall_mem_cons.mp h
      exact .none hs (ih hss)

theorem pipes {ps : List Pipe} : ∀ {n offset : Nat}, Pipe.Placed n offset ps →
    Laid n [] (ps.map Pipe.stmt) (n + ps.length) := by
  induction ps with
  | nil => exact fun _ => .nil
  | cons p ps ih =>
      rintro n offset ⟨rfl, -, -, hps⟩
      have hlength : p.slot + 1 + ps.length = p.slot + (p :: ps).length := by
        rw [List.length_cons]
        omega
      exact .plain (Stmt.slot?_stmt (by decide) _) rfl (hlength ▸ ih hps)

theorem le (h : Laid n ks ss m) : n ≤ m := by
  induction h with
  | nil => exact Nat.le_refl _
  | none _ _ ih => exact ih
  | plain _ _ _ ih => omega
  | anchor _ _ _ ih => omega

theorem sorted (h : Laid n ks ss m) :
    (ss.filterMap Stmt.slot?).Pairwise (· < ·) ∧ ∀ k ∈ ss.filterMap Stmt.slot?, n ≤ k ∧ k < m := by
  induction h with
  | nil => exact ⟨.nil, fun k hk => nomatch hk⟩
  | none hs _ ih => rwa [List.filterMap_cons_none hs]
  | plain hs _ h ih =>
      have hle := h.le
      rw [List.filterMap_cons_some hs]
      refine ⟨.cons (fun k hk => (ih.2 k hk).1) ih.1, List.forall_mem_cons.mpr ⟨by omega, fun k hk => ?_⟩⟩
      have := ih.2 k hk
      omega
  | anchor hs _ h ih =>
      have hle := h.le
      rw [List.filterMap_cons_some hs]
      refine ⟨.cons (fun k hk => ?_) ih.1, List.forall_mem_cons.mpr ⟨by omega, fun k hk => ?_⟩⟩
      · have := ih.2 k hk
        omega
      · have := ih.2 k hk
        omega

end Laid

def Stmt.pipeNameIn (ss : List Stmt) (slot : Nat) : Text := ((ss.filterMap Stmt.pipe?).lookup slot).getD []

def FunctionCode.pipeName (fn : FunctionCode) : Nat → Text := Stmt.pipeNameIn fn.creation

theorem lookup_eq_some_of_mem {β : Type} {k : Nat} {v : β} {l : List (Nat × β)}
    (hnodup : (l.map (·.1)).Nodup) (h : (k, v) ∈ l) : l.lookup k = some v := by
  induction l with
  | nil => cases h
  | cons q l ih =>
      obtain ⟨hq, hl⟩ := List.nodup_cons.mp hnodup
      rw [List.lookup_cons]
      rcases List.mem_cons.mp h with rfl | h
      · rw [beq_self_eq_true]
      · have hne : (k == q.1) = false :=
          beq_false_of_ne fun heq => hq (List.mem_map.mpr ⟨_, h, heq⟩)
        rw [hne]
        exact ih hl h

theorem Laid.pipeNameIn_eq {n m : Nat} {ks : List Nat} {ss : List Stmt} (h : Laid n ks ss m) {p : Pipe}
    (hp : p.stmt ∈ ss) : Stmt.pipeNameIn ss p.slot = p.name := by
  have hmem : (p.slot, p.name) ∈ ss.filterMap Stmt.pipe? := List.mem_filterMap.mpr ⟨_, hp, p.pipe?_stmt⟩
  have hslots : ((ss.filterMap Stmt.pipe?).map (·.1)).Sublist (ss.filterMap Stmt.slot?) := by
    clear hp hmem h
    induction ss with
    | nil => exact .slnil
    | cons s ss ih =>
        cases hs : s.pipe? with
        | none =>
            rw [List.filterMap_cons_none hs, List.filterMap_cons]
            cases s.slot? with
            | none => exact ih
            | some k => exact ih.cons k
        | some q =>
            obtain ⟨slot, name⟩ := q
            rw [List.filterMap_cons_some hs, List.filterMap_cons_some (Stmt.slot?_of_pipe? hs),
              List.map_cons]
            exact ih.cons_cons slot
  have hnodup : ((ss.filterMap Stmt.pipe?).map (·.1)).Nodup :=
    (h.sorted.1.imp Nat.ne_of_lt).sublist hslots
  rw [Stmt.pipeNameIn, lookup_eq_some_of_mem hnodup hmem]
  rfl

/-! ### The slots of a unit -/

def Item.references? : Item → Option (List Named)
  | .element refs | .container refs _ => some refs
  | _ => none

def Item.referenceCounts (is : List Item) : List Nat := (is.filterMap Item.references?).map List.length

section

variable {settings : TemplateSettings} {f : Assembly}

theorem Step.laid {i : Item} {g g' : Stage} (h : Step settings f i g g') :
    ∃ ss, g'.unit.creation = g.unit.creation ++ ss ∧
      Laid g.unit.slots (Item.referenceCounts [i]) ss g'.unit.slots := by
  cases h with
  | nested => exact ⟨[], (List.append_nil _).symm, .nil⟩
  | item h =>
      cases h with
      | none => exact ⟨[], (List.append_nil _).symm, .nil⟩
      | mark hi =>
          refine ⟨_, rfl, .none (Stmt.slot?_stmt_of_notMem ?_) .nil⟩
          simp only [List.mem_cons, List.not_mem_nil, or_false] at hi
          rcases hi with rfl | rfl | rfl <;> decide
      | leaf hi =>
          rcases hi with ⟨rfl, -⟩ | rfl
          · exact ⟨_, rfl, .plain (Stmt.slot?_stmt (by decide) _) rfl .nil⟩
          · exact ⟨_, rfl, .plain (Stmt.slot?_stmt (by decide) _) rfl .nil⟩
      | query => exact ⟨_, rfl, .plain (Stmt.slot?_stmt (by decide) _) rfl .nil⟩
      | boundText hu hv =>
          have hpipes := Laid.pipes hv.placed
          rw [hu] at hpipes ⊢
          exact ⟨_, List.append_assoc .., .plain (Stmt.slot?_stmt (by decide) _) rfl hpipes⟩
      | element hi hswitch =>
          refine ⟨_, rfl, .append (.of_slot?_eq_none ?_) (.anchor (Stmt.slot?_stmt ?_ _) ?_ .nil)⟩
          · rcases hswitch with rfl | ⟨hspace, rfl⟩
            · exact List.forall_mem_nil _
            · refine List.forall_mem_singleton.mpr (Stmt.slot?_stmt_of_notMem ?_)
              simp only [List.mem_cons, List.not_mem_nil, or_false] at hspace
              rcases hspace with rfl | rfl | rfl <;> decide
          · simp only [List.mem_cons, List.not_mem_nil, or_false] at hi
            rcases hi with rfl | rfl | rfl <;> decide
          · simp only [List.mem_cons, List.not_mem_nil, or_false] at hi
            rcases hi with rfl | rfl | rfl <;> rfl
      | container => exact ⟨_, rfl, .anchor (Stmt.slot?_stmt (by decide) _) rfl .nil⟩
      | output => exact ⟨_, rfl, .none (Stmt.slot?_stmt_of_notMem (by decide)) .nil⟩
      | input _ hv => exact ⟨_, rfl, Laid.pipes hv.placed⟩

theorem Steps.laid {is : List Item} {g g' : Stage} (h : Steps settings f is g g') :
    ∃ ss, g'.unit.creation = g.unit.creation ++ ss ∧
      Laid g.unit.slots (Item.referenceCounts is) ss g'.unit.slots := by
  induction is generalizing g with
  | nil =>
      cases h
      exact ⟨[], (List.append_nil _).symm, .nil⟩
  | cons i is ih =>
      cases h with
      | cons hi his =>
          obtain ⟨ss, hss, hlaid⟩ := hi.laid
          obtain ⟨ss', hss', hlaid'⟩ := ih his
          refine ⟨ss ++ ss', by rw [hss', hss, List.append_assoc], ?_⟩
          have hcounts : Item.referenceCounts (i :: is) =
              Item.referenceCounts [i] ++ Item.referenceCounts is := by
            rw [Item.referenceCounts, ← List.singleton_append, List.filterMap_append, List.map_append]
            rfl
          rw [hcounts]
          exact hlaid.append hlaid'

/-- A unit creates everything in consecutive slots from 0 on. -/
theorem UnitCode.laid {p : UnitPlan} {fn : FunctionCode} {start g : Stage}
    (h : UnitCode settings f p fn start g) :
    Laid 0 (Item.referenceCounts p.items) fn.creation g.unit.slots := by
  obtain ⟨ss, hss, hlaid⟩ := h.steps.laid
  have hempty : start.unit.creation = [] ∧ start.unit.slots = 0 := by
    rw [h.blank]
    exact ⟨rfl, rfl⟩
  have hreservation : Laid g.unit.slots [] g.unit.reservation g.unit.slots := by
    refine .of_slot?_eq_none fun s hs => ?_
    unfold TemplateUnit.reservation at hs
    split at hs
    · cases hs
    · rw [List.mem_singleton.mp hs]
      exact Stmt.slot?_stmt_of_notMem (by decide)
  rw [hempty.1, List.nil_append] at hss
  rw [hempty.2] at hlaid
  rw [h.creation, hss, ← List.append_nil (Item.referenceCounts p.items)]
  exact hlaid.append hreservation

end

end TemplateCompiler
