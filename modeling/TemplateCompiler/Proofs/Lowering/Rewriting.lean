import TemplateCompiler.Proofs.Lowering.Nodes

/-!
# Lowering by rewriting

`Expr.lower` collects the guards of an access before it makes any code. The same code comes from rewriting
the tree (`Expr.visit`): the innermost safe access on the spine of a node is taken off its guard, and the very
same node is visited again, until nothing on its spine is guarded. A node does not get smaller by this, so
that it is not plain that it ends.

* `Rewriting` : the state of the visit, which knows nodes by the paths that lead to them;
* `rw.Permits p e` : the node `e` at `p` has more safe accesses off their guards than each time that it was
  converted before, and was converted less often than it has safe accesses on its spine;
* `rw.Reaches p done pins` : below `p`, the safe accesses `done` are off their guards, with the temporaries
  `pins`, and nothing else was touched. A conversion is permitted at each such stage (`permits_of_reaches`) and
  leads to the next one (`Reaches.convert`).
-/

namespace TemplateCompiler

/-! ### The visit -/

/-- A rewrite of a tree that is under way. -/
structure Rewriting where
  /-- The safe accesses that are off their guards. -/
  unguarded : List Path := []
  /-- The receivers that are kept in temporaries. -/
  kept : List (Path × Term) := []
  /-- The conversions that are not finished: of which nodes, and how many safe accesses on their spines were
  off their guards. -/
  entered : List (Path × Nat) := []

namespace Rewriting

/-- How many safe accesses on the spine of the node `e` at `p` are off their guards. -/
def progress (rw : Rewriting) (p : Path) (e : Expr) : Nat := (e.safes p).countP (rw.unguarded.contains ·.1)

/-- Whether the node `e` at `p` may be converted: it is not off its own guard, more of the safe accesses on its
spine are off theirs than each time before, and it was converted less often than there are any. -/
def Permits (rw : Rewriting) (p : Path) (e : Expr) : Prop :=
  p ∉ rw.unguarded ∧ (∀ s ∈ rw.entered, s.1 = p → s.2 < rw.progress p e) ∧
    rw.entered.countP (·.1 = p) < (e.safes p).length

instance (rw : Rewriting) (p : Path) (e : Expr) : Decidable (rw.Permits p e) :=
  inferInstanceAs (Decidable (_ ∧ _ ∧ _))

/-- A conversion of the node `e` at `p`: the safe access `safe` is off its guard, and a temporary keeps its
receiver if there is one. -/
def convert (rw : Rewriting) (p : Path) (e : Expr) (safe : Path) (temporary : Option Term) : Rewriting where
  unguarded := safe :: rw.unguarded
  kept := (temporary.map (0 :: safe, ·)).toList ++ rw.kept
  entered := (p, rw.progress p e) :: rw.entered

end Rewriting

namespace Expr

variable {σ : Type} (host : Host σ)

/-- Visits the node `e` at `p`. If a safe access on its spine is on its guard, the node is converted: the
innermost such access is taken off its guard, and the node is visited again, behind a test of the receiver
of the access. The visit goes `beyond` where visits lie within each other deeper than `limit`, and where a
conversion is not permitted.

Whether a receiver needs a temporary does not depend on what is off its guard: a safe call needs one as much as
another call, and no read does. -/
def visit (beyond : Lower σ Lowered) : Nat → Rewriting → Path → Expr → Lower σ Lowered
  | 0, _, _, _ => beyond
  | limit + 1, rw, p, e =>
    match rw.kept.lookup p, e.leftMost rw.unguarded p with
    | some t, _ => return ⟨t, false⟩
    | none, none => e.nodeCode host fun i c => visit beyond limit rw (i :: p) c
    | none, some (safe, receiver) =>
      if rw.Permits p e then do
        let made ← visit beyond limit rw (0 :: safe) receiver
        if receiver.needsTemporary then
          let t ← Lower.allocate
          let access ← visit beyond limit (rw.convert p e safe (some (.ofVar t.name))) p e
          Lower.release t
          return ⟨.choose (.isBlank (.set (.ofVar t.name) made.code)) .null (some access.code), false⟩
        else
          let access ← visit beyond limit (rw.convert p e safe none) p e
          return ⟨.choose (.isBlank made.code) .null (some access.code), false⟩
      else beyond

mutual

def visitStatements (beyond : Lower σ Lowered) (limit : Nat) : Path → Expr → Lower σ (List Stmt)
  | p, chain _ es => visitAllStatements beyond limit p 0 es
  | _, e@(context _) => do throw (.illegal (.notExpression (← Lower.printed e)))
  | _, e@(interpolation ..) => do throw (.illegal (.notExpression (← Lower.printed e)))
  | p, e => do return [.ofTerm (← (visit host beyond limit {} p e).code)]

/-- Visits children of the node at `p` for their statements, from the child `i` on. -/
def visitAllStatements (beyond : Lower σ Lowered) (limit : Nat) :
    Path → Nat → List Expr → Lower σ (List Stmt)
  | _, _, [] => return []
  | p, i, e :: es => do
    let ss ← visitStatements beyond limit (i :: p) e
    return ss ++ (← visitAllStatements beyond limit p (i + 1) es)

end

end Expr

/-! ### The stages of a rewrite -/

namespace Rewriting

/-- Below `p`, the safe accesses `done` are off their guards, with the temporaries `pins` for their receivers,
and of the nodes there only the one at `p` is being converted. -/
structure Reaches (rw : Rewriting) (p : Path) (done : List (Path × Expr)) (pins : Pins) : Prop where
  unguarded : ∀ q, p <:+ q → (q ∈ rw.unguarded ↔ q ∈ done.map Prod.fst)
  kept : ∀ (i : Nat) (s : Path × Expr), done[i]? = some s → rw.kept.lookup (0 :: s.1) = pins[i]?.join
  others : ∀ q, p <:+ q → (∀ s ∈ done, q ≠ 0 :: s.1) → rw.kept.lookup q = none
  entered : ∀ s ∈ rw.entered, p <:+ s.1 → s.1 = p ∧ s.2 < done.length
  entries : rw.entered.countP (·.1 = p) ≤ done.length

variable {rw : Rewriting} {p q : Path} {e r : Expr} {done rest : List (Path × Expr)} {pins : Pins}

theorem reaches_start (p : Path) : Reaches {} p [] [] where
  unguarded q _ := by simp
  kept i s h := absurd h (by simp)
  others q _ _ := rfl
  entered s h := absurd h List.not_mem_nil
  entries := Nat.le_refl 0

/-- No node is kept that has all that is done below it. -/
theorem Reaches.lookup_eq_none (h : rw.Reaches p done pins) (hq : p <:+ q) (hdone : ∀ s ∈ done, q <:+ s.1) :
    rw.kept.lookup q = none := by
  refine h.others q hq fun s hs heq => ?_
  have hsuffix := hdone s hs
  rw [heq] at hsuffix
  exact Path.not_cons_suffix_self 0 s.1 hsuffix

/-- Below a node, only what is done there is left of what is done. -/
theorem Reaches.below (h : rw.Reaches p (done ++ rest) pins) (hq : p <:+ q) (hlt : p.length < q.length)
    (hrest : ∀ s ∈ rest, ¬q <:+ s.1 ∧ (q <:+ 0 :: s.1 → rw.kept.lookup (0 :: s.1) = none)) :
    rw.Reaches q done pins where
  unguarded x hx := by
    rw [h.unguarded x (hq.trans hx), List.map_append, List.mem_append]
    refine or_iff_left fun hmem => ?_
    obtain ⟨s, hs, rfl⟩ := List.mem_map.mp hmem
    exact (hrest s hs).1 hx
  kept i s hs := by
    refine h.kept i s ?_
    rw [List.getElem?_append_left (List.getElem?_eq_some_iff.mp hs).1, hs]
  others x hx hdone := by
    by_cases hmem : ∃ s ∈ rest, x = 0 :: s.1
    · obtain ⟨s, hs, rfl⟩ := hmem
      exact (hrest s hs).2 hx
    · refine h.others x (hq.trans hx) fun s hs heq => ?_
      rcases List.mem_append.mp hs with hs | hs
      · exact hdone s hs heq
      · exact hmem ⟨s, hs, heq⟩
  entered s hs hx := by
    have hp := (h.entered s hs (hq.trans hx)).1
    rw [hp] at hx
    exact absurd hx.length_le (Nat.not_le.mpr hlt)
  entries := by
    refine Nat.le_trans (Nat.le_of_eq (List.countP_eq_zero.mpr fun s hs hsq => ?_)) (Nat.zero_le _)
    have hsq : s.1 = q := of_decide_eq_true hsq
    have hp := (h.entered s hs (hsq ▸ hq)).1
    rw [← hsq, hp] at hlt
    exact Nat.lt_irrefl _ hlt

section Stage

variable (hsafes : e.safes p = done ++ (q, r) :: rest) (h : rw.Reaches p done pins)

include hsafes

theorem suffix_of_safes : p <:+ q :=
  Expr.suffix_of_mem_safes (hsafes ▸ List.mem_append_right _ List.mem_cons_self)

/-- The next safe access lies above the receivers of those that are done. -/
theorem cons_suffix_of_mem_done {s : Path × Expr} (hs : s ∈ done) : (0 :: q) <:+ s.1 := by
  have hpairwise := e.pairwise_safes p
  rw [hsafes] at hpairwise
  exact (List.pairwise_append.mp hpairwise).2.2 s hs _ List.mem_cons_self

theorem notMem_done : q ∉ done.map Prod.fst := by
  intro hmem
  obtain ⟨s, hs, heq⟩ := List.mem_map.mp hmem
  have hsuffix := cons_suffix_of_mem_done hsafes hs
  rw [heq] at hsuffix
  exact Path.not_cons_suffix_self 0 q hsuffix

include h

theorem leftMost_of_reaches : e.leftMost rw.unguarded p = some (q, r) := by
  have hdone : ∀ s ∈ done, ¬decide (s.1 ∉ rw.unguarded) = true := by
    intro s hs
    have hp : p <:+ s.1 := Expr.suffix_of_mem_safes (hsafes ▸ List.mem_append_left _ hs)
    have hmem := (h.unguarded _ hp).mpr (List.mem_map_of_mem hs)
    rwa [decide_eq_true_eq, Decidable.not_not]
  have hq : q ∉ rw.unguarded := fun hmem =>
    notMem_done hsafes ((h.unguarded q (suffix_of_safes hsafes)).mp hmem)
  rw [Expr.leftMost_eq_find?, hsafes, List.find?_append, List.find?_eq_none.mpr hdone, List.find?_cons,
    decide_eq_true hq]
  rfl

theorem progress_of_reaches : rw.progress p e = done.length := by
  have hmem : ∀ s ∈ e.safes p, rw.unguarded.contains s.1 = true ↔ s.1 ∈ done.map Prod.fst := fun s hs =>
    List.contains_iff_mem.trans (h.unguarded s.1 (Expr.suffix_of_mem_safes hs))
  have hdone : done.countP (rw.unguarded.contains ·.1) = done.length :=
    List.countP_eq_length.mpr fun s hs =>
      (hmem s (hsafes ▸ List.mem_append_left _ hs)).mpr (List.mem_map_of_mem hs)
  have hrest : ((q, r) :: rest).countP (rw.unguarded.contains ·.1) = 0 := by
    refine List.countP_eq_zero.mpr fun s hs hin => ?_
    have hs' : s ∈ e.safes p := hsafes ▸ List.mem_append_right _ hs
    obtain ⟨t, ht, heq⟩ := List.mem_map.mp ((hmem s hs').mp hin)
    have hpairwise := e.pairwise_safes p
    rw [hsafes] at hpairwise
    have hsuffix := (List.pairwise_append.mp hpairwise).2.2 t ht s hs
    rw [heq] at hsuffix
    exact Path.not_cons_suffix_self 0 s.1 hsuffix
  rw [progress, hsafes, List.countP_append, hdone, hrest, Nat.add_zero]

/-- A node may be converted as long as a safe access on its spine is on its guard. -/
theorem permits_of_reaches : rw.Permits p e := by
  have hp := suffix_of_safes hsafes
  refine ⟨fun hmem => ?_, fun s hs hsp => ?_, ?_⟩
  · -- the accesses that are done lie below the next one, and the node does not
    obtain ⟨s, hs, heq⟩ := List.mem_map.mp ((h.unguarded p (List.suffix_refl p)).mp hmem)
    have hsuffix := cons_suffix_of_mem_done hsafes hs
    rw [heq] at hsuffix
    exact absurd (Path.length_lt_of_cons_suffix hsuffix) (Nat.not_lt.mpr hp.length_le)
  · rw [progress_of_reaches hsafes h]
    exact (h.entered s hs (hsp ▸ List.suffix_refl p)).2
  · rw [hsafes, List.length_append, List.length_cons]
    exact Nat.lt_of_le_of_lt h.entries (by omega)

/-- The receiver of the next safe access is off its guards. -/
theorem Reaches.receiver : rw.Reaches (0 :: q) (r.safes (0 :: q)) pins := by
  have hp := suffix_of_safes hsafes
  rw [Expr.safes_of_append hsafes]
  rw [← List.append_nil done] at h
  refine h.below (hp.trans (List.suffix_cons 0 q)) (Nat.lt_succ_of_le hp.length_le) fun s hs => ?_
  exact absurd hs List.not_mem_nil

/-- A conversion takes the next safe access off its guard. -/
theorem Reaches.convert (hpins : pins.length = done.length) (temporary : Option Term) :
    (rw.convert p e q temporary).Reaches p (done ++ [(q, r)]) (pins ++ [temporary]) := by
  have hp := suffix_of_safes hsafes
  have hprogress := progress_of_reaches hsafes h
  have hne : ∀ s ∈ done, s.1 ≠ q := fun s hs heq =>
    notMem_done hsafes (heq ▸ List.mem_map_of_mem hs)
  have hq : rw.kept.lookup (0 :: q) = none := by
    refine h.others _ (hp.trans (List.suffix_cons 0 q)) fun s hs heq => ?_
    exact hne s hs (List.cons.inj heq).2.symm
  have hlookup : ∀ x, x ≠ 0 :: q → (rw.convert p e q temporary).kept.lookup x = rw.kept.lookup x := by
    intro x hx
    cases temporary with
    | none => rfl
    | some t => simp [Rewriting.convert, List.lookup_cons, beq_eq_false_iff_ne.mpr hx]
  constructor
  · intro x hx
    rw [List.map_append, List.mem_append, ← h.unguarded x hx, Rewriting.convert, List.mem_cons, or_comm]
    exact or_congr_right List.mem_singleton.symm
  · intro i s hs
    rcases Nat.lt_or_ge i done.length with hi | hi
    · rw [List.getElem?_append_left hi] at hs
      rw [List.getElem?_append_left (hpins ▸ hi), hlookup, h.kept i s hs]
      intro heq
      exact hne s (List.mem_of_getElem? hs) (List.cons.inj heq).2
    · -- the receiver of the access that is taken off its guard
      rw [List.getElem?_append_right hi] at hs
      have hi' : i - done.length = 0 := Nat.lt_one_iff.mp (List.getElem?_eq_some_iff.mp hs).1
      rw [hi', List.getElem?_cons_zero, Option.some.injEq] at hs
      subst hs
      rw [List.getElem?_append_right (hpins ▸ hi), hpins, hi', List.getElem?_cons_zero]
      cases temporary with
      | none => exact hq
      | some t => simp [Rewriting.convert]
  · intro x hx hdone
    obtain ⟨hdone, hx'⟩ := List.forall_mem_append.mp hdone
    rw [hlookup x (hx' _ List.mem_cons_self), h.others x hx hdone]
  · intro s hs hps
    rw [List.length_append, List.length_singleton]
    rcases List.mem_cons.mp hs with rfl | hs
    · exact ⟨rfl, Nat.lt_succ_of_le (Nat.le_of_eq hprogress)⟩
    · obtain ⟨hsp, hlt⟩ := h.entered s hs hps
      exact ⟨hsp, Nat.lt_succ_of_lt hlt⟩
  · rw [List.length_append, List.length_singleton, Rewriting.convert, List.countP_cons]
    have hentries := h.entries
    split <;> omega

end Stage

end Rewriting

end TemplateCompiler
