import TemplateCompiler.Proofs.Expr.Children
import TemplateCompiler.Proofs.Expr.Receivers

/-!
# Spines with paths

A node of a tree is known by the way to it (`Path`). On the spine of a node lie the safe accesses that are to be
guarded:

* `e.safes p` : the safe accesses on the spine of the node `e` at `p`. Each lies below the receiver of the next
  one (`pairwise_safes`), and those before it are on the spine of its receiver (`safes_of_append`);
* `e.leftMost unguarded p` : the first one that is not among some;
* `length_safeReceivers_lt`, `length_nodes_of_part` : a tree has room for the safe accesses on a spine, and for
  those of what hangs from the spine besides.
-/

namespace TemplateCompiler

/-- The way to a node of a tree: which child to go to, the last step first. -/
abbrev Path := List Nat

namespace Path

variable {p q : Path}

theorem length_lt_of_cons_suffix {i : Nat} (h : (i :: p) <:+ q) : p.length < q.length := h.length_le

theorem not_cons_suffix_self (i : Nat) (p : Path) : ¬(i :: p) <:+ p := fun h =>
  absurd (length_lt_of_cons_suffix h) (Nat.lt_irrefl _)

/-- Paths through different children of a node lead to different nodes. -/
theorem eq_of_cons_suffix {i j : Nat} (hi : (i :: p) <:+ q) (hj : (j :: p) <:+ q) : i = j := by
  have heq : i :: p = j :: p := (List.suffix_of_suffix_length_le hi hj (Nat.le_refl _)).eq_of_length rfl
  exact (List.cons.inj heq).1

end Path

namespace Expr

/-- The next node on the spine of an access. -/
def receiver? : Expr → Option Expr
  | read _ r _ | safeRead _ r _ | index _ r _ | method _ r _ _ | safeMethod _ r _ _ => some r
  | _ => none

def isSafe : Expr → Bool
  | safeRead .. | safeMethod .. => true
  | _ => false

/-- The safe accesses on the spine of the node `e` at `p`, each with its path and its receiver; the innermost
first. -/
def safes : Path → Expr → List (Path × Expr)
  | p, read _ r _ | p, index _ r _ | p, method _ r _ _ => safes (0 :: p) r
  | p, safeRead _ r _ | p, safeMethod _ r _ _ => safes (0 :: p) r ++ [(p, r)]
  | _, _ => []

/-- The innermost safe access on the spine of the node `e` at `p` that is on its guard. -/
def leftMost (unguarded : List Path) : Path → Expr → Option (Path × Expr)
  | p, read _ r _ | p, index _ r _ | p, method _ r _ _ => leftMost unguarded (0 :: p) r
  | p, safeRead _ r _ | p, safeMethod _ r _ _ =>
    match leftMost unguarded (0 :: p) r with
    | some found => some found
    | none => if p ∈ unguarded then none else some (p, r)
  | _, _ => none

theorem safes_of_receiver? {e r : Expr} (h : e.receiver? = some r) (p : Path) :
    e.safes p = r.safes (0 :: p) ++ if e.isSafe then [(p, r)] else [] := by
  cases e <;> cases h <;> simp [safes, isSafe]

theorem mem_safes_of_receiver? {e r : Expr} (h : e.receiver? = some r) {p : Path} {s : Path × Expr} :
    s ∈ e.safes p ↔ s ∈ r.safes (0 :: p) ∨ e.isSafe = true ∧ s = (p, r) := by
  rw [safes_of_receiver? h, List.mem_append, List.mem_ite_nil_right, List.mem_singleton]

theorem safes_of_receiver?_eq_none {e : Expr} (h : e.receiver? = none) (p : Path) : e.safes p = [] := by
  cases e <;> first | rfl | cases h

theorem children_of_receiver? {e r : Expr} (h : e.receiver? = some r) : ∃ es, e.children = r :: es := by
  cases e <;> cases h <;> exact ⟨_, rfl⟩

/-- What holds of an expression if it holds of the next one on its spine holds of all expressions. -/
theorem spineInduct {P : Expr → Prop} (leaf : ∀ e : Expr, e.receiver? = none → P e)
    (access : ∀ e r : Expr, e.receiver? = some r → P r → P e) (e : Expr) : P e := by
  induction e using induct with
  | step e ih =>
      cases hr : e.receiver? with
      | none => exact leaf e hr
      | some r =>
          obtain ⟨es, hes⟩ := children_of_receiver? hr
          exact access e r hr (ih r (hes ▸ List.mem_cons_self))

theorem safeReceivers_of_receiver? {e r : Expr} (h : e.receiver? = some r) :
    e.safeReceivers = r.safeReceivers ++ if e.isSafe then [r] else [] := by
  cases e <;> cases h <;> simp [safeReceivers, isSafe]

theorem mem_safeReceivers_of_receiver? {e r x : Expr} (h : e.receiver? = some r) :
    x ∈ e.safeReceivers ↔ x ∈ r.safeReceivers ∨ e.isSafe = true ∧ x = r := by
  rw [safeReceivers_of_receiver? h, List.mem_append, List.mem_ite_nil_right, List.mem_singleton]

theorem safeReceivers_of_receiver?_eq_none {e : Expr} (h : e.receiver? = none) : e.safeReceivers = [] := by
  cases e <;> first | rfl | cases h

theorem map_snd_safes (e : Expr) : ∀ p : Path, (e.safes p).map Prod.snd = e.safeReceivers := by
  induction e using spineInduct with
  | leaf e h =>
      intro p
      rw [safes_of_receiver?_eq_none h, safeReceivers_of_receiver?_eq_none h, List.map_nil]
  | access e r h ih =>
      intro p
      rw [safes_of_receiver? h, safeReceivers_of_receiver? h, List.map_append, ih]
      split <;> rfl

theorem length_safes (e : Expr) (p : Path) : (e.safes p).length = e.safeReceivers.length := by
  rw [← map_snd_safes e p, List.length_map]

/-- The innermost safe access on its guard is the first one. -/
theorem leftMost_eq_find? (unguarded : List Path) (e : Expr) : ∀ p : Path,
    e.leftMost unguarded p = (e.safes p).find? fun s => s.1 ∉ unguarded := by
  induction e using spineInduct with
  | leaf e h =>
      intro p
      rw [safes_of_receiver?_eq_none h]
      cases e <;> first | rfl | cases h
  | access e r h ih =>
      intro p
      rw [safes_of_receiver? h, List.find?_append, ← ih]
      cases e <;> cases h <;> simp only [leftMost, isSafe] <;>
        cases leftMost unguarded (0 :: p) r <;> by_cases hp : p ∈ unguarded <;> simp [hp]

theorem suffix_of_mem_safes {e : Expr} : ∀ {p : Path} {s : Path × Expr}, s ∈ e.safes p → p <:+ s.1 := by
  induction e using spineInduct with
  | leaf e h =>
      intro p s hs
      rw [safes_of_receiver?_eq_none h] at hs
      exact absurd hs List.not_mem_nil
  | access e r h ih =>
      intro p s hs
      rcases (mem_safes_of_receiver? h).mp hs with hs | ⟨-, rfl⟩
      · exact (List.suffix_cons 0 p).trans (ih hs)
      · exact List.suffix_refl p

/-- Of two safe accesses on a spine the first lies below the receiver of the second. -/
theorem pairwise_safes (e : Expr) : ∀ p : Path, (e.safes p).Pairwise fun s t => (0 :: t.1) <:+ s.1 := by
  induction e using spineInduct with
  | leaf e h =>
      intro p
      rw [safes_of_receiver?_eq_none h]
      exact .nil
  | access e r h ih =>
      intro p
      rw [safes_of_receiver? h]
      refine List.pairwise_append.mpr ⟨ih _, ?_, fun s hs t ht => ?_⟩
      · split
        · exact List.pairwise_singleton _ _
        · exact .nil
      · cases List.mem_singleton.mp (List.mem_ite_nil_right.mp ht).2
        exact suffix_of_mem_safes hs

/-- The safe accesses on the spine of the receiver of one are those before it. -/
theorem safes_of_append {e : Expr} : ∀ {p q : Path} {r : Expr} {done rest : List (Path × Expr)},
    e.safes p = done ++ (q, r) :: rest → r.safes (0 :: q) = done := by
  induction e using spineInduct with
  | leaf e h =>
      intro p q r done rest heq
      rw [safes_of_receiver?_eq_none h] at heq
      exact absurd heq.symm (List.append_ne_nil_of_right_ne_nil done (List.cons_ne_nil _ rest))
  | access e r' h ih =>
      intro p q r done rest heq
      rw [safes_of_receiver? h] at heq
      split at heq
      · rcases List.eq_nil_or_concat rest with rfl | ⟨front, last, rfl⟩
        · obtain ⟨hdone, hlast⟩ := List.append_inj' heq rfl
          cases hlast
          exact hdone
        · rw [List.concat_eq_append, ← List.cons_append, ← List.append_assoc] at heq
          exact ih (List.append_inj' heq rfl).1
      · rw [List.append_nil] at heq
        exact ih heq

/-! ### Sizes -/

theorem length_nodes (e : Expr) : e.nodes.length = (nodesAll e.children).length + 1 := by
  rw [nodes_eq, List.length_cons]

theorem length_nodes_le_of_mem {c : Expr} {es : List Expr} (h : c ∈ es) :
    c.nodes.length ≤ (nodesAll es).length := by
  induction es with
  | nil => exact absurd h List.not_mem_nil
  | cons e es ih =>
      rw [nodesAll_cons, List.length_append]
      rcases List.mem_cons.mp h with rfl | h
      · exact Nat.le_add_right _ _
      · exact Nat.le_add_left_of_le (ih h)

theorem length_nodes_lt_of_receiver? {e r : Expr} (h : e.receiver? = some r) :
    r.nodes.length < e.nodes.length := by
  obtain ⟨es, hes⟩ := children_of_receiver? h
  rw [e.length_nodes]
  exact Nat.lt_succ_of_le (length_nodes_le_of_mem (hes ▸ List.mem_cons_self))

theorem length_nodes_lt_of_mem_safeReceivers {e x : Expr} (h : x ∈ e.safeReceivers) :
    x.nodes.length < e.nodes.length := by
  induction e using spineInduct with
  | leaf e hnone =>
      rw [safeReceivers_of_receiver?_eq_none hnone] at h
      exact absurd h List.not_mem_nil
  | access e r hr ih =>
      have hlt := length_nodes_lt_of_receiver? hr
      rcases (mem_safeReceivers_of_receiver? hr).mp h with h | ⟨-, rfl⟩
      · exact Nat.lt_trans (ih h) hlt
      · exact hlt

theorem length_safeReceivers_lt (e : Expr) : e.safeReceivers.length < e.nodes.length := by
  induction e using spineInduct with
  | leaf e h =>
      rw [safeReceivers_of_receiver?_eq_none h, length_nodes]
      exact Nat.succ_pos _
  | access e r h ih =>
      have hlt := length_nodes_lt_of_receiver? h
      rw [safeReceivers_of_receiver? h, List.length_append]
      split
      · rw [List.length_singleton]
        omega
      · rw [List.length_nil]
        omega

/-- A child that is not on the spine leaves room for the safe accesses on it. -/
theorem length_nodes_of_part {e c : Expr} {i : Nat} (hc : e.children[i]? = some c)
    (hi : i = 0 → e.receiver? = none) :
    2 * c.nodes.length + e.safeReceivers.length + 2 ≤ 2 * e.nodes.length := by
  rw [e.length_nodes]
  cases hr : e.receiver? with
  | none =>
      have hle := length_nodes_le_of_mem (List.mem_of_getElem? hc)
      rw [safeReceivers_of_receiver?_eq_none hr, List.length_nil]
      omega
  | some r =>
      obtain ⟨es, hes⟩ := children_of_receiver? hr
      rw [hes] at hc
      cases i with
      | zero =>
          rw [hi rfl] at hr
          cases hr
      | succ i =>
          rw [List.getElem?_cons_succ] at hc
          have hle := length_nodes_le_of_mem (List.mem_of_getElem? hc)
          have hsafes := r.length_safeReceivers_lt
          have hone : (if e.isSafe then [r] else []).length ≤ 1 := by split <;> simp
          rw [safeReceivers_of_receiver? hr, List.length_append, hes, nodesAll_cons, List.length_append]
          omega

end Expr

end TemplateCompiler
