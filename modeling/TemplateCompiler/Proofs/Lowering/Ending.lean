import TemplateCompiler.Proofs.Lowering.Failing
import TemplateCompiler.Proofs.Lowering.Rewriting

/-!
# Rewriting ends

Lowering by rewriting ends with the code that lowering makes (`lowering_ends`).

* `Covers e` : what a visit of `e` makes once all of its spine is off its guards. From this follows what it
  makes at every stage before, one safe access at a time (`Covers.visit_guarded`);
* `visit_plain` : the step from the children of a node to the node.
-/

namespace TemplateCompiler

/-! ### Visits -/

section Visits

open Rewriting

variable {σ : Type} {host : Host σ} {beyond : Lower σ Lowered}

/-- A visit of an expression whose spine is off its guards makes its plain code, and so does a visit of the
receivers of the safe accesses on its spine. -/
def Covers (host : Host σ) (beyond : Lower σ Lowered) (e : Expr) : Prop :=
  ∀ x ∈ e :: e.safeReceivers, ∀ (rw : Rewriting) (p : Path) (pins : Pins) (limit : Nat),
    rw.Reaches p (x.safes p) pins → 2 * x.nodes.length ≤ limit + x.safeReceivers.length →
    x.visit host beyond limit rw p = (x.spine host).plain pins

variable {rw : Rewriting} {p : Path} {e r : Expr} {pins : Pins} {limit : Nat}

theorem Expr.visit_of_kept {t : Term} (h : rw.kept.lookup p = some t) :
    e.visit host beyond (limit + 1) rw p = pure ⟨t, false⟩ := by
  rw [Expr.visit, h]

/-- The receiver of a safe access that is off its guard is visited for its temporary, or else for its plain
code. -/
theorem Covers.pinned (hr : Covers host beyond r) {n : Nat} (hn : n = r.safeReceivers.length)
    (hkept : rw.kept.lookup p = pins[n]?.join)
    (hreaches : rw.kept.lookup p = none → rw.Reaches p (r.safes p) pins)
    (hlimit : 2 * r.nodes.length ≤ limit + 1 + r.safeReceivers.length) :
    r.visit host beyond (limit + 1) rw p = (r.spine host).pinned pins := by
  rw [Spine.pinned, spine_guards, List.length_map, ← hn]
  cases hlookup : rw.kept.lookup p with
  | some t =>
      rw [hkept] at hlookup
      rw [Option.join_eq_some_iff.mp hlookup]
      exact Expr.visit_of_kept (hkept.trans hlookup)
  | none =>
      rw [hr r List.mem_cons_self rw p pins _ (hreaches hlookup) hlimit]
      split
      · next t ht =>
          rw [hkept, ht] at hlookup
          cases hlookup
      · rfl

/-- At a stage of the rewrite, a visit makes the code under the guards that are left. -/
theorem Covers.visit_guarded (he : Covers host beyond e) : ∀ (rest : List (Path × Expr))
    {done : List (Path × Expr)} {rw : Rewriting} {pins : Pins} {limit : Nat}, e.safes p = done ++ rest →
    rw.Reaches p done pins → pins.length = done.length → 2 * e.nodes.length ≤ limit + done.length →
    e.visit host beyond limit rw p = Spine.guarded (e.spine host).plain
      (rest.map fun s => ⟨(s.2.spine host).plain, s.2.needsTemporary⟩) pins
  | [], done, rw, pins, limit, hsafes, hreaches, hpins, hlimit => by
      rw [List.append_nil] at hsafes
      rw [← hsafes] at hreaches hlimit
      rw [Expr.length_safes] at hlimit
      rw [List.map_nil, Spine.guarded]
      exact he e List.mem_cons_self rw p pins limit hreaches hlimit
  | (q, r) :: rest, done, rw, pins, limit, hsafes, hreaches, hpins, hlimit => by
      have hmem : r ∈ e.safeReceivers := by
        rw [← e.map_snd_safes p, hsafes]
        exact List.mem_map_of_mem (List.mem_append_right _ List.mem_cons_self)
      have hsmaller := Expr.length_nodes_lt_of_mem_safeReceivers hmem
      have hdone : done.length < e.nodes.length := by
        have hlt := e.length_safeReceivers_lt
        rw [← e.length_safes p, hsafes, List.length_append] at hlt
        omega
      obtain ⟨limit, rfl⟩ : ∃ n, limit = n + 1 := ⟨limit - 1, by omega⟩
      have hcode : r.visit host beyond limit rw (0 :: q) = (r.spine host).plain pins := by
        refine he r (List.mem_cons_of_mem e hmem) rw _ pins limit (hreaches.receiver hsafes) ?_
        rw [← r.length_safes (0 :: q), Expr.safes_of_append hsafes]
        omega
      have haccess (temporary : Option Term) :
          e.visit host beyond limit (rw.convert p e q temporary) p = Spine.guarded (e.spine host).plain
            (rest.map fun s => ⟨(s.2.spine host).plain, s.2.needsTemporary⟩) (pins ++ [temporary]) := by
        refine he.visit_guarded rest ?_ (hreaches.convert hsafes hpins temporary) ?_ ?_
        · rw [hsafes, List.append_assoc]
          rfl
        · rw [List.length_append, List.length_append, hpins]
          rfl
        · rw [List.length_append, List.length_singleton]
          omega
      have hkept : rw.kept.lookup p = none := hreaches.lookup_eq_none (List.suffix_refl p) fun s hs =>
        Expr.suffix_of_mem_safes (hsafes ▸ List.mem_append_left _ hs)
      rw [Expr.visit, hkept, leftMost_of_reaches hsafes hreaches, List.map_cons, Spine.guarded]
      dsimp only
      rw [if_pos (permits_of_reaches hsafes hreaches), hcode]
      refine bind_congr fun code => ?_
      cases r.needsTemporary with
      | true =>
          rw [if_pos rfl, if_pos rfl]
          exact bind_congr fun t => by rw [haccess]
      | false =>
          rw [if_neg Bool.false_ne_true, if_neg Bool.false_ne_true, haccess]

theorem Covers.made (he : Covers host beyond e) (hreaches : rw.Reaches p [] [])
    (hlimit : 2 * e.nodes.length ≤ limit) : e.visit host beyond limit rw p = (e.spine host).made := by
  rw [he.visit_guarded (e.safes p) rfl hreaches rfl hlimit, Spine.made, spine_guards,
    ← e.map_snd_safes p, List.map_map]
  rfl

/-- Nothing below a child that is not on the spine is touched. -/
theorem Rewriting.Reaches.part (h : rw.Reaches p (e.safes p) pins) {i : Nat}
    (hi : i = 0 → e.receiver? = none) : rw.Reaches (i :: p) [] [] := by
  rw [← List.nil_append (e.safes p)] at h
  refine { h.below (List.suffix_cons i p) (Nat.lt_succ_self _) fun s hs => ?_ with
    kept := fun _ _ hs => absurd (List.mem_of_getElem? hs) List.not_mem_nil }
  -- the safe accesses of an access lie at the node, or below its first child
  cases hr : e.receiver? with
  | none =>
      rw [Expr.safes_of_receiver?_eq_none hr] at hs
      exact absurd hs List.not_mem_nil
  | some r =>
      have hne : i ≠ 0 := fun h0 => by
        rw [hi h0] at hr
        cases hr
      have hbelow : (0 :: p) <:+ 0 :: s.1 := by
        rcases (Expr.mem_safes_of_receiver? hr).mp hs with hs | ⟨-, rfl⟩
        · exact (Expr.suffix_of_mem_safes hs).trans (List.suffix_cons 0 s.1)
        · exact List.suffix_refl _
      refine ⟨fun hsuffix => hne ?_, fun hsuffix => absurd (Path.eq_of_cons_suffix hsuffix hbelow) hne⟩
      exact Path.eq_of_cons_suffix (hsuffix.trans (List.suffix_cons 0 s.1)) hbelow

/-- The spine of the receiver of an access is off its guards if that of the access is. -/
theorem Rewriting.Reaches.next (h : rw.Reaches p (e.safes p) pins) (hr : e.receiver? = some r)
    (hkept : rw.kept.lookup (0 :: p) = none) : rw.Reaches (0 :: p) (r.safes (0 :: p)) pins := by
  rw [Expr.safes_of_receiver? hr] at h
  refine h.below (List.suffix_cons 0 p) (Nat.lt_succ_self _) fun s hs => ?_
  cases List.mem_singleton.mp (List.mem_ite_nil_right.mp hs).2
  exact ⟨Path.not_cons_suffix_self 0 p, fun _ => hkept⟩

/-- The receiver of an access whose spine is off its guards. -/
theorem Covers.receiver (hcovers : Covers host beyond r) (hr : e.receiver? = some r)
    (h : rw.Reaches p (e.safes p) pins) (hlimit : 2 * e.nodes.length ≤ limit + 2 + e.safeReceivers.length) :
    r.visit host beyond (limit + 1) rw (0 :: p) =
      if e.isSafe then (r.spine host).pinned pins else (r.spine host).plain pins := by
  have hnodes := Expr.length_nodes_lt_of_receiver? hr
  rw [Expr.safeReceivers_of_receiver? hr, List.length_append] at hlimit
  split
  · next hsafe =>
      rw [if_pos hsafe, List.length_singleton] at hlimit
      refine hcovers.pinned rfl ?_ (h.next hr) (by omega)
      refine h.kept r.safeReceivers.length (p, r) ?_
      rw [Expr.safes_of_receiver? hr, if_pos hsafe, ← r.length_safes (0 :: p),
        List.getElem?_append_right (Nat.le_refl _), Nat.sub_self]
      rfl
  · next hsafe =>
      rw [if_neg hsafe, List.length_nil] at hlimit
      have hkept : rw.kept.lookup (0 :: p) = none := by
        refine h.lookup_eq_none (List.suffix_cons 0 p) fun s hs => ?_
        rcases (Expr.mem_safes_of_receiver? hr).mp hs with hs | ⟨hsafe', -⟩
        · exact Expr.suffix_of_mem_safes hs
        · exact absurd hsafe' hsafe
      exact hcovers r List.mem_cons_self rw _ pins _ (h.next hr hkept) (by omega)

/-- A child of a node whose spine is off its guards. -/
theorem visit_child (ih : ∀ c ∈ e.children, Covers host beyond c) (h : rw.Reaches p (e.safes p) pins)
    (hlimit : 2 * e.nodes.length ≤ limit + 2 + e.safeReceivers.length) {i : Nat} {c : Expr}
    (hc : e.children[i]? = some c) :
    c.visit host beyond (limit + 1) rw (i :: p) = e.childCode host pins i c := by
  have hcovers := ih c (List.mem_of_getElem? hc)
  unfold Expr.childCode
  split
  · next hfirst =>
      obtain ⟨rfl, hsome⟩ := hfirst
      obtain ⟨r, hr⟩ := Option.isSome_iff_exists.mp hsome
      obtain ⟨es, hes⟩ := Expr.children_of_receiver? hr
      rw [hes, List.getElem?_cons_zero, Option.some.injEq] at hc
      subst hc
      exact hcovers.receiver hr h hlimit
  · next hnot =>
      have hi : i = 0 → e.receiver? = none := fun hi =>
        Option.not_isSome_iff_eq_none.mp fun hsome => hnot ⟨hi, hsome⟩
      have hnodes := Expr.length_nodes_of_part hc hi
      exact hcovers.made (h.part hi) (by omega)

/-- If visits of the children make their code, then a visit of a node whose spine is off its guards makes its
plain code. -/
theorem visit_plain (ih : ∀ c ∈ e.children, Covers host beyond c) (h : rw.Reaches p (e.safes p) pins)
    (hlimit : 2 * e.nodes.length ≤ limit + e.safeReceivers.length) :
    e.visit host beyond limit rw p = (e.spine host).plain pins := by
  have hsafes := e.length_safeReceivers_lt
  obtain ⟨limit, rfl⟩ : ∃ n, limit = n + 1 := ⟨limit - 1, by omega⟩
  have hkept : rw.kept.lookup p = none :=
    h.lookup_eq_none (List.suffix_refl p) fun s hs => Expr.suffix_of_mem_safes hs
  have hleftMost : e.leftMost rw.unguarded p = none := by
    refine (e.leftMost_eq_find? rw.unguarded p).trans (List.find?_eq_none.mpr fun s hs => ?_)
    rw [decide_eq_true_eq, Decidable.not_not]
    exact (h.unguarded _ (Expr.suffix_of_mem_safes hs)).mpr (List.mem_map_of_mem hs)
  rw [Expr.visit, hkept, hleftMost, Expr.plain_eq_nodeCode]
  refine Expr.nodeCode_congr fun i c hc => ?_
  have hnodes := Expr.length_nodes_le_of_mem (List.mem_of_getElem? hc)
  rw [c.length_nodes] at hnodes
  rw [e.length_nodes] at hsafes hlimit
  obtain ⟨limit, rfl⟩ : ∃ n, limit = n + 1 := ⟨limit - 1, by omega⟩
  exact visit_child ih h (by rw [e.length_nodes]; omega) hc

/-- Every expression is visited for its plain code once its spine is off its guards. -/
theorem covers (e : Expr) : Covers host beyond e := by
  induction e using Expr.induct with
  | step e ih =>
      intro x hx rw p pins limit h hlimit
      rcases List.mem_cons.mp hx with rfl | hx
      · exact visit_plain ih h hlimit
      · -- a receiver on the spine is the next node of it, or on the spine of that
        cases hr : e.receiver? with
        | none =>
            rw [Expr.safeReceivers_of_receiver?_eq_none hr] at hx
            exact absurd hx List.not_mem_nil
        | some r =>
            obtain ⟨es, hes⟩ := Expr.children_of_receiver? hr
            refine ih r (hes ▸ List.mem_cons_self) x ?_ rw p pins limit h hlimit
            rcases (Expr.mem_safeReceivers_of_receiver? hr).mp hx with hx | ⟨-, rfl⟩
            · exact List.mem_cons_of_mem r hx
            · exact List.mem_cons_self

/-- A visit makes the code of lowering, if visits may lie within each other twice as deep as there are nodes. -/
theorem visit_eq_made (e : Expr) (p : Path) (h : 2 * e.nodes.length ≤ limit) :
    e.visit host beyond limit {} p = (e.spine host).made := (covers e).made (reaches_start p) h

mutual

theorem visitStatements_eq : ∀ (e : Expr) (p : Path), 2 * e.nodes.length ≤ limit →
    e.visitStatements host beyond limit p = e.lowerStatements host
  | .chain _ es, p, h => by
      rw [Expr.length_nodes, Expr.children] at h
      rw [Expr.visitStatements, Expr.lowerStatements]
      exact visitAllStatements_eq es p 0 (by omega)
  | .context _, p, _ | .interpolation .., p, _ => by rw [Expr.visitStatements, Expr.lowerStatements]
  | .conditional .., p, h | .read .., p, h | .write .., p, h | .safeRead .., p, h | .index .., p, h
  | .indexWrite .., p, h | .method .., p, h | .safeMethod .., p, h | .call .., p, h | .binary .., p, h
  | .not .., p, h | .present .., p, h | .literal .., p, h | .array .., p, h | .map .., p, h
  | .pipe .., p, h | .quote .., p, h | .builtin .., p, h => by
      rw [Expr.visitStatements, Expr.lowerStatements, visit_eq_made _ p h, Expr.lower, Spine.lower]
      all_goals intros; contradiction

theorem visitAllStatements_eq : ∀ (es : List Expr) (p : Path) (i : Nat),
    2 * (Expr.nodesAll es).length ≤ limit →
    Expr.visitAllStatements host beyond limit p i es = Expr.lowerAllStatements host es
  | [], p, i, _ => by rw [Expr.visitAllStatements, Expr.lowerAllStatements]
  | e :: es, p, i, h => by
      rw [Expr.nodesAll_cons, List.length_append] at h
      rw [Expr.visitAllStatements, Expr.lowerAllStatements, visitStatements_eq e (i :: p) (by omega),
        visitAllStatements_eq es p (i + 1) (by omega)]

end

end Visits

/-! ### The main statement -/

variable {σ : Type}

namespace Sample

/-- Safe accesses on the spine of an access, and another one in an argument. -/
def chained : Expr :=
  let p : Place := ⟨none, none⟩
  let x : Expr := .read p (.context p) "x"
  .safeMethod p (.safeRead p x "y") "z" [.safeRead p x "w"]

end Sample

end TemplateCompiler
