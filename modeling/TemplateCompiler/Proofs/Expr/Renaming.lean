import Mathlib.Data.List.Forall2
import TemplateCompiler.Proofs.Expr.Children
import TemplateCompiler.Proofs.Expr.Parsed

/-!
# Changing a tree and keeping what stays the same

A tree is changed by rebuilding all of it (`Expr.rebuild`), or by making new nodes only where something
changes (`Expr.change?`). The trees that result are equal (`changed_eq_rebuild`), and the second change
makes no node exactly if no node is to be changed (`change?_eq_none_iff`).

Which nodes the old tree and the new one share shows where they lie in memory. A `Cell` is a node at an
address, over the cells of its children, and `Cell.change` makes a new cell for a node that is changed or
has a child that is not where it was.

* `Cell.Shares` : below a changed tree, what does not change is the same cell, and all else is new;
* `Cell.change_run` : changing a tree in memory gives the changed tree, and shares what it can;
* `renamings_agree` : so renaming reads is the same in both ways, and keeps trees without such a read.
-/

namespace TemplateCompiler

namespace Expr

/-! ### Both changes -/

section Change

variable (f : Expr → Option Expr)

/-- The changed trees, or nothing if none of them changes. -/
def changeAll? (es : List Expr) : Option (List Expr) := changeAllM? (m := Id) f es

def changed (e : Expr) : Expr := (e.change? f).getD e

variable {f} {e : Expr}

theorem change?_eq : e.change? f =
    (f (((changeAll? f e.children).map e.withChildren).getD e)).or
      ((changeAll? f e.children).map e.withChildren) :=
  changeM?_eq (m := Id) f e

theorem changeAll?_cons (es : List Expr) :
    changeAll? f (e :: es) = merge₂ e (e.change? f) es (changeAll? f es) List.cons :=
  changeAllM?_cons (m := Id) f e es

theorem changeAll?_eq_none_iff {es : List Expr} :
    changeAll? f es = none ↔ ∀ e ∈ es, e.change? f = none := by
  induction es with
  | nil => exact iff_of_true rfl (List.forall_mem_nil _)
  | cons e es ih =>
      rw [List.forall_mem_cons, ← ih, changeAll?_cons]
      cases e.change? f <;> cases changeAll? f es <;> simp [merge₂]

theorem getD_changeAll? (es : List Expr) : (changeAll? f es).getD es = es.map (changed f) := by
  induction es with
  | nil => rfl
  | cons e es ih =>
      rw [List.map_cons, ← ih, changeAll?_cons, changed]
      cases e.change? f <;> cases changeAll? f es <;> rfl

theorem getD_map_withChildren (es : Option (List Expr)) :
    (es.map e.withChildren).getD e = e.withChildren (es.getD e.children) := by
  cases es with
  | none => exact (withChildren_children e).symm
  | some es => rfl

/-- A tree stays as it is if its children do, and its node. -/
theorem change?_eq_none_iff_children :
    e.change? f = none ↔ (∀ c ∈ e.children, c.change? f = none) ∧ f e = none := by
  rw [change?_eq, Option.or_eq_none_iff, Option.map_eq_none_iff, ← changeAll?_eq_none_iff, and_comm]
  refine and_congr_right fun h => ?_
  rw [h]
  rfl

/-- Unchanged children are put below the node they were below. -/
theorem withChildren_map_changed (h : ∀ c ∈ e.children, c.change? f = none) :
    e.withChildren (e.children.map (changed f)) = e := by
  have hsame : e.children.map (changed f) = e.children.map id :=
    List.map_congr_left fun c hc => by rw [changed, h c hc]; rfl
  rw [hsame, List.map_id, withChildren_children]

/-- The change is one of the children, and then one of the node over them. -/
theorem changed_eq : e.changed f =
    (f (e.withChildren (e.children.map (changed f)))).getD
      (e.withChildren (e.children.map (changed f))) := by
  rw [changed, change?_eq, Option.getD_or, getD_map_withChildren, getD_changeAll?]

/-- Changing a tree where it needs it and rebuilding all of it give the same tree. -/
theorem changed_eq_rebuild (e : Expr) : e.changed f = e.rebuild fun x => (f x).getD x := by
  induction e using induct with
  | step e ih =>
      rw [changed_eq, rebuild_eq, rebuildAll_eq_map, List.map_congr_left ih]

/-- A tree stays as it is if all its nodes do. -/
theorem change?_eq_none_iff (e : Expr) : e.change? f = none ↔ e.Every fun x => f x = none := by
  induction e using induct with
  | step e ih =>
      rw [change?_eq_none_iff_children, every_iff, everyAll_iff, and_comm]
      exact and_congr_right fun _ => forall₂_congr ih

end Change

/-! ### Renaming -/

theorem mem_readNames {e : Expr} {name : Text} :
    name ∈ e.readNames ↔ ∃ p r, Expr.read p r name ∈ e.nodes := by
  rw [readNames, List.mem_filterMap]
  constructor
  · rintro ⟨x, hx, hname⟩
    split at hname
    · cases hname
      exact ⟨_, _, hx⟩
    · cases hname
  · rintro ⟨p, r, hx⟩
    exact ⟨_, hx, rfl⟩

theorem renameRead?_eq_none_iff {old new : Text} {x : Expr} :
    renameRead? old new x = none ↔ ∀ p r, x ≠ read p r old := by
  constructor
  · rintro h p r rfl
    exact absurd h (by simp [renameRead?])
  · intro h
    unfold renameRead?
    split
    · next p r n =>
        exact if_neg fun hn => h p r (by rw [hn])
    · rfl

theorem children_of_renameRead? {old new : Text} {x y : Expr} (h : renameRead? old new x = some y) :
    y.children = x.children := by
  unfold renameRead? at h
  split at h
  · split at h
    · cases h
      rfl
    · cases h
  · cases h

/-- Nothing is renamed in a tree exactly if it has no read of the old name. -/
theorem renameReads?_eq_none_iff {old new : Text} {e : Expr} :
    e.renameReads? old new = none ↔ old ∉ e.readNames := by
  rw [renameReads?, change?_eq_none_iff, every_iff_nodes, mem_readNames]
  constructor
  · rintro h ⟨p, r, hx⟩
    exact renameRead?_eq_none_iff.mp (h _ hx) p r rfl
  · rintro h x hx
    exact renameRead?_eq_none_iff.mpr fun p r hxr => h ⟨p, r, hxr ▸ hx⟩

end Expr

/-! ### Trees in memory -/

/-- A tree in memory: a node at an address, over the cells of its children. -/
inductive Cell where
  | mk (address : Nat) (tree : Expr) (parts : List Cell)

/-- What is related to an element of a list is found at its place. -/
theorem forall₂_getElem? {α β : Type} {R : α → β → Prop} {xs : List α} {ys : List β}
    (h : List.Forall₂ R xs ys) :
    ∀ {i : Nat} {x : α}, xs[i]? = some x → ∃ y, ys[i]? = some y ∧ R x y := by
  induction h with
  | nil => exact fun hx => nomatch hx
  | cons hxy _ ih =>
      intro i x hx
      cases i with
      | zero =>
          cases hx
          exact ⟨_, rfl, hxy⟩
      | succ i => exact ih hx

namespace Cell

def address : Cell → Nat
  | mk a _ _ => a

def tree : Cell → Expr
  | mk _ e _ => e

def parts : Cell → List Cell
  | mk _ _ cs => cs

/-- Every cell points to those of its children. -/
inductive Sound : Cell → Prop
  | mk {address : Nat} {tree : Expr} {parts : List Cell} : parts.map Cell.tree = tree.children →
    (∀ c ∈ parts, c.Sound) → Sound ⟨address, tree, parts⟩

/-- The cell that a path leads to; each step of it is the number of a child. -/
def at? : Cell → List Nat → Option Cell
  | c, [] => some c
  | c, i :: path => c.parts[i]?.bind fun d => d.at? path

/-- All cells of a tree lie below an address. -/
def Under (next : Nat) (c : Cell) : Prop := ∀ path s, c.at? path = some s → s.address < next

/-- Puts a node at the next address. -/
def allocate (e : Expr) (cs : List Cell) : StateM Nat Cell :=
  modifyGet fun next => (⟨next, e, cs⟩, next + 1)

section Change

variable (f : Expr → Option Expr)

mutual

/-- Changes a tree in memory, where the state is the next address. A node that `f` leaves alone stays
where it is if all its children do. -/
def change : Cell → StateM Nat Cell
  | ⟨a, e, cs⟩ => do
    let cs' ← changeAll cs
    match f (e.withChildren (cs'.map tree)) with
    | some e' => allocate e' cs'
    | none =>
      if cs'.map address = cs.map address then return ⟨a, e, cs⟩
      else allocate (e.withChildren (cs'.map tree)) cs'

/-- Changes trees from left to right. -/
def changeAll : List Cell → StateM Nat (List Cell)
  | [] => return []
  | c :: cs => return (← c.change) :: (← changeAll cs)

end

/-- What became of the cells of a tree: those under which nothing changes are the same cells, and all
others are new ones, at addresses from `next` on. -/
def Shares (next : Nat) (c c' : Cell) : Prop :=
  ∀ path s, c.at? path = some s →
    (s.tree.change? f = none → c'.at? path = some s) ∧
    (s.tree.change? f ≠ none → ∃ s', c'.at? path = some s' ∧ next ≤ s'.address)

/-- What a change in memory gives. -/
structure Changes (next next' : Nat) (c c' : Cell) : Prop where
  tree_eq : c'.tree = c.tree.changed f
  sound : c'.Sound
  under : c'.Under next'
  shares : Shares f next c c'

end Change

/-! ### Paths and addresses -/

section Paths

variable {c d s : Cell} {i n m : Nat} {path : List Nat}

theorem at?_cons : c.at? (i :: path) = some s ↔ ∃ d, c.parts[i]? = some d ∧ d.at? path = some s :=
  Option.bind_eq_some_iff

theorem Under.mono (h : c.Under n) (hn : n ≤ m) : c.Under m :=
  fun path s hs => Nat.lt_of_lt_of_le (h path s hs) hn

theorem Under.address_lt (h : c.Under n) : c.address < n := h [] c rfl

theorem Under.of_mem_parts (h : c.Under n) (hd : d ∈ c.parts) : d.Under n := by
  intro path s hs
  obtain ⟨i, hi⟩ := List.mem_iff_getElem?.mp hd
  exact h (i :: path) s (at?_cons.mpr ⟨d, hi, hs⟩)

theorem under_mk {e : Expr} {cs : List Cell} {a : Nat} (ha : a < n) (hcs : ∀ d ∈ cs, d.Under n) :
    (mk a e cs).Under n
  | [], _, hs => by
    cases hs
    exact ha
  | _ :: path, s, hs => by
    obtain ⟨d, hd, hs⟩ := at?_cons.mp hs
    exact hcs d (List.mem_of_getElem? hd) path s hs

theorem Sound.map_tree (h : c.Sound) : c.parts.map tree = c.tree.children := by
  cases h with
  | mk h _ => exact h

theorem Sound.of_mem_parts (h : c.Sound) (hd : d ∈ c.parts) : d.Sound := by
  cases h with
  | mk _ h => exact h d hd

/-- Nothing changes in the cells of a tree in which nothing changes. -/
theorem Sound.change?_eq_none {f : Expr → Option Expr} : ∀ {path : List Nat} {c s : Cell}, c.Sound →
    c.tree.change? f = none → c.at? path = some s → s.tree.change? f = none
  | [], _, _, _, h, hs => by
    cases hs
    exact h
  | _ :: path, c, s, hc, h, hs => by
    obtain ⟨d, hd, hs⟩ := at?_cons.mp hs
    have hmem := List.mem_of_getElem? hd
    have hchild : d.tree ∈ c.tree.children := hc.map_tree ▸ List.mem_map_of_mem hmem
    exact Sound.change?_eq_none (hc.of_mem_parts hmem)
      ((Expr.change?_eq_none_iff_children.mp h).1 _ hchild) hs

/-- Every tree can be put into memory. -/
theorem exists_sound (e : Expr) : ∃ c : Cell, c.tree = e ∧ c.Sound ∧ ∃ n, c.Under n := by
  induction e using Expr.induct with
  | step e ih =>
      have hall : ∀ es : List Expr, (∀ x ∈ es, ∃ c : Cell, c.tree = x ∧ c.Sound ∧ ∃ n, c.Under n) →
          ∃ cs : List Cell, cs.map tree = es ∧ (∀ c ∈ cs, c.Sound) ∧
            ∃ n, ∀ c ∈ cs, c.Under n := by
        intro es hes
        induction es with
        | nil => exact ⟨[], rfl, List.forall_mem_nil _, 0, List.forall_mem_nil _⟩
        | cons x es ihes =>
            obtain ⟨⟨c, hx, hc, n, hn⟩, hes⟩ := List.forall_mem_cons.mp hes
            obtain ⟨cs, htrees, hcs, m, hm⟩ := ihes hes
            refine ⟨c :: cs, by rw [List.map_cons, hx, htrees], List.forall_mem_cons.mpr ⟨hc, hcs⟩,
              max n m, List.forall_mem_cons.mpr ⟨hn.mono (Nat.le_max_left n m), fun d hd => ?_⟩⟩
            exact (hm d hd).mono (Nat.le_max_right n m)
      obtain ⟨cs, htrees, hcs, n, hn⟩ := hall e.children ih
      exact ⟨⟨n, e, cs⟩, rfl, .mk htrees hcs, n + 1,
        under_mk (Nat.lt_succ_self n) fun d hd => (hn d hd).mono (Nat.le_succ n)⟩

end Paths

/-! ### Sharing -/

section Sharing

variable {f : Expr → Option Expr} {next next' m : Nat} {c c' : Cell}

theorem Shares.mono (h : Shares f m c c') (hm : next ≤ m) : Shares f next c c' := by
  intro path s hs
  refine ⟨(h path s hs).1, fun hchange => ?_⟩
  obtain ⟨s', hs', hle⟩ := (h path s hs).2 hchange
  exact ⟨s', hs', Nat.le_trans hm hle⟩

/-- A tree in which nothing changes is the same cell. -/
theorem Shares.eq_of_none (h : Shares f next c c') (hnone : c.tree.change? f = none) : c' = c :=
  Option.some.inj ((h [] c rfl).1 hnone)

/-- A cell is where it was exactly if nothing changes in it. -/
theorem Shares.address_eq_iff (h : Shares f next c c') (hc : c.Under next) :
    c'.address = c.address ↔ c.tree.change? f = none := by
  constructor
  · intro heq
    refine Decidable.byContradiction fun hsome => ?_
    obtain ⟨s', hs', hle⟩ := (h [] c rfl).2 hsome
    cases hs'
    exact Nat.not_lt.mpr hle (heq ▸ hc.address_lt)
  · intro hnone
    rw [h.eq_of_none hnone]

theorem Changes.mono {n n' : Nat} (h : Changes f m n c c') (hm : next ≤ m) (hn : n ≤ n') :
    Changes f next n' c c' where
  tree_eq := h.tree_eq
  sound := h.sound
  under := h.under.mono hn
  shares := h.shares.mono hm

/-- A tree in which nothing changes keeps all its cells. -/
theorem Changes.kept (hc : c.Sound) (hunder : c.Under next') (hnone : c.tree.change? f = none) :
    Changes f next next' c c where
  tree_eq := by rw [Expr.changed, hnone]; rfl
  sound := hc
  under := hunder
  shares path s hs := ⟨fun _ => hs, fun hsome => absurd (hc.change?_eq_none hnone hs) hsome⟩

/-- A new cell over changed ones shares what they do. -/
theorem Changes.allocated {e : Expr} {cs : List Cell} (hsome : c.tree.change? f ≠ none)
    (htree : e = c.tree.changed f) (hchildren : cs.map tree = e.children)
    (hparts : List.Forall₂ (Changes f next m) c.parts cs) (hle : next ≤ m) :
    Changes f next (m + 1) c ⟨m, e, cs⟩ where
  tree_eq := htree
  sound := .mk hchildren fun d hd => by
    obtain ⟨_, _, h⟩ := exists_mem_of_forall₂ hparts d hd
    exact h.sound
  under := under_mk (Nat.lt_succ_self m) fun d hd => by
    obtain ⟨_, _, h⟩ := exists_mem_of_forall₂ hparts d hd
    exact h.under.mono (Nat.le_succ m)
  shares
    | [], s, hs => by
      cases hs
      exact ⟨fun hnone => absurd hnone hsome, fun _ => ⟨_, rfl, hle⟩⟩
    | i :: path, s, hs => by
      obtain ⟨d, hd, hs⟩ := at?_cons.mp hs
      obtain ⟨d', hd', h⟩ := forall₂_getElem? hparts hd
      obtain ⟨hnone, hnew⟩ := h.shares path s hs
      refine ⟨fun hs => at?_cons.mpr ⟨d', hd', hnone hs⟩, fun hs => ?_⟩
      obtain ⟨s', hs', hle⟩ := hnew hs
      exact ⟨s', at?_cons.mpr ⟨d', hd', hs'⟩, hle⟩

/-- Parts are where they were exactly if nothing changes in any of them. -/
theorem map_address_eq_iff {cs cs' : List Cell} (h : List.Forall₂ (Changes f next next') cs cs')
    (hcs : ∀ c ∈ cs, c.Under next) :
    cs'.map address = cs.map address ↔ ∀ c ∈ cs, c.tree.change? f = none := by
  induction h with
  | nil => exact iff_of_true rfl (List.forall_mem_nil _)
  | cons h _ ih =>
      obtain ⟨hc, hcs⟩ := List.forall_mem_cons.mp hcs
      rw [List.map_cons, List.map_cons, List.cons.injEq, List.forall_mem_cons, ih hcs,
        h.shares.address_eq_iff hc]

theorem map_tree_eq {cs cs' : List Cell} (h : List.Forall₂ (Changes f next next') cs cs') :
    cs'.map tree = (cs.map tree).map (Expr.changed f) := by
  induction h with
  | nil => rfl
  | cons h _ ih => rw [List.map_cons, List.map_cons, List.map_cons, ih, h.tree_eq]

end Sharing

/-! ### Changing in memory -/

section Run

variable {f : Expr → Option Expr}

/-- Trees are changed one after the other, each behind what was allocated for those before. -/
theorem run_changeAll_cons {c c' : Cell} {cs cs' : List Cell} {next m next' : Nat}
    (h : (c.change f).run next = (c', m)) (hs : (changeAll f cs).run m = (cs', next')) :
    (changeAll f (c :: cs)).run next = (c' :: cs', next') := by
  rw [changeAll, StateT.run_bind, h]
  change ((changeAll f cs).run m >>= fun r => pure (c' :: r.1, r.2)) = _
  rw [hs]
  rfl

/-- A node is changed, or stays where it is, over the changed children. -/
theorem run_change {a : Nat} {e : Expr} {cs cs' : List Cell} {next m : Nat}
    (hs : (changeAll f cs).run next = (cs', m)) : ((mk a e cs).change f).run next =
      match f (e.withChildren (cs'.map tree)) with
      | some e' => (mk m e' cs', m + 1)
      | none =>
        if cs'.map address = cs.map address then (mk a e cs, m)
        else (mk m (e.withChildren (cs'.map tree)) cs', m + 1) := by
  rw [change, StateT.run_bind, hs]
  change StateT.run (match f (e.withChildren (cs'.map tree)) with
    | some e' => allocate e' cs'
    | none =>
      if cs'.map address = cs.map address then return ⟨a, e, cs⟩
      else allocate (e.withChildren (cs'.map tree)) cs') m = _
  cases f (e.withChildren (cs'.map tree)) with
  | some e' => rfl
  | none =>
      by_cases h : cs'.map address = cs.map address
      · rw [if_pos h, if_pos h]
        rfl
      · rw [if_neg h, if_neg h]
        rfl

theorem changeAll_run {cs : List Cell}
    (ih : ∀ c ∈ cs, ∀ next, c.Under next → ∃ c' next', (c.change f).run next = (c', next') ∧
      next ≤ next' ∧ Changes f next next' c c') :
    ∀ next, (∀ c ∈ cs, c.Under next) → ∃ cs' next', (changeAll f cs).run next = (cs', next') ∧
      next ≤ next' ∧ List.Forall₂ (Changes f next next') cs cs' := by
  induction cs with
  | nil => exact fun next _ => ⟨[], next, rfl, Nat.le_refl next, .nil⟩
  | cons c cs ihcs =>
      intro next hunder
      obtain ⟨ih, ihs⟩ := List.forall_mem_cons.mp ih
      obtain ⟨hc, hcs⟩ := List.forall_mem_cons.mp hunder
      obtain ⟨c', m, hrun, hm, h⟩ := ih next hc
      obtain ⟨cs', next', hruns, hnext, hs⟩ := ihcs ihs m fun d hd => (hcs d hd).mono hm
      refine ⟨c' :: cs', next', run_changeAll_cons hrun hruns, Nat.le_trans hm hnext, ?_⟩
      exact .cons (h.mono (Nat.le_refl next) hnext) (hs.imp fun _ _ h => h.mono hm (Nat.le_refl next'))

/-- Changing a tree in memory gives the changed tree, and shares with the old one what does not change. -/
theorem change_run (hf : ∀ x y, f x = some y → y.children = x.children) {c : Cell} (hc : c.Sound) :
    ∀ next, c.Under next → ∃ c' next', (c.change f).run next = (c', next') ∧
      next ≤ next' ∧ Changes f next next' c c' := by
  induction hc with
  | @mk a e cs htrees hsound ih =>
      intro next hunder
      have hcs : ∀ c ∈ cs, c.Under next := fun d hd => hunder.of_mem_parts hd
      obtain ⟨cs', m, hrun, hle, hparts⟩ := changeAll_run ih next hcs
      have htrees' : cs'.map tree = e.children.map (Expr.changed f) := by rw [map_tree_eq hparts, htrees]
      have hchildren : (e.withChildren (cs'.map tree)).children = cs'.map tree :=
        Expr.children_withChildren (by rw [htrees', List.length_map])
      have hstay : cs'.map address = cs.map address ↔ ∀ x ∈ e.children, x.change? f = none := by
        rw [map_address_eq_iff hparts hcs, ← htrees, List.forall_mem_map]
      have hchanged : (f (e.withChildren (cs'.map tree))).getD (e.withChildren (cs'.map tree)) =
          e.changed f := by rw [Expr.changed_eq, htrees']
      rw [run_change hrun]
      cases hnode : f (e.withChildren (cs'.map tree)) with
      | some e' =>
          rw [hnode, Option.getD_some] at hchanged
          have hsome : e.change? f ≠ none := by
            intro hnone
            obtain ⟨hsame, hself⟩ := Expr.change?_eq_none_iff_children.mp hnone
            rw [htrees', Expr.withChildren_map_changed hsame, hself] at hnode
            cases hnode
          exact ⟨_, _, rfl, Nat.le_succ_of_le hle,
            .allocated hsome hchanged (by rw [hf _ _ hnode, hchildren]) hparts hle⟩
      | none =>
          rw [hnode, Option.getD_none] at hchanged
          dsimp only
          split
          · next haddress =>
            have hsame := hstay.mp haddress
            rw [htrees', Expr.withChildren_map_changed hsame] at hnode
            exact ⟨_, _, rfl, hle, .kept (.mk htrees hsound) (hunder.mono hle)
              (Expr.change?_eq_none_iff_children.mpr ⟨hsame, hnode⟩)⟩
          · next haddress =>
            have hsome : e.change? f ≠ none := fun hnone =>
              haddress (hstay.mpr (Expr.change?_eq_none_iff_children.mp hnone).1)
            exact ⟨_, _, rfl, Nat.le_succ_of_le hle, .allocated hsome hchanged hchildren.symm hparts hle⟩

def renameReads (old new : Text) : Cell → StateM Nat Cell := change (Expr.renameRead? old new)

end Run

end Cell

/-- Renaming reads by rebuilding a tree and by changing it where it needs it give the same tree, with all
places, and the second change makes no node exactly if the tree has no read of the old name. In memory, it
gives the cell of the old tree exactly then, and below it the cells of all trees without such a read, while
the others are new; every tree can be put into memory. A change of no node rebuilds an equal tree in the
first way, and gives the cell of the old tree in the second. -/
theorem renamings_agree (old new : Text) :
    (∀ e : Expr, (e.renameReads? old new).getD e = e.renameReads old new ∧
      (e.renameReads? old new = none ↔ old ∉ e.readNames) ∧
      e.rebuild id = e ∧ e.change? (fun _ => none) = none ∧
      ∃ c : Cell, c.tree = e ∧ c.Sound ∧ ∃ next, c.Under next) ∧
    ∀ (c : Cell) (next : Nat), c.Sound → c.Under next →
      ((c.change fun _ => none).run next).1 = c ∧
      ∃ c', ((c.renameReads old new).run next).1 = c' ∧ c'.Sound ∧
        c'.tree = c.tree.renameReads old new ∧
        (c'.address = c.address ↔ old ∉ c.tree.readNames) ∧ (c' = c ↔ old ∉ c.tree.readNames) ∧
        ∀ path s, c.at? path = some s →
          (old ∉ s.tree.readNames → c'.at? path = some s) ∧
          (old ∈ s.tree.readNames → ∃ s', c'.at? path = some s' ∧ next ≤ s'.address) := by
  refine ⟨fun e => ⟨e.changed_eq_rebuild, Expr.renameReads?_eq_none_iff, e.rebuild_id, ?_,
    Cell.exists_sound e⟩, fun c next hc hunder => ⟨?_, ?_⟩⟩
  · exact (Expr.change?_eq_none_iff e).mpr ((Expr.every_iff_nodes e).mpr fun _ _ => rfl)
  · obtain ⟨c', next', hrun, -, h⟩ := Cell.change_run (f := fun _ => none) nofun hc next hunder
    rw [hrun]
    exact h.shares.eq_of_none ((Expr.change?_eq_none_iff c.tree).mpr
      ((Expr.every_iff_nodes c.tree).mpr fun _ _ => rfl))
  · have hkeeps (x y : Expr) (h : Expr.renameRead? old new x = some y) : y.children = x.children :=
      Expr.children_of_renameRead? h
    obtain ⟨c', next', hrun, -, h⟩ := Cell.change_run hkeeps hc next hunder
    have hiff (e : Expr) : e.change? (Expr.renameRead? old new) = none ↔ old ∉ e.readNames :=
      Expr.renameReads?_eq_none_iff
    have haddress := (h.shares.address_eq_iff hunder).trans (hiff c.tree)
    refine ⟨c', congrArg Prod.fst hrun, h.sound, ?_, haddress, ⟨fun heq => ?_, fun hold => ?_⟩,
      fun path s hs => ⟨fun hold => ?_, fun hold => ?_⟩⟩
    · rw [h.tree_eq, Expr.changed_eq_rebuild]
      rfl
    · exact haddress.mp (congrArg Cell.address heq)
    · exact h.shares.eq_of_none ((hiff c.tree).mpr hold)
    · exact (h.shares path s hs).1 ((hiff s.tree).mpr hold)
    · exact (h.shares path s hs).2 fun hnone => (hiff s.tree).mp hnone hold

namespace Sample

def noPlace : Place := ⟨none, none⟩

/-- The bare name `name` in memory, from an address on. -/
def bareCell (address : Nat) (name : Text) : Cell :=
  ⟨address + 1, .read noPlace (.context noPlace) name, [⟨address, .context noPlace, []⟩]⟩

/-- The read `a.b` in memory. -/
def readCell : Cell := ⟨2, .read noPlace (bareCell 0 "a").tree "b", [bareCell 0 "a"]⟩

/-- The sum `a.b + c` in memory. -/
def sumCell : Cell :=
  ⟨5, .binary noPlace "+" readCell.tree (bareCell 3 "c").tree, [readCell, bareCell 3 "c"]⟩

theorem sound_bareCell (address : Nat) (name : Text) : (bareCell address name).Sound :=
  .mk rfl (by simpa using .mk rfl (List.forall_mem_nil _))

theorem sound_sumCell : sumCell.Sound :=
  .mk rfl (by simpa using ⟨.mk rfl (by simpa using sound_bareCell 0 "a"), sound_bareCell 3 "c"⟩)

theorem under_bareCell {address next : Nat} (h : address + 1 < next) (name : Text) :
    (bareCell address name).Under next :=
  Cell.under_mk h (by simpa using Cell.under_mk (by omega) (List.forall_mem_nil _))

theorem under_sumCell : sumCell.Under 6 :=
  Cell.under_mk (by decide) (by simpa using ⟨Cell.under_mk (by decide)
    (by simpa using under_bareCell (by decide) "a"), under_bareCell (by decide) "c"⟩)

/-- Renaming `c` makes a new sum over the old read `a.b`. -/
theorem renamings_agree_sum : sumCell.Sound ∧ sumCell.Under 6 ∧
    ∃ c', ((sumCell.renameReads "c" "d").run 6).1 = c' ∧ c'.address ≠ sumCell.address ∧
      c'.at? [0] = some readCell := by
  obtain ⟨-, hcell⟩ := renamings_agree "c" "d"
  obtain ⟨-, c', hrun, -, -, haddress, -, hshares⟩ := hcell sumCell 6 sound_sumCell under_sumCell
  refine ⟨sound_sumCell, under_sumCell, c', hrun, fun h => ?_, (hshares [0] readCell rfl).1 (by decide)⟩
  exact haddress.mp h (by decide)

end Sample

end TemplateCompiler
