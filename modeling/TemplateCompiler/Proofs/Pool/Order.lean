import TemplateCompiler.Proofs.Pool.Requests
import TemplateCompiler.Proofs.Code.Nodes

/-!
# The order of constants

A literal that is kept without a constant is written out wherever it stands. Once it has a constant, all
of these places read it, also those in constants that were declared before.

* `Term.shown` : the nodes that the code of a term is written from, under the names of a pool;
* `Pool.Ordered` : every constant that a declaration reads is declared by an earlier statement;
* `Pool.History` : requests to a new pool, which may hold what was answered before;
* `Pool.History.ordered_iff` : the order holds unless some request gives a constant to a literal that a
  declaration holds written out.
-/

namespace TemplateCompiler

section Shown

variable (names : Names)

mutual

/-- The nodes that the code of a term is written from. A literal with a constant is not written out. -/
def Term.shown : Term → List Term
  | t@(.var ..) | t@(.lit ..) | t@(.external ..) => [t]
  | t@(.array _ ts) => t :: Term.shownAll ts
  | t@(.map _ es) => t :: Term.shownEntries es
  | t@(.prop _ a _) | t@(.not _ a) | t@(.present _ a) | t@(.cast _ a) => t :: a.shown
  | t@(.key _ a b) | t@(.binary _ _ a b) | t@(.cond _ a b none) => t :: (a.shown ++ b.shown)
  | t@(.call _ f args _) => t :: (f.shown ++ Term.shownAll args)
  | t@(.cond _ c y (some n)) => t :: (c.shown ++ (y.shown ++ n.shown))
  | t@(.function _ _ body _) => t :: Stmt.shownAll body
  | t@(.pooled k a) => t :: if (names k).isSome then [] else a.shown

/-- The nodes that the code of terms is written from. -/
def Term.shownAll : List Term → List Term
  | [] => []
  | t :: ts => t.shown ++ Term.shownAll ts

/-- The nodes that the code of the values of a map is written from. -/
def Term.shownEntries : List (MapKey × Term) → List Term
  | [] => []
  | (_, t) :: es => t.shown ++ Term.shownEntries es

/-- The nodes that a statement is written from. -/
def Stmt.shown : Stmt → List Term
  | .declare _ _ _ none => []
  | .declare _ _ _ (some t) | .expr _ t | .ret _ t => t.shown
  | .function _ _ _ _ body => Stmt.shownAll body
  | .branch _ c yes no => c.shown ++ (Stmt.shownAll yes ++ Stmt.shownAll no)

/-- The nodes that statements are written from. -/
def Stmt.shownAll : List Stmt → List Term
  | [] => []
  | s :: ss => s.shown ++ Stmt.shownAll ss

end

/-- The variable that a node is written as: a pooled literal as its constant. -/
def Term.read? : Term → Option Text
  | .var _ x => some x
  | .pooled k _ => names k
  | _ => none

/-- The variables that the code of a statement reads. -/
def Stmt.reads (s : Stmt) : List Text := (s.shown names).filterMap (Term.read? names)

end Shown

/-! ### The nodes of code that is written -/

section Lists

variable {a a' b b' : List Term} {key : Text} {t : Term}

/-- Nodes before and after a literal gets a constant: either there is the literal, then and now, or
nothing changes. -/
def Moved (key : Text) (a a' : List Term) : Prop := (∃ u, .pooled key u ∈ a ∧ .pooled key u ∈ a') ∨ a' = a

theorem Moved.append (h : Moved key a a') (h' : Moved key b b') : Moved key (a ++ b) (a' ++ b') := by
  rcases h with ⟨u, hu, hu'⟩ | rfl
  · exact .inl ⟨u, List.mem_append_left b hu, List.mem_append_left b' hu'⟩
  · rcases h' with ⟨u, hu, hu'⟩ | rfl
    · exact .inl ⟨u, List.mem_append_right a' hu, List.mem_append_right a' hu'⟩
    · exact .inr rfl

theorem Moved.cons (h : Moved key a a') : Moved key (t :: a) (t :: a') := by
  rcases h with ⟨u, hu, hu'⟩ | rfl
  · exact .inl ⟨u, List.mem_cons_of_mem t hu, List.mem_cons_of_mem t hu'⟩
  · exact .inr rfl

theorem Moved.refl : Moved key a a := .inr rfl

end Lists

section Sharing

variable {names names' : Names} {key : Text}

mutual

/-- What happens to the nodes of a term when the literal of a key gets a constant. -/
theorem Term.shown_moved (hnone : names key = none) (hkey : ∀ k, k ≠ key → names' k = names k) :
    ∀ t : Term, Moved key (t.shown names) (t.shown names')
  | .var .. | .lit .. | .external .. => .refl
  | .array _ ts => (Term.shownAll_moved hnone hkey ts).cons
  | .map _ es => (Term.shownEntries_moved hnone hkey es).cons
  | .prop _ t _ | .not _ t | .present _ t | .cast _ t => (Term.shown_moved hnone hkey t).cons
  | .key _ t u | .binary _ _ t u | .cond _ t u none =>
    ((Term.shown_moved hnone hkey t).append (Term.shown_moved hnone hkey u)).cons
  | .call _ f args _ => ((Term.shown_moved hnone hkey f).append (Term.shownAll_moved hnone hkey args)).cons
  | .cond _ c t (some u) => ((Term.shown_moved hnone hkey c).append
      ((Term.shown_moved hnone hkey t).append (Term.shown_moved hnone hkey u))).cons
  | .function _ _ body _ => (Stmt.shownAll_moved hnone hkey body).cons
  | .pooled k t => by
      by_cases hk : k = key
      · subst hk
        exact .inl ⟨t, List.mem_cons_self, List.mem_cons_self⟩
      · rw [Term.shown, Term.shown, hkey k hk]
        cases names k with
        | some n => exact .refl
        | none => exact (Term.shown_moved hnone hkey t).cons

theorem Term.shownAll_moved (hnone : names key = none) (hkey : ∀ k, k ≠ key → names' k = names k) :
    ∀ ts : List Term, Moved key (Term.shownAll names ts) (Term.shownAll names' ts)
  | [] => .refl
  | t :: ts => (Term.shown_moved hnone hkey t).append (Term.shownAll_moved hnone hkey ts)

theorem Term.shownEntries_moved (hnone : names key = none) (hkey : ∀ k, k ≠ key → names' k = names k) :
    ∀ es : List (MapKey × Term), Moved key (Term.shownEntries names es) (Term.shownEntries names' es)
  | [] => .refl
  | (_, t) :: es => (Term.shown_moved hnone hkey t).append (Term.shownEntries_moved hnone hkey es)

theorem Stmt.shown_moved (hnone : names key = none) (hkey : ∀ k, k ≠ key → names' k = names k) :
    ∀ s : Stmt, Moved key (s.shown names) (s.shown names')
  | .declare _ _ _ none => .refl
  | .declare _ _ _ (some t) | .expr _ t | .ret _ t => Term.shown_moved hnone hkey t
  | .function _ _ _ _ body => Stmt.shownAll_moved hnone hkey body
  | .branch _ c yes no => (Term.shown_moved hnone hkey c).append
      ((Stmt.shownAll_moved hnone hkey yes).append (Stmt.shownAll_moved hnone hkey no))

theorem Stmt.shownAll_moved (hnone : names key = none) (hkey : ∀ k, k ≠ key → names' k = names k) :
    ∀ ss : List Stmt, Moved key (Stmt.shownAll names ss) (Stmt.shownAll names' ss)
  | [] => .refl
  | s :: ss => (Stmt.shown_moved hnone hkey s).append (Stmt.shownAll_moved hnone hkey ss)

end

variable (names)

mutual

/-- Code is written from nodes of the term. -/
theorem Term.shown_sublist : ∀ t : Term, (t.shown names).Sublist t.nodes
  | .var .. | .lit .. | .external .. => .refl _
  | .array _ ts => (Term.shownAll_sublist ts).cons_cons _
  | .map _ es => (Term.shownEntries_sublist es).cons_cons _
  | .prop _ t _ | .not _ t | .present _ t | .cast _ t => (Term.shown_sublist t).cons_cons _
  | .key _ t u | .binary _ _ t u | .cond _ t u none =>
    ((Term.shown_sublist t).append (Term.shown_sublist u)).cons_cons _
  | .call _ f args _ => ((Term.shown_sublist f).append (Term.shownAll_sublist args)).cons_cons _
  | .cond _ c t (some u) =>
    ((Term.shown_sublist c).append ((Term.shown_sublist t).append (Term.shown_sublist u))).cons_cons _
  | .function _ _ body _ => (Stmt.shownAll_sublist body).cons_cons _
  | .pooled k t => by
      rw [Term.shown, Term.nodes]
      refine List.Sublist.cons_cons _ ?_
      split
      · exact List.nil_sublist _
      · exact Term.shown_sublist t

theorem Term.shownAll_sublist : ∀ ts : List Term, (Term.shownAll names ts).Sublist (Term.nodesAll ts)
  | [] => .refl _
  | t :: ts => (Term.shown_sublist t).append (Term.shownAll_sublist ts)

theorem Term.shownEntries_sublist : ∀ es : List (MapKey × Term),
    (Term.shownEntries names es).Sublist (Term.nodesEntries es)
  | [] => .refl _
  | (_, t) :: es => (Term.shown_sublist t).append (Term.shownEntries_sublist es)

theorem Stmt.shown_sublist : ∀ s : Stmt, (s.shown names).Sublist s.nodes
  | .declare _ _ _ none => .refl _
  | .declare _ _ _ (some t) | .expr _ t | .ret _ t => Term.shown_sublist t
  | .function _ _ _ _ body => Stmt.shownAll_sublist body
  | .branch _ c yes no =>
    (Term.shown_sublist c).append ((Stmt.shownAll_sublist yes).append (Stmt.shownAll_sublist no))

theorem Stmt.shownAll_sublist : ∀ ss : List Stmt, (Stmt.shownAll names ss).Sublist (Stmt.nodesAll ss)
  | [] => .refl _
  | s :: ss => (Stmt.shown_sublist s).append (Stmt.shownAll_sublist ss)

end

variable {names}

/-- A statement that does not write out a literal stays as it is when the literal gets a constant. -/
theorem Stmt.reads_eq_of_notMem {s : Stmt} (hnone : names key = none)
    (hkey : ∀ k, k ≠ key → names' k = names k) (h : ∀ u, .pooled key u ∉ s.shown names) :
    s.reads names' = s.reads names := by
  rcases Stmt.shown_moved hnone hkey s with ⟨u, hu, -⟩ | heq
  · exact absurd hu (h u)
  · rw [Stmt.reads, Stmt.reads, heq]
    refine List.filterMap_congr fun t ht => ?_
    cases t with
    | pooled k u => exact hkey k fun hk => h u (hk ▸ ht)
    | _ => rfl

/-- A statement that writes out a literal reads its constant when it has one. -/
theorem Stmt.mem_reads_of_mem {s : Stmt} {n : Text} {u : Term} (hnone : names key = none)
    (hkey : ∀ k, k ≠ key → names' k = names k) (hn : names' key = some n) (hu : .pooled key u ∈ s.shown names) :
    n ∈ s.reads names' := by
  have hread : ∃ u, .pooled key u ∈ s.shown names' := by
    rcases Stmt.shown_moved hnone hkey s with ⟨u, -, hu⟩ | heq
    · exact ⟨u, hu⟩
    · exact ⟨u, heq ▸ hu⟩
  obtain ⟨u, hu⟩ := hread
  exact List.mem_filterMap.mpr ⟨_, hu, hn⟩

end Sharing

/-! ### Keys of the literals inside -/

section Keys

/-- Every pooled literal is kept under its own key. -/
def KeptByKey (us : List Term) : Prop := ∀ k u, .pooled k u ∈ us → u.keyOf = .ok k

theorem KeptByKey.append {us vs : List Term} (h : KeptByKey (us ++ vs)) : KeptByKey us ∧ KeptByKey vs :=
  ⟨fun k u hu => h k u (List.mem_append_left vs hu), fun k u hu => h k u (List.mem_append_right us hu)⟩

mutual

/-- A literal inside a term has a key that is no longer than that of the term. -/
theorem Term.length_key_le : ∀ (t : Term) {key : Text}, t.keyOf = .ok key → KeptByKey t.nodes →
    ∀ k u, .pooled k u ∈ t.nodes → k.length ≤ key.length
  | .pooled _ t, _, hkey, hkept, k, u, hu => by
      rcases List.mem_cons.mp hu with heq | hu
      · cases heq
        cases (hkept _ _ List.mem_cons_self).symm.trans hkey
        exact Nat.le_refl _
      · exact Term.length_key_le t hkey (fun k u hu => hkept k u (List.mem_cons_of_mem _ hu)) k u hu
  | .array _ ts, _, hkey, hkept, k, u, hu => by
      obtain ⟨ks, hks, hkey⟩ := except_bind_ok.mp hkey
      cases hkey
      rcases List.mem_cons.mp hu with heq | hu
      · cases heq
      · obtain ⟨k', hk', hle⟩ := Term.length_keys_le ts hks
          (fun k u hu => hkept k u (List.mem_cons_of_mem _ hu)) k u hu
        have := Text.length_le_join hk'
        simp only [List.length_append]
        omega
  | .map _ es, _, hkey, hkept, k, u, hu => by
      obtain ⟨ks, hks, hkey⟩ := except_bind_ok.mp hkey
      cases hkey
      rcases List.mem_cons.mp hu with heq | hu
      · cases heq
      · obtain ⟨k', hk', hle⟩ := Term.length_keysOfEntries_le es hks
          (fun k u hu => hkept k u (List.mem_cons_of_mem _ hu)) k u hu
        have := Text.length_le_join hk'
        simp only [List.length_append]
        omega
  | .var .., _, _, _, _, _, hu | .lit .., _, _, _, _, _, hu | .external .., _, _, _, _, _, hu => by
      cases List.mem_singleton.mp hu
  | .prop .., _, hkey, _, _, _, _ | .key .., _, hkey, _, _, _, _ | .call .., _, hkey, _, _, _, _
  | .binary .., _, hkey, _, _, _, _ | .not .., _, hkey, _, _, _, _ | .present .., _, hkey, _, _, _, _
  | .cast .., _, hkey, _, _, _, _ | .cond .., _, hkey, _, _, _, _ | .function .., _, hkey, _, _, _, _ =>
    nomatch hkey

theorem Term.length_keys_le : ∀ (ts : List Term) {keys : List Text}, Term.keysOf ts = .ok keys →
    KeptByKey (Term.nodesAll ts) → ∀ k u, .pooled k u ∈ Term.nodesAll ts →
      ∃ key ∈ keys, k.length ≤ key.length
  | [], _, _, _, _, _, hu => nomatch hu
  | t :: ts, keys, hkeys, hkept, k, u, hu => by
      obtain ⟨key, hkey, hkeys⟩ := except_bind_ok.mp hkeys
      obtain ⟨keys', hkeys', hkeys⟩ := except_bind_ok.mp hkeys
      cases hkeys
      obtain ⟨hkept, hkept'⟩ := KeptByKey.append hkept
      rcases List.mem_append.mp hu with hu | hu
      · exact ⟨key, List.mem_cons_self, Term.length_key_le t hkey hkept k u hu⟩
      · obtain ⟨key', hmem, hle⟩ := Term.length_keys_le ts hkeys' hkept' k u hu
        exact ⟨key', List.mem_cons_of_mem key hmem, hle⟩

theorem Term.length_keysOfEntries_le : ∀ (es : List (MapKey × Term)) {keys : List Text},
    Term.keysOfEntries es = .ok keys → KeptByKey (Term.nodesEntries es) →
      ∀ k u, .pooled k u ∈ Term.nodesEntries es → ∃ key ∈ keys, k.length ≤ key.length
  | [], _, _, _, _, _, hu => nomatch hu
  | (name, t) :: es, keys, hkeys, hkept, k, u, hu => by
      obtain ⟨key, hkey, hkeys⟩ := except_bind_ok.mp hkeys
      obtain ⟨keys', hkeys', hkeys⟩ := except_bind_ok.mp hkeys
      cases hkeys
      obtain ⟨hkept, hkept'⟩ := KeptByKey.append hkept
      rcases List.mem_append.mp hu with hu | hu
      · refine ⟨_, List.mem_cons_self, (Term.length_key_le t hkey hkept k u hu).trans ?_⟩
        simp only [List.length_append]
        omega
      · obtain ⟨key', hmem, hle⟩ := Term.length_keysOfEntries_le es hkeys' hkept' k u hu
        exact ⟨key', List.mem_cons_of_mem _ hmem, hle⟩

end

/-- A literal that is pooled itself no more holds none of its own key. -/
theorem Term.pooled_notMem_nodes {t : Term} {key : Text} (hkey : t.keyOf = .ok key)
    (hkept : KeptByKey t.nodes) (ht : ∀ k u, t ≠ .pooled k u) (u : Term) : .pooled key u ∉ t.nodes := by
  intro hu
  have hlt : ∃ keys k, k ∈ keys ∧ key.length ≤ k.length ∧ (Text.join "," keys).length < key.length := by
    cases t with
    | array note ts =>
        obtain ⟨ks, hks, hk⟩ := except_bind_ok.mp hkey
        cases hk
        rcases List.mem_cons.mp hu with heq | hu
        · cases heq
        · obtain ⟨k, hk, hle⟩ := Term.length_keys_le ts hks
            (fun k u hu => hkept k u (List.mem_cons_of_mem _ hu)) _ u hu
          refine ⟨ks, k, hk, hle, ?_⟩
          have : 0 < ("[" : Text).length := by decide
          simp only [List.length_append]
          omega
    | map note es =>
        obtain ⟨ks, hks, hk⟩ := except_bind_ok.mp hkey
        cases hk
        rcases List.mem_cons.mp hu with heq | hu
        · cases heq
        · obtain ⟨k, hk, hle⟩ := Term.length_keysOfEntries_le es hks
            (fun k u hu => hkept k u (List.mem_cons_of_mem _ hu)) _ u hu
          refine ⟨ks, k, hk, hle, ?_⟩
          have : 0 < ("\x7b" : Text).length := by decide
          simp only [List.length_append]
          omega
    | pooled k v => exact absurd rfl (ht k v)
    | var | lit | external => cases List.mem_singleton.mp hu
    | prop | key | call | binary | not | present | cast | cond | function => cases hkey
  obtain ⟨keys, k, hk, hle, hlt⟩ := hlt
  have := Text.length_le_join hk
  omega

end Keys

namespace Pool

/-! ### Requests -/

/-- What a pool has of a node: a pooled literal was kept by it, and a constant was declared. -/
def Has (pool : Pool) : Term → Prop
  | .pooled k t => ∃ n, pool.literals.lookup k = some (t, n)
  | .var _ x => IsConstantName x → pool.Declares x
  | _ => True

/-- A term that has nothing of a pool in it but what the pool has handed out. -/
def Knows (pool : Pool) (t : Term) : Prop := ∀ u ∈ t.nodes, pool.Has u

/-- What a request asks for may have answers of earlier requests in it, and no other constants. -/
def Request.Within (pool : Pool) : Request → Prop
  | .literal t _ | .factory t => pool.Knows t
  | .name .. => True

/-- Requests to a new pool, and the pool after them. -/
inductive History : List Request → Pool → Prop where
  | start : History [] {}
  | step {rs : List Request} {r : Request} {pool pool' : Pool} {a : Answer} :
    History rs pool → r.Within pool → pool.answer r = .ok (a, pool') → History (rs ++ [r]) pool'

/-- Every constant that a declaration reads is declared by an earlier statement. -/
def Ordered (pool : Pool) : Prop :=
  ∀ i s, pool.statements[i]? = some s → ∀ x ∈ s.reads pool.names, IsConstantName x →
    x ∈ Stmt.variablesIn (pool.statements.take i)

/-- A declaration holds the literal of a key, which is written out unless it has a constant. -/
def Writes (pool : Pool) (key : Text) : Prop :=
  ∃ s ∈ pool.statements, ∃ t, .pooled key t ∈ s.shown pool.names

/-- The key of the literal that gets a constant when it is asked for again. -/
def pending? (pool : Pool) (t : Term) : Option Text :=
  if isInline t then none
  else
    match t.keyOf with
    | .ok key =>
      match pool.literals.lookup key with
      | some (_, none) => some key
      | _ => none
    | .error _ => none

/-- Asking for a literal gives a constant to one that a declaration has written out. -/
def Redirects (pool : Pool) (t : Term) : Prop := ∃ key, pool.pending? t = some key ∧ pool.Writes key

/-- Sharing the constants among some entries, one after the other, redirects a literal. -/
def RedirectsAny : List Term → Pool → Prop
  | [], _ => False
  | t :: ts, pool =>
    if t.isConstant then
      pool.Redirects t ∨ ∃ u pool', pool.literal t true = .ok (u, pool') ∧ RedirectsAny ts pool'
    else RedirectsAny ts pool

/-- A request gives a constant to a literal that a declaration has written out. A function that is known
already shares nothing. -/
def Request.Redirects (pool : Pool) : Request → Prop
  | .literal t _ => pool.Redirects t
  | .factory t =>
    (∃ key, factoryKey t = .ok key ∧ pool.factories.lookup key = none) ∧ RedirectsAny (entriesOf t) pool
  | .name .. => False

/-! ### What a pool has -/

/-- What is known of a pool after any requests. -/
structure Tidy (pool : Pool) : Prop where
  kept : ∀ key t n, pool.literals.lookup key = some (t, n) → t.keyOf = .ok key ∧ pool.Knows t
  shared : ∀ key n, pool.names key = some n → pool.Declares n
  statements : ∀ s ∈ pool.statements, ∀ u ∈ s.nodes, pool.Has u
  named : ∀ x, pool.Declares x → ∃ n < pool.count, x = constantName n

/-- A pool that has all that another one has. -/
structure Retains (pool pool' : Pool) : Prop where
  literals : ∀ key t n, pool.literals.lookup key = some (t, n) →
    ∃ n', pool'.literals.lookup key = some (t, n')
  declares : ∀ x, pool.Declares x → pool'.Declares x

theorem Retains.refl (pool : Pool) : Retains pool pool := ⟨fun _ _ n h => ⟨n, h⟩, fun _ => id⟩

theorem Retains.trans {a b c : Pool} (h : Retains a b) (h' : Retains b c) : Retains a c := by
  refine ⟨fun key t n hn => ?_, fun x hx => h'.declares x (h.declares x hx)⟩
  obtain ⟨n', hn'⟩ := h.literals key t n hn
  exact h'.literals key t n' hn'

theorem Tidy.empty : Tidy {} where
  kept := by rintro _ _ _ ⟨⟩
  shared := by rintro _ _ ⟨⟩
  statements := fun _ h => nomatch h
  named := fun _ h => nomatch h

variable {pool pool' : Pool} {key name : Text} {t u : Term}

theorem Has.mono (h : Retains pool pool') (hu : pool.Has u) : pool'.Has u := by
  cases u with
  | pooled k t =>
      obtain ⟨n, hn⟩ := hu
      exact h.literals k t n hn
  | var note x => exact fun hx => h.declares x (hu hx)
  | _ => trivial

theorem Knows.mono (h : Retains pool pool') (ht : pool.Knows t) : pool'.Knows t :=
  fun u hu => (ht u hu).mono h

theorem Tidy.keptByKey (h : pool.Tidy) {us : List Term} (hus : ∀ u ∈ us, pool.Has u) : KeptByKey us := by
  intro k u hu
  obtain ⟨n, hn⟩ := hus _ hu
  exact (h.kept k u n hn).1

theorem Tidy.declares_of_mem_reads (h : pool.Tidy) {s : Stmt} (hs : ∀ u ∈ s.nodes, pool.Has u) {x : Text}
    (hx : x ∈ s.reads pool.names) (hconstant : IsConstantName x) : pool.Declares x := by
  obtain ⟨u, hu, hread⟩ := List.mem_filterMap.mp hx
  have hu := hs u ((Stmt.shown_sublist pool.names s).subset hu)
  cases u with
  | var note y =>
      cases hread
      exact hu hconstant
  | pooled k v => exact h.shared k x hread
  | _ => cases hread

/-- No constant has the name that the next one gets. -/
theorem Tidy.fresh (h : pool.Tidy) : ¬ pool.Declares (constantName pool.count) := by
  intro hmem
  obtain ⟨n, hlt, hn⟩ := h.named _ hmem
  exact absurd (constantName_inj hn) (Nat.ne_of_gt hlt)

/-! ### Keeping, declaring and sharing -/

theorem Tidy.keep (h : pool.Tidy) (hkey : t.keyOf = .ok key) (ht : pool.Knows t) :
    (pool.keep key t).Tidy ∧ Retains pool (pool.keep key t) ∧ ((pool.keep key t).Ordered ↔ pool.Ordered) := by
  have hnames := names_keep pool key t
  have hretains : Retains pool (pool.keep key t) := by
    refine ⟨fun k u n hu => ⟨n, ?_⟩, fun _ => id⟩
    rw [Pool.keep, List.lookup_append, hu]
    rfl
  refine ⟨⟨fun k u n hu => ?_, fun k n hn => h.shared k n (hnames ▸ hn),
    fun s hs u hu => (h.statements s hs u hu).mono hretains, h.named⟩, hretains, ?_⟩
  · rw [Pool.keep, List.lookup_append, Option.or_eq_some_iff] at hu
    rcases hu with hu | ⟨-, hu⟩
    · obtain ⟨hk, hu⟩ := h.kept k u n hu
      exact ⟨hk, hu.mono hretains⟩
    · rw [List.lookup_cons] at hu
      split at hu
      · next heq =>
          cases hu
          exact ⟨eq_of_beq heq ▸ hkey, ht.mono hretains⟩
      · cases hu
  · rw [Ordered, Ordered, hnames]
    rfl

theorem retains_declare (pool : Pool) (value : Term) : Retains pool (pool.declare value).2 :=
  ⟨fun _ _ n hu => ⟨n, hu⟩, fun x hx => (declares_declare value x).mpr (.inl hx)⟩

theorem Tidy.declare (h : pool.Tidy) {value : Term} (hvalue : pool.Knows value) :
    (pool.declare value).2.Tidy := by
  have hretains := retains_declare pool value
  refine ⟨fun k u n hu => ?_, fun k n hn => hretains.declares n (h.shared k n hn), fun s hs u hu => ?_,
    fun x hx => ?_⟩
  · obtain ⟨hk, hu⟩ := h.kept k u n hu
    exact ⟨hk, hu.mono hretains⟩
  · rw [declare_statements, List.mem_append, List.mem_singleton] at hs
    rcases hs with hs | rfl
    · exact (h.statements s hs u hu).mono hretains
    · exact (hvalue u hu).mono hretains
  · rw [count_declare]
    rcases (declares_declare value x).mp hx with hx | rfl
    · obtain ⟨n, hlt, hn⟩ := h.named x hx
      exact ⟨n, Nat.lt_succ_of_lt hlt, hn⟩
    · exact ⟨pool.count, Nat.lt_succ_self _, declare_fst pool value⟩

/-- The order of declarations, with one more at the end. -/
theorem ordered_append {names : Names} {ss : List Stmt} {s : Stmt}
    (hs : ∀ x ∈ s.reads names, IsConstantName x → x ∈ Stmt.variablesIn ss) :
    (∀ i s', (ss ++ [s])[i]? = some s' → ∀ x ∈ s'.reads names, IsConstantName x →
      x ∈ Stmt.variablesIn ((ss ++ [s]).take i)) ↔
    ∀ i s', ss[i]? = some s' → ∀ x ∈ s'.reads names, IsConstantName x → x ∈ Stmt.variablesIn (ss.take i) := by
  constructor
  · intro h i s' hi
    have hlt := (List.getElem?_eq_some_iff.mp hi).1
    have htake : (ss ++ [s]).take i = ss.take i := List.take_append_of_le_length hlt.le
    rw [← htake]
    exact h i s' ((List.getElem?_append_left hlt).trans hi)
  · intro h i s' hi
    rcases Nat.lt_or_ge i ss.length with hlt | hge
    · rw [List.take_append_of_le_length hlt.le]
      exact h i s' ((List.getElem?_append_left hlt).symm.trans hi)
    · rw [List.getElem?_append_right hge, List.getElem?_singleton] at hi
      split at hi
      · next hzero =>
          cases hi
          rw [show i = ss.length by omega, List.take_left]
          exact hs
      · cases hi

/-- A function is declared after everything that it reads. -/
theorem Tidy.ordered_declare (h : pool.Tidy) {value : Term} (hvalue : pool.Knows value) :
    (pool.declare value).2.Ordered ↔ pool.Ordered := by
  have hreads : ∀ x ∈ (Stmt.const (constantName pool.count) value).reads pool.names, IsConstantName x →
      x ∈ Stmt.variablesIn pool.statements := fun x hx =>
    h.declares_of_mem_reads (s := .const (constantName pool.count) value) hvalue hx
  have hstatements := declare_statements pool value
  rw [Ordered, Ordered, hstatements]
  exact ordered_append hreads

/-- A kept literal gets a constant. That keeps the order unless the literal is written out before. -/
theorem Tidy.share (h : pool.Tidy) {kept : Term} (hlookup : pool.literals.lookup key = some (kept, none))
    (hkey : t.keyOf = .ok key) (ht : pool.Knows t) (hpooled : ∀ k u, t ≠ .pooled k u) :
    ((pool.declare t).2.share key (pool.declare t).1).Tidy ∧
      Retains pool ((pool.declare t).2.share key (pool.declare t).1) ∧
      (((pool.declare t).2.share key (pool.declare t).1).Ordered ↔ pool.Ordered ∧ ¬ pool.Writes key) := by
  let after := (pool.declare t).2.share key (pool.declare t).1
  have hnone : pool.names key = none := by
    rw [Pool.names, hlookup]
    rfl
  have hself : after.names key = some (constantName pool.count) :=
    (names_share_self hlookup).trans (congrArg some (declare_fst pool t))
  have hother : ∀ k, k ≠ key → after.names k = pool.names k := fun k hk => names_share_of_ne hk
  have hstatements : after.statements = pool.statements ++ [.const (constantName pool.count) t] :=
    declare_statements pool t
  have htidy := h.declare ht
  have hretains : Retains (pool.declare t).2 after := by
    refine ⟨fun k u n hu => ?_, fun _ => id⟩
    exact ⟨_, (lookup_share k).trans (congrArg (Option.map _) hu)⟩
  refine ⟨⟨fun k u n hu => ?_, fun k n hn => ?_, fun s hs u hu => ?_, htidy.named⟩,
    (retains_declare pool t).trans hretains, ?_⟩
  · rw [lookup_share] at hu
    obtain ⟨⟨u', n'⟩, hu', heq⟩ := Option.map_eq_some_iff.mp hu
    cases heq
    obtain ⟨hk, hu⟩ := htidy.kept k u n' hu'
    exact ⟨hk, hu.mono hretains⟩
  · by_cases hk : k = key
    · subst hk
      have hn : n = (pool.declare t).1 := by
        rw [declare_fst]
        exact Option.some.inj (hn.symm.trans hself)
      exact (declares_declare t n).mpr (.inr hn)
    · exact htidy.shared k n ((names_share_of_ne hk).symm.trans hn)
  · exact (htidy.statements s hs u hu).mono hretains
  · -- The new declaration does not hold its own literal, so it reads what was declared before.
    have hnew : ∀ x ∈ (Stmt.const (constantName pool.count) t).reads after.names, IsConstantName x →
        x ∈ Stmt.variablesIn pool.statements := by
      rw [Stmt.reads_eq_of_notMem hnone hother]
      · exact fun x hx => h.declares_of_mem_reads (s := .const (constantName pool.count) t) ht hx
      · intro u hu
        exact Term.pooled_notMem_nodes hkey (h.keptByKey ht) hpooled u
          ((Term.shown_sublist pool.names t).subset hu)
    rw [Ordered, hstatements, ordered_append hnew]
    constructor
    · intro hordered
      have hwrites : ¬ pool.Writes key := by
        rintro ⟨s, hs, u, hu⟩
        obtain ⟨i, hi⟩ := List.mem_iff_getElem?.mp hs
        have hmem := hordered i s hi _ (Stmt.mem_reads_of_mem hnone hother hself hu) ⟨pool.count, rfl⟩
        exact h.fresh (((List.take_sublist i _).filterMap _).subset hmem)
      refine ⟨fun i s hi => ?_, hwrites⟩
      rw [← Stmt.reads_eq_of_notMem hnone hother fun u hu => hwrites ⟨s, List.mem_of_getElem? hi, u, hu⟩]
      exact hordered i s hi
    · rintro ⟨hordered, hwrites⟩ i s hi
      rw [Stmt.reads_eq_of_notMem hnone hother fun u hu => hwrites ⟨s, List.mem_of_getElem? hi, u, hu⟩]
      exact hordered i s hi

/-! ### Literals -/

theorem pending?_eq (hinline : isInline t = false) (hkey : t.keyOf = .ok key) :
    pool.pending? t = match pool.literals.lookup key with
      | some (_, none) => some key
      | _ => none := by
  rw [pending?, hinline, hkey]
  rfl

/-- What is known of the pool after a literal was asked for, and of the answer. -/
structure Shared (pool pool' : Pool) (t u : Term) : Prop where
  tidy : pool'.Tidy
  retains : Retains pool pool'
  answer : pool'.Knows u
  ordered : pool'.Ordered ↔ pool.Ordered ∧ ¬ pool.Redirects t
  factories : pool'.factories = pool.factories

theorem Tidy.knows_pooled (h : pool.Tidy) {n : Option Text} (hlookup : pool.literals.lookup key = some (t, n)) :
    pool.Knows (.pooled key t) :=
  List.forall_mem_cons.mpr ⟨⟨n, hlookup⟩, (h.kept key t n hlookup).2⟩

/-- Asking for a literal keeps the order unless it redirects one. -/
theorem Tidy.literal (h : pool.Tidy) {force : Bool} (ht : pool.Knows t)
    (hrun : pool.literal t force = .ok (u, pool')) : Shared pool pool' t u := by
  rw [Pool.literal] at hrun
  cases hinline : isInline t with
  | true =>
      rw [if_pos hinline] at hrun
      cases hrun
      refine ⟨h, .refl pool, ht, ⟨fun ho => ⟨ho, ?_⟩, And.left⟩, rfl⟩
      rintro ⟨key, hkey, -⟩
      rw [pending?, hinline] at hkey
      cases hkey
  | false =>
      rw [if_neg (by simp [hinline])] at hrun
      obtain ⟨key, hkey, hrun⟩ := except_bind_ok.mp hrun
      have hpooled := not_pooled_of_isInline hinline
      have hpending : pool.pending? t = match pool.literals.lookup key with
          | some (_, none) => some key
          | _ => none := pending?_eq hinline hkey
      cases hlookup : pool.literals.lookup key with
      | some e =>
          rw [hlookup] at hrun hpending
          obtain ⟨kept, _ | n⟩ := e
          · cases hrun
            obtain ⟨htidy, hretains, hordered⟩ := h.share hlookup hkey ht hpooled
            obtain ⟨n, hn⟩ := hretains.literals key kept none hlookup
            refine ⟨htidy, hretains, htidy.knows_pooled hn, hordered.trans (and_congr_right' ?_), rfl⟩
            refine not_congr ⟨fun hw => ⟨key, hpending, hw⟩, ?_⟩
            rintro ⟨key', hkey', hw⟩
            cases hpending.symm.trans hkey'
            exact hw
          · cases hrun
            refine ⟨h, .refl pool, h.knows_pooled hlookup, ⟨fun ho => ⟨ho, ?_⟩, And.left⟩, rfl⟩
            rintro ⟨key', hkey', -⟩
            cases hpending.symm.trans hkey'
      | none =>
          rw [hlookup] at hrun hpending
          have hredirects : ¬ pool.Redirects t := by
            rintro ⟨key', hkey', -⟩
            cases hpending.symm.trans hkey'
          obtain ⟨hkeep, hretains, hordered⟩ := h.keep hkey ht
          have hkept := lookup_keep (t := t) hlookup
          cases force with
          | false =>
              cases hrun
              exact ⟨hkeep, hretains, hkeep.knows_pooled hkept,
                hordered.trans ⟨fun ho => ⟨ho, hredirects⟩, And.left⟩, rfl⟩
          | true =>
              cases hrun
              obtain ⟨htidy, hretains', hordered'⟩ := hkeep.share hkept hkey (ht.mono hretains) hpooled
              obtain ⟨n, hn⟩ := hretains'.literals key t none hkept
              -- No declaration holds a literal that was not kept before.
              have hwrites : ¬ (pool.keep key t).Writes key := by
                rintro ⟨s, hs, v, hv⟩
                obtain ⟨n, hn⟩ := h.statements s hs _ ((Stmt.shown_sublist _ s).subset hv)
                cases hlookup.symm.trans hn
              exact ⟨htidy, hretains.trans hretains', htidy.knows_pooled hn,
                hordered'.trans ⟨fun ho => ⟨hordered.mp ho.1, hredirects⟩,
                  fun ho => ⟨hordered.mpr ho.1, hwrites⟩⟩, rfl⟩

/-! ### Factories -/

theorem not_isConstantName_parameter (n : Nat) : ¬ IsConstantName (parameter n) := by
  rintro ⟨m, hm⟩
  exact absurd (List.cons.inj hm).1 (by decide)

/-- The entries of a factory are asked for one after the other. -/
theorem Tidy.factoryEntries {ts : List Term} : ∀ {count : Nat} {pool pool' : Pool} {entries params},
    pool.Tidy → (∀ t ∈ ts, pool.Knows t) → Pool.factoryEntries count ts pool = .ok (entries, params, pool') →
    pool'.Tidy ∧ Retains pool pool' ∧ (∀ e ∈ entries, pool'.Knows e) ∧
      (pool'.Ordered ↔ pool.Ordered ∧ ¬ RedirectsAny ts pool) := by
  induction ts with
  | nil =>
      intro count pool pool' entries params h _ hrun
      cases hrun
      exact ⟨h, .refl pool, List.forall_mem_nil _, ⟨fun ho => ⟨ho, id⟩, And.left⟩⟩
  | cons t ts ih =>
      intro count pool pool' entries params h hts hrun
      obtain ⟨ht, hts⟩ := List.forall_mem_cons.mp hts
      rw [Pool.factoryEntries] at hrun
      rw [RedirectsAny]
      cases hc : t.isConstant with
      | true =>
          rw [if_pos hc] at hrun
          obtain ⟨⟨u, pool₁⟩, hu, hrun⟩ := except_bind_ok.mp hrun
          obtain ⟨⟨rest, params₁, pool₂⟩, hrest, hrun⟩ := except_bind_ok.mp hrun
          cases hrun
          have hshared := h.literal ht hu
          obtain ⟨htidy, hretains, hentries, hordered⟩ :=
            ih hshared.tidy (fun v hv => (hts v hv).mono hshared.retains) hrest
          refine ⟨htidy, hshared.retains.trans hretains,
            List.forall_mem_cons.mpr ⟨hshared.answer.mono hretains, hentries⟩, ?_⟩
          rw [hordered, hshared.ordered, if_pos rfl, not_or, and_assoc]
          refine and_congr_right' (and_congr_right' (not_congr ⟨fun hr => ⟨u, pool₁, hu, hr⟩, ?_⟩))
          rintro ⟨u', pool₁', hu', hr⟩
          cases hu.symm.trans hu'
          exact hr
      | false =>
          rw [if_neg (by simp [hc])] at hrun
          obtain ⟨⟨rest, params₁, pool₁⟩, hrest, hrun⟩ := except_bind_ok.mp hrun
          cases hrun
          obtain ⟨htidy, hretains, hentries, hordered⟩ := ih h hts hrest
          refine ⟨htidy, hretains, List.forall_mem_cons.mpr ⟨?_, hentries⟩, hordered⟩
          exact List.forall_mem_singleton.mpr fun hx => absurd hx (not_isConstantName_parameter count)

theorem knows_ofList {ts : List Term} (h : ∀ t ∈ ts, pool.Knows t) : pool.Knows (.ofList ts) := by
  refine List.forall_mem_cons.mpr ⟨trivial, ?_⟩
  induction ts with
  | nil => exact fun _ hu => nomatch hu
  | cons t ts ih =>
      obtain ⟨ht, hts⟩ := List.forall_mem_cons.mp h
      exact List.forall_mem_append.mpr ⟨ht, ih hts⟩

theorem knows_ofEntries {es : List (MapKey × Term)} (h : ∀ e ∈ es, pool.Knows e.2) :
    pool.Knows (.ofEntries es) := by
  refine List.forall_mem_cons.mpr ⟨trivial, ?_⟩
  induction es with
  | nil => exact fun _ hu => nomatch hu
  | cons e es ih =>
      obtain ⟨he, hes⟩ := List.forall_mem_cons.mp h
      exact List.forall_mem_append.mpr ⟨he, ih hes⟩

theorem knows_entriesOf (h : pool.Knows t) : ∀ e ∈ entriesOf t, pool.Knows e := by
  cases t with
  | array note ts =>
      have hts := (List.forall_mem_cons.mp h).2
      change ∀ e ∈ ts, _
      induction ts with
      | nil => exact List.forall_mem_nil _
      | cons t ts ih =>
          obtain ⟨ht, hts⟩ := List.forall_mem_append.mp hts
          exact List.forall_mem_cons.mpr ⟨ht, ih (List.forall_mem_cons.mpr ⟨trivial, hts⟩) hts⟩
  | map note es =>
      have hes := (List.forall_mem_cons.mp h).2
      change ∀ e ∈ es.map (·.2), _
      induction es with
      | nil => exact List.forall_mem_nil _
      | cons e es ih =>
          obtain ⟨he, hes⟩ := List.forall_mem_append.mp hes
          exact List.forall_mem_cons.mpr ⟨he, ih (List.forall_mem_cons.mpr ⟨trivial, hes⟩) hes⟩
  | _ => exact List.forall_mem_nil _

theorem knows_collect (ht : t.isCollection = true) {us : List Term} (hus : ∀ u ∈ us, pool.Knows u) :
    pool.Knows (t.collect us) := by
  cases t with
  | array note ts => exact knows_ofList hus
  | map note es => exact knows_ofEntries fun e he => hus e.2 (List.of_mem_zip he).2
  | _ => cases ht

theorem knows_maker {params : List Text} (ht : pool.Knows t) : pool.Knows (maker params t) :=
  List.forall_mem_cons.mpr ⟨trivial, List.forall_mem_append.mpr ⟨ht, fun _ hu => nomatch hu⟩⟩

theorem isCollection_of_factory {r : (Term × List Term) × Pool} (h : pool.factory t = .ok r) :
    t.isCollection = true := by
  cases t with
  | array | map => rfl
  | _ => cases h

/-- Asking for a factory keeps the order unless it redirects a literal. -/
theorem Tidy.factory (h : pool.Tidy) {args : List Term} (ht : pool.Knows t)
    (hrun : pool.factory t = .ok ((u, args), pool')) :
    pool'.Tidy ∧ (pool'.Ordered ↔ pool.Ordered ∧ ¬ (Request.factory t).Redirects pool) := by
  have hcollection := isCollection_of_factory hrun
  rw [factory_eq hcollection] at hrun
  obtain ⟨key, hkey, hrun⟩ := except_bind_ok.mp hrun
  rw [factoryFor] at hrun
  cases hlookup : pool.factories.lookup key with
  | some name =>
      rw [hlookup] at hrun
      cases hrun
      refine ⟨h, ⟨fun ho => ⟨ho, ?_⟩, And.left⟩⟩
      rintro ⟨⟨key', hkey', hnone⟩, -⟩
      cases hkey.symm.trans hkey'
      cases hlookup.symm.trans hnone
  | none =>
      rw [hlookup] at hrun
      obtain ⟨⟨entries, params, pool₁⟩, hentries, hrun⟩ := except_bind_ok.mp hrun
      cases hrun
      obtain ⟨h₁, -, hknown, hordered⟩ := h.factoryEntries (knows_entriesOf ht) hentries
      have hvalue : pool₁.Knows (maker params (t.collect entries)) :=
        knows_maker (knows_collect hcollection hknown)
      obtain ⟨hkept, hshared, hstatements, hnamed⟩ := h₁.declare hvalue
      refine ⟨⟨hkept, hshared, hstatements, hnamed⟩,
        (h₁.ordered_declare hvalue).trans (hordered.trans (and_congr_right' (not_congr ?_)))⟩
      exact (and_iff_right ⟨key, hkey, hlookup⟩).symm

/-! ### Histories -/

/-- A request keeps the order of the declarations unless it redirects a literal. -/
theorem Tidy.answer (h : pool.Tidy) {r : Request} {a : Answer} (hr : r.Within pool)
    (hrun : pool.answer r = .ok (a, pool')) :
    pool'.Tidy ∧ (pool'.Ordered ↔ pool.Ordered ∧ ¬ r.Redirects pool) := by
  cases r with
  | literal t force =>
      obtain ⟨⟨u, pool₁⟩, hu, hrun⟩ := except_bind_ok.mp hrun
      cases hrun
      exact ⟨(h.literal hr hu).tidy, (h.literal hr hu).ordered⟩
  | factory t =>
      obtain ⟨⟨⟨u, args⟩, pool₁⟩, hu, hrun⟩ := except_bind_ok.mp hrun
      cases hrun
      exact h.factory hr hu
  | name name suffix =>
      cases hrun
      refine ⟨⟨h.kept, h.shared, h.statements, fun x hx => ?_⟩, ⟨fun ho => ⟨ho, id⟩, And.left⟩⟩
      obtain ⟨n, hlt, hn⟩ := h.named x hx
      exact ⟨n, Nat.lt_of_lt_of_le hlt (count_uniqueName pool name suffix), hn⟩

theorem History.tidy {rs : List Request} (h : History rs pool) : pool.Tidy := by
  induction h with
  | start => exact .empty
  | step _ hr hrun ih => exact (ih.answer hr hrun).1

/-- The pool after some requests is determined by them. -/
theorem History.unique {rs : List Request} (h : History rs pool) (h' : History rs pool') : pool = pool' := by
  induction h generalizing pool' with
  | start =>
      generalize hrs : ([] : List Request) = rs' at h'
      cases h' with
      | start => rfl
      | step => exact absurd hrs.symm (List.append_ne_nil_of_right_ne_nil _ (List.cons_ne_nil _ _))
  | @step rs r _ _ _ _ _ hrun ih =>
      generalize hrs : rs ++ [r] = rs' at h'
      cases h' with
      | start => exact absurd hrs (List.append_ne_nil_of_right_ne_nil _ (List.cons_ne_nil _ _))
      | step h' _ hrun' =>
          obtain ⟨rfl, hr⟩ := List.append_inj' hrs rfl
          cases hr
          cases ih h'
          cases hrun.symm.trans hrun'
          rfl

/-- After any requests, every constant that a declaration reads is declared by an earlier statement, unless
some request gave a constant to a literal that a declaration had written out. -/
theorem History.ordered_iff {rs : List Request} (h : History rs pool) :
    pool.Ordered ↔ ∀ before r after pool', rs = before ++ r :: after → History before pool' →
      ¬ r.Redirects pool' := by
  induction h with
  | start =>
      refine ⟨fun _ before r after _ hrs => ?_, fun _ i s hi => ?_⟩
      · cases before <;> cases hrs
      · cases hi
  | @step rs r pool pool' a hprev hr hrun ih =>
      rw [(hprev.tidy.answer hr hrun).2, ih]
      constructor
      · rintro ⟨hbefore, hlast⟩ before r' after pool₁ hrs hhistory
        rcases List.eq_nil_or_concat after with rfl | ⟨after', r'', rfl⟩
        · obtain ⟨rfl, heq⟩ := List.append_inj' hrs rfl
          cases heq
          exact hprev.unique hhistory ▸ hlast
        · rw [List.concat_eq_append, ← List.cons_append, ← List.append_assoc] at hrs
          exact hbefore before r' after' pool₁ (List.append_inj' hrs rfl).1 hhistory
      · intro hall
        refine ⟨fun before r' after pool₁ hrs => ?_, hall rs r [] pool rfl hprev⟩
        exact hall before r' (after ++ [r]) pool₁ (by rw [hrs, List.append_assoc]; rfl)

namespace Sample

/-- A literal that is asked for twice. -/
def one : Term := .ofList [.ofNat 1]

def keptOne : Term := .pooled "[1]" one

/-- Between the two requests, the answer becomes part of a constant. -/
def nesting : List Request :=
  [.literal one false, .literal (.ofList [keptOne]) true, .literal one false]

def nested : Pool where
  statements := [.const "_c0" (.ofList [keptOne]), .const "_c1" one]
  literals := [("[1]", one, some "_c1"), ("[[1]]", .ofList [keptOne], some "_c0")]
  claimed := [("_c", 2)]

theorem history_nesting : History nesting nested := by
  have hone : ∀ pool : Pool, pool.Knows one := fun pool =>
    knows_ofList (List.forall_mem_singleton.mpr (List.forall_mem_singleton.mpr trivial))
  have h₁ := History.start.step (r := .literal one false) (hone _) rfl
  have h₂ := h₁.step (r := .literal (.ofList [keptOne]) true)
    (knows_ofList (List.forall_mem_singleton.mpr (List.forall_mem_cons.mpr ⟨⟨none, rfl⟩, hone _⟩))) rfl
  exact h₂.step (r := .literal one false) (hone _) rfl

theorem ordered_iff_nesting : History nesting nested ∧
    (nested.Ordered ↔ ∀ before r after pool', nesting = before ++ r :: after → History before pool' →
      ¬ r.Redirects pool') :=
  ⟨history_nesting, history_nesting.ordered_iff⟩

/-- The first constant reads the second one. -/
theorem not_ordered_nesting : History nesting nested ∧ ¬ nested.Ordered := by
  refine ⟨history_nesting, fun h => ?_⟩
  have hmem := h 0 (.const "_c0" (.ofList [keptOne])) rfl "_c1" (by decide) ⟨1, rfl⟩
  cases hmem

end Sample

end Pool

end TemplateCompiler
