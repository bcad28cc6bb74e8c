import Mathlib.Data.List.Induction
import Mathlib.Data.List.Nodup
import TemplateCompiler.Lowering.Temporary
import TemplateCompiler.Proofs.Lowering.Frame

/-!
# Temporaries are last in, first out

The stacks of a workbench are called in any order, with handles that may be stale or belong to another
stack. What they answer is told by the calls before and their answers, the log:

* `Workbench.made`, `Workbench.released`, `Workbench.live` : the temporaries that a stack has made so far,
  those that were released, and those of a stack that were not;
* `Workbench.Faithful` : a workbench has of its log what its stacks need. Every call preserves this
  (`Workbench.Faithful.perform`);
* `Workbench.lastInFirstOut_run` : so a stack releases the latest of its live temporaries and no other
  one, and declares the names that it has handed out.
-/

namespace TemplateCompiler

/-! ### Stacks -/

namespace TemporaryStack

/-- The temporary on top is released, any other one is refused. -/
theorem release_eq (s : TemporaryStack) (t : Temporary) :
    s.release t = if s.live.head? = some t then .ok { s with live := s.live.tail }
      else .error { cause := .releasedOutOfOrder t.name, internal := true } := by
  unfold release
  cases s.live with
  | nil => rfl
  | cons top below => simp

end TemporaryStack

namespace Workbench

open TemporaryStack (nameOf)

/-! ### Calls -/

/-- What a workbench is asked for. -/
inductive Call where
  | addStack (binding : Text)
  | allocate (stack : Nat)
  | release (stack handle : Nat)
  | read (handle : Nat)

/-- What a call gives. -/
inductive Answer where
  | stack (id : Nat)
  | temporary (handle : Nat) (t : Temporary)
  | released
  | value (t : Term)
  | refused (e : CompileError)
  /-- There is no such stack or handle. -/
  | missing

/-- The answer to a call, and the workbench after it. -/
def perform (w : Workbench) : Call → Answer × Workbench
  | .addStack binding => (.stack (w.addStack binding).1, (w.addStack binding).2)
  | .allocate stack =>
    match w.allocate stack with
    | some (handle, t, w') => (.temporary handle t, w')
    | none => (.missing, w)
  | .release stack handle =>
    match w.release stack handle with
    | some (.ok w') => (.released, w')
    | some (.error e) => (.refused e, w)
    | none => (.missing, w)
  | .read handle =>
    match w.read handle with
    | some (.ok t) => (.value t, w)
    | some (.error e) => (.refused e, w)
    | none => (.missing, w)

section

variable {w : Workbench} {id handle : Nat} {s : TemporaryStack}

/-- A stack releases the temporary on its top, if the temporary is its own. -/
theorem perform_release {p : Nat × Temporary} (hs : w.members[id]? = some s)
    (hp : w.handles[handle]? = some p) : w.perform (.release id handle) =
      if p.1 = id ∧ s.live.head? = some p.2 then
        (.released, { w with members := w.members.set id { s with live := s.live.tail } })
      else (.refused { cause := .releasedOutOfOrder p.2.name, internal := true }, w) := by
  obtain ⟨owner, t⟩ := p
  simp only [perform, Workbench.release, hs, hp, TemporaryStack.release_eq, bind, Option.bind, pure]
  by_cases howner : owner = id
  · by_cases htop : s.live.head? = some t
    · simp [howner, htop, Except.map]
    · simp [howner, htop, Except.map]
  · simp [howner]

theorem perform_release_of_missing (h : w.members[id]? = none ∨ w.handles[handle]? = none) :
    w.perform (.release id handle) = (.missing, w) := by
  rcases h with h | h
  · simp [perform, Workbench.release, h]
  · cases hs : w.members[id]? <;> simp [perform, Workbench.release, h, hs]

/-- A temporary is read while its stack has it. -/
theorem perform_read {p : Nat × Temporary} (hs : w.members[p.1]? = some s)
    (hp : w.handles[handle]? = some p) : w.perform (.read handle) =
      (if p.2 ∈ s.live then .value (.ofVar p.2.name)
        else .refused { cause := .usedAfterRelease p.2.name, internal := true }, w) := by
  simp only [perform, Workbench.read, isReleased, hs, hp, bind, Option.bind, pure]
  by_cases hlive : p.2 ∈ s.live <;> simp [hlive]

theorem perform_read_snd (w : Workbench) (handle : Nat) : (w.perform (.read handle)).2 = w := by
  simp only [perform]
  split <;> rfl

/-- A call that is refused changes nothing. -/
theorem perform_refused {c : Call} {e : CompileError} (h : (w.perform c).1 = .refused e) :
    (w.perform c).2 = w := by
  cases c with
  | addStack binding => cases h
  | allocate id =>
      simp only [perform] at h
      split at h <;> cases h
  | release id handle =>
      simp only [perform] at h ⊢
      split at h
      · cases h
      · rfl
      · cases h
  | read handle => exact perform_read_snd w handle

end

/-- Calls with their answers, the earliest first. -/
abbrev Log := List (Call × Answer)

/-- The log of calls on a new workbench, and the workbench after them. -/
def run (calls : List Call) : Log × Workbench :=
  calls.foldl (fun (log, w) c => (log ++ [(c, (w.perform c).1)], (w.perform c).2)) ([], {})

def madeBy (id : Nat) : Call × Answer → Option (Nat × Temporary)
  | (.allocate stack, .temporary handle t) => if stack = id then some (handle, t) else none
  | _ => none

def releasedBy : Call × Answer → Option Nat
  | (.release _ handle, .released) => some handle
  | _ => none

/-- The temporaries that a stack has made, the earliest first. -/
def made (log : Log) (id : Nat) : List (Nat × Temporary) := log.filterMap (madeBy id)

def released (log : Log) : List Nat := log.filterMap releasedBy

/-- The temporaries of a stack that are live, the earliest first. -/
def live (log : Log) (id : Nat) : List (Nat × Temporary) := (made log id).filter (·.1 ∉ released log)

/-- The most temporaries of a stack that were live at any time. -/
def Peak (log : Log) (id n : Nat) : Prop :=
  (∀ past, past <+: log → (live past id).length ≤ n) ∧
    ∃ past, past <+: log ∧ (live past id).length = n

variable {log : Log} {w : Workbench} {id handle n : Nat} {s : TemporaryStack} {t : Temporary}
  {e : Call × Answer}

/-! ### Longer logs -/

theorem made_snoc (log : Log) (e : Call × Answer) (id : Nat) :
    made (log ++ [e]) id = made log id ++ (madeBy id e).toList := by
  rw [made, List.filterMap_append, made]
  cases h : madeBy id e <;> simp [h]

theorem released_snoc (log : Log) (e : Call × Answer) :
    released (log ++ [e]) = released log ++ (releasedBy e).toList := by
  rw [released, List.filterMap_append, released]
  cases h : releasedBy e <;> simp [h]

theorem live_snoc_of_not_released (hreleased : releasedBy e = none) (hmade : madeBy id e = none) :
    live (log ++ [e]) id = live log id := by
  simp [live, made_snoc, released_snoc, hreleased, hmade]

theorem mem_live {p : Nat × Temporary} :
    p ∈ live log id ↔ p ∈ made log id ∧ p.1 ∉ released log := by
  simp [live]

theorem Peak.depth_le (h : Peak log id n) : (live log id).length ≤ n := h.1 log (List.prefix_refl log)

theorem Peak.snoc (h : Peak log id n) (e : Call × Answer) :
    Peak (log ++ [e]) id (max n (live (log ++ [e]) id).length) := by
  obtain ⟨hle, past, hpast, hn⟩ := h
  refine ⟨fun past' hpast' => ?_, ?_⟩
  · rcases List.prefix_concat_iff.mp hpast' with rfl | hpast'
    · exact Nat.le_max_right _ _
    · have := hle past' hpast'
      omega
  · rcases Nat.le_total n (live (log ++ [e]) id).length with hmax | hmax
    · exact ⟨log ++ [e], List.prefix_refl _, (Nat.max_eq_right hmax).symm⟩
    · refine ⟨past, hpast.trans (List.prefix_append log [e]), ?_⟩
      rw [hn, Nat.max_eq_left hmax]

/-! ### What a stack knows of the log -/

/-- A stack holds its live temporaries, numbers all it has made, and counts the most that were live. -/
structure Recorded (log : Log) (id : Nat) (s : TemporaryStack) : Prop where
  live_eq : (live log id).map (·.2) = s.live.reverse
  serials : (made log id).map (·.2.serial) = List.range s.made
  names : s.live.reverse.map (·.name) = (List.range s.depth).map (nameOf s.binding)
  peak : Peak log id s.count
  handed : ∀ x, (∃ p ∈ made log id, p.2.name = x) ↔ ∃ n < s.count, nameOf s.binding n = x

namespace Recorded

theorem length_live (h : Recorded log id s) : (live log id).length = s.depth := by
  simpa [TemporaryStack.depth] using congrArg List.length h.live_eq

theorem nodup_serials (h : Recorded log id s) : ((made log id).map (·.2.serial)).Nodup := by
  rw [h.serials]
  exact List.nodup_range

theorem handle_unique (h : Recorded log id s) {a b : Nat} (ha : (a, t) ∈ made log id)
    (hb : (b, t) ∈ made log id) : a = b :=
  congrArg Prod.fst (List.inj_on_of_nodup_map h.nodup_serials ha hb rfl)

theorem nodup_made (h : Recorded log id s) : (made log id).Nodup :=
  .of_map _ h.nodup_serials

/-- The temporary on top is the latest of those that are live. -/
theorem head?_eq_some_iff (h : Recorded log id s) (ht : (handle, t) ∈ made log id) :
    s.live.head? = some t ↔ (live log id).getLast? = some (handle, t) := by
  have hhead : s.live.head? = (live log id).getLast?.map (·.2) := by
    rw [← List.getLast?_map, h.live_eq, List.getLast?_reverse]
  rw [hhead]
  constructor
  · intro htop
    obtain ⟨⟨a, u⟩, hlast, rfl⟩ := Option.map_eq_some_iff.mp htop
    have ha := (mem_live.mp (List.mem_of_getLast? hlast)).1
    rw [hlast, h.handle_unique ht ha]
  · intro hlast
    rw [hlast]
    rfl

/-- A stack has the temporaries that were not released. -/
theorem mem_live_iff (h : Recorded log id s) (ht : (handle, t) ∈ made log id) :
    t ∈ s.live ↔ handle ∉ released log := by
  rw [← List.mem_reverse, ← h.live_eq, List.mem_map]
  constructor
  · rintro ⟨⟨a, u⟩, ha, rfl⟩
    obtain ⟨hmade, hreleased⟩ := mem_live.mp ha
    rwa [h.handle_unique ht hmade]
  · intro hreleased
    exact ⟨(handle, t), mem_live.mpr ⟨ht, hreleased⟩, rfl⟩

/-- A stack that has made nothing. -/
theorem start (hmade : made log id = []) (binding : Text) : Recorded log id { binding } := by
  refine ⟨?_, ?_, rfl, ⟨fun past hpast => ?_, [], List.nil_prefix, rfl⟩, fun x => ?_⟩
  · simp [live, hmade]
  · simp [hmade]
  · have hprefix : made past id <+: made log id := hpast.filterMap (madeBy id)
    rw [hmade, List.prefix_nil] at hprefix
    simp [live, hprefix]
  · simp [hmade]

/-- A call that neither makes nor releases a temporary of the stack. -/
theorem idle (h : Recorded log id s) (hmade : made (log ++ [e]) id = made log id)
    (hlive : live (log ++ [e]) id = live log id) : Recorded (log ++ [e]) id s := by
  refine ⟨by rw [hlive, h.live_eq], by rw [hmade, h.serials], h.names, ?_, hmade ▸ h.handed⟩
  have hpeak := h.peak.snoc e
  rwa [hlive, Nat.max_eq_left h.peak.depth_le] at hpeak

theorem allocate (h : Recorded log id s) (hnew : handle ∉ released log) :
    Recorded (log ++ [(.allocate id, .temporary handle s.allocate.1)]) id s.allocate.2 := by
  have hmade : made (log ++ [(.allocate id, .temporary handle s.allocate.1)]) id =
      made log id ++ [(handle, s.allocate.1)] := by
    simp [made_snoc, madeBy]
  have hlive : live (log ++ [(.allocate id, .temporary handle s.allocate.1)]) id =
      live log id ++ [(handle, s.allocate.1)] := by
    simp [live, hmade, released_snoc, releasedBy, List.filter_append, hnew]
  have hdepth := h.length_live
  have hle := h.peak.depth_le
  refine ⟨?_, ?_, ?_, ?_, fun x => ?_⟩
  · rw [hlive, List.map_append, h.live_eq]
    simp [TemporaryStack.allocate]
  · rw [hmade, List.map_append, h.serials]
    simp [TemporaryStack.allocate, List.range_succ]
  · have hnames := h.names
    simp only [TemporaryStack.depth] at hnames
    simp [TemporaryStack.allocate, TemporaryStack.depth, List.range_succ, hnames]
  · have hpeak := h.peak.snoc (.allocate id, .temporary handle s.allocate.1)
    rwa [hlive, List.length_append, hdepth] at hpeak
  · have hcount : s.allocate.2.count = max s.count (s.depth + 1) := rfl
    have hbinding : s.allocate.2.binding = s.binding := rfl
    have hname : s.allocate.1.name = nameOf s.binding s.depth := rfl
    rw [hmade, hcount, hbinding]
    simp only [List.mem_append, List.mem_singleton]
    constructor
    · rintro ⟨p, hp | rfl, rfl⟩
      · obtain ⟨n, hn, hx⟩ := (h.handed p.2.name).mp ⟨p, hp, rfl⟩
        exact ⟨n, by omega, hx⟩
      · exact ⟨s.depth, by omega, hname.symm⟩
    · rintro ⟨n, hn, rfl⟩
      -- The count grows only when as many are live, and then the new name is the next one.
      by_cases hold : n < s.count
      · obtain ⟨p, hp, hx⟩ := (h.handed (nameOf s.binding n)).mpr ⟨n, hold, rfl⟩
        exact ⟨p, .inl hp, hx⟩
      · have hn' : n = s.depth := by omega
        exact ⟨(handle, s.allocate.1), .inr rfl, by rw [hn', hname]⟩

theorem release (h : Recorded log id s) (ht : (handle, t) ∈ made log id)
    (hunique : ∀ u, (handle, u) ∈ made log id → u = t) (htop : s.live.head? = some t) :
    Recorded (log ++ [(.release id handle, .released)]) id { s with live := s.live.tail } := by
  have hmade : made (log ++ [(.release id handle, .released)]) id = made log id := by
    simp [made_snoc, madeBy]
  obtain ⟨front, hfront⟩ := List.getLast?_eq_some_iff.mp ((h.head?_eq_some_iff ht).mp htop)
  have hnodup : (live log id).Nodup := h.nodup_made.filter _
  rw [hfront] at hnodup
  -- Of the live temporaries only the last one has the handle, so it is the one that goes.
  have hothers : ∀ p ∈ front, p.1 ≠ handle := by
    rintro ⟨a, u⟩ hp rfl
    have hmem : (a, u) ∈ live log id := by
      rw [hfront]
      exact List.mem_append_left _ hp
    rw [hunique u (mem_live.mp hmem).1] at hp
    exact (List.nodup_append.mp hnodup).2.2 _ hp _ (List.mem_singleton_self _) rfl
  have hlive : live (log ++ [(.release id handle, .released)]) id = front := by
    have hsplit : live (log ++ [(.release id handle, .released)]) id =
        (live log id).filter (·.1 ≠ handle) := by
      simp only [live, hmade, released_snoc, releasedBy, List.filter_filter]
      apply List.filter_congr
      intro p _
      by_cases hp : p.1 = handle <;> simp [hp]
    rw [hsplit, hfront, List.filter_append, List.filter_eq_self.mpr (by simpa using hothers)]
    simp
  obtain ⟨below, hbelow⟩ : ∃ below, s.live = t :: below :=
    ⟨s.live.tail, (List.cons_head?_tail htop).symm⟩
  have hmap : front.map (·.2) = below.reverse := by
    have hmap := h.live_eq
    rw [hfront, hbelow, List.map_append, List.reverse_cons] at hmap
    exact List.append_cancel_right hmap
  have hnames := h.names
  rw [TemporaryStack.depth, hbelow] at hnames
  simp only [List.reverse_cons, List.map_append, List.length_cons, List.range_succ] at hnames
  refine ⟨?_, by rw [hmade, h.serials], ?_, ?_, hmade ▸ h.handed⟩
  · rw [hlive, hmap, hbelow]
    rfl
  · simp only [hbelow, List.tail_cons, TemporaryStack.depth]
    exact (List.append_inj' hnames rfl).1
  · have hpeak := h.peak.snoc (.release id handle, .released)
    have hshorter : front.length ≤ s.count := by
      have := h.peak.depth_le
      rw [hfront, List.length_append] at this
      omega
    rwa [hlive, Nat.max_eq_left hshorter] at hpeak

end Recorded

/-! ### What a workbench knows of the log -/

/-- The stacks were made by the log and know it, and a handle stands for what was made under it. -/
structure Faithful (log : Log) (w : Workbench) : Prop where
  handles : ∀ id handle t, (handle, t) ∈ made log id ↔ w.handles[handle]? = some (id, t)
  owners : ∀ (handle id : Nat) (t : Temporary), w.handles[handle]? = some (id, t) →
    id < w.members.length
  released_lt : ∀ handle ∈ released log, handle < w.handles.length
  bindings : ∀ id binding, (.addStack binding, .stack id) ∈ log →
    ∃ s, w.members[id]? = some s ∧ s.binding = binding
  recorded : ∀ id s, w.members[id]? = some s → Recorded log id s

namespace Faithful

theorem start : Faithful [] {} := by
  refine ⟨fun _ _ _ => ?_, fun _ _ _ h => ?_, fun _ h => ?_, fun _ _ h => ?_, fun _ _ h => ?_⟩
  · simp [made]
  · simp at h
  · simp [Workbench.released] at h
  · simp at h
  · simp at h

/-- A call that changes nothing. -/
theorem idle (h : Faithful log w) (hmade : ∀ id, madeBy id e = none) (hreleased : releasedBy e = none)
    (hstack : ∀ binding id, e ≠ (.addStack binding, .stack id)) : Faithful (log ++ [e]) w := by
  have hmade' : ∀ id, made (log ++ [e]) id = made log id := fun id => by
    rw [made_snoc, hmade, Option.toList_none, List.append_nil]
  refine ⟨fun id handle t => ?_, h.owners, ?_, fun id binding hmem => ?_, fun id s hs => ?_⟩
  · rw [hmade']
    exact h.handles id handle t
  · rw [released_snoc, hreleased, Option.toList_none, List.append_nil]
    exact h.released_lt
  · rcases List.mem_append.mp hmem with hmem | hmem
    · exact h.bindings id binding hmem
    · exact absurd (List.mem_singleton.mp hmem).symm (hstack binding id)
  · exact (h.recorded id s hs).idle (hmade' id) (live_snoc_of_not_released hreleased (hmade id))

theorem addStack (h : Faithful log w) (binding : Text) :
    Faithful (log ++ [(.addStack binding, .stack (w.addStack binding).1)]) (w.addStack binding).2 := by
  have hmade : ∀ id,
      made (log ++ [(.addStack binding, .stack (w.addStack binding).1)]) id = made log id := by
    intro id
    simp [made_snoc, madeBy]
  -- Temporaries are made on stacks that exist, so the next stack has none.
  have hunmade : made log w.members.length = [] := by
    rw [List.eq_nil_iff_forall_not_mem]
    rintro ⟨handle, t⟩ hmem
    have := h.owners handle _ t ((h.handles _ handle t).mp hmem)
    omega
  refine ⟨fun id handle t => ?_, fun handle id t hhandle => ?_, fun handle hhandle => ?_,
    fun id b hmem => ?_, fun id s hs => ?_⟩
  · rw [hmade]
    exact h.handles id handle t
  · have := h.owners handle id t hhandle
    simp only [Workbench.addStack, List.length_append, List.length_singleton]
    omega
  · simp only [released_snoc, releasedBy, Option.toList_none, List.append_nil] at hhandle
    exact h.released_lt handle hhandle
  · rcases List.mem_append.mp hmem with hmem | hmem
    · obtain ⟨s, hs, hbinding⟩ := h.bindings id b hmem
      refine ⟨s, ?_, hbinding⟩
      simp only [Workbench.addStack]
      rw [List.getElem?_append_left (List.getElem?_eq_some_iff.mp hs).1, hs]
    · cases List.mem_singleton.mp hmem
      exact ⟨{ binding }, by simp [Workbench.addStack], rfl⟩
  · simp only [Workbench.addStack, List.getElem?_append, List.getElem?_singleton] at hs
    split at hs
    · exact (h.recorded id s hs).idle (hmade id) (live_snoc_of_not_released rfl rfl)
    · split at hs
      · next hge hid =>
          cases hs
          have hid : id = w.members.length := by omega
          exact .start (by rw [hmade, hid, hunmade]) binding
      · cases hs

/-- Stacks keep their binding when one of them is changed. -/
theorem bindings_set (h : Faithful log w) (hs : w.members[id]? = some s) {s' : TemporaryStack}
    (hbinding : s'.binding = s.binding) (hstack : ∀ binding id, e ≠ (.addStack binding, .stack id)) :
    ∀ id' binding, (.addStack binding, .stack id') ∈ log ++ [e] →
      ∃ u, (w.members.set id s')[id']? = some u ∧ u.binding = binding := by
  intro id' binding hmem
  rcases List.mem_append.mp hmem with hmem | hmem
  · obtain ⟨u, hu, hb⟩ := h.bindings id' binding hmem
    by_cases hid : id = id'
    · subst hid
      rw [hs] at hu
      cases hu
      refine ⟨s', ?_, hbinding.trans hb⟩
      rw [List.getElem?_set_self (List.getElem?_eq_some_iff.mp hs).1]
    · exact ⟨u, by rw [List.getElem?_set_ne hid, hu], hb⟩
  · exact absurd (List.mem_singleton.mp hmem).symm (hstack binding id')

/-- A stack makes a temporary under the next handle. -/
theorem allocate (h : Faithful log w) (hs : w.members[id]? = some s) :
    Faithful (log ++ [(.allocate id, .temporary w.handles.length s.allocate.1)])
      ⟨w.members.set id s.allocate.2, w.handles ++ [(id, s.allocate.1)]⟩ := by
  have hid : id < w.members.length := (List.getElem?_eq_some_iff.mp hs).1
  have hnew : w.handles.length ∉ Workbench.released log := by
    intro hmem
    have := h.released_lt _ hmem
    omega
  refine ⟨fun id' handle t => ?_, fun handle id' t hhandle => ?_, fun handle hhandle => ?_,
    h.bindings_set hs rfl (by simp), fun id' s' hs' => ?_⟩
  · have hhandle :
        (handle, t) ∈ (madeBy id' (.allocate id, .temporary w.handles.length s.allocate.1)).toList ↔
          id = id' ∧ handle = w.handles.length ∧ t = s.allocate.1 := by
      by_cases hid' : id = id' <;> simp [madeBy, hid']
    rw [made_snoc, List.mem_append, h.handles id' handle t, hhandle]
    by_cases hlt : handle < w.handles.length
    · have hne : handle ≠ w.handles.length := by omega
      simp [List.getElem?_append_left hlt, hne]
    · rw [List.getElem?_append_right (by omega), List.getElem?_eq_none (by omega), List.getElem?_singleton]
      by_cases heq : handle = w.handles.length
      · simp [heq, eq_comm]
      · have hne : handle - w.handles.length ≠ 0 := by omega
        simp [heq, hne]
  · rw [List.length_set]
    by_cases hlt : handle < w.handles.length
    · rw [List.getElem?_append_left hlt] at hhandle
      exact h.owners handle id' t hhandle
    · rw [List.getElem?_append_right (by omega), List.getElem?_singleton] at hhandle
      split at hhandle
      · cases hhandle
        exact hid
      · cases hhandle
  · simp only [released_snoc, releasedBy, Option.toList_none, List.append_nil] at hhandle
    have := h.released_lt handle hhandle
    simp only [List.length_append, List.length_singleton]
    omega
  · by_cases hid' : id = id'
    · subst hid'
      rw [List.getElem?_set_self hid] at hs'
      cases hs'
      exact (h.recorded id s hs).allocate hnew
    · rw [List.getElem?_set_ne hid'] at hs'
      have hmade : madeBy id' (.allocate id, .temporary w.handles.length s.allocate.1) = none := if_neg hid'
      refine (h.recorded id' s' hs').idle ?_ (live_snoc_of_not_released rfl hmade)
      rw [made_snoc, hmade, Option.toList_none, List.append_nil]

/-- A stack releases the temporary on its top. -/
theorem release (h : Faithful log w) (hs : w.members[id]? = some s) (ht : w.handles[handle]? = some (id, t))
    (htop : s.live.head? = some t) :
    Faithful (log ++ [(.release id handle, .released)])
      { w with members := w.members.set id { s with live := s.live.tail } } := by
  have hid : id < w.members.length := (List.getElem?_eq_some_iff.mp hs).1
  have hmade : ∀ id', made (log ++ [(.release id handle, .released)]) id' = made log id' := by
    intro id'
    simp [made_snoc, madeBy]
  have howner : ∀ id' u, (handle, u) ∈ made log id' → id' = id ∧ u = t := by
    intro id' u hu
    have := (h.handles id' handle u).mp hu
    rw [ht] at this
    cases this
    exact ⟨rfl, rfl⟩
  refine ⟨fun id' a u => ?_, fun a id' u ha => ?_, fun a ha => ?_, h.bindings_set hs rfl (by simp),
    fun id' s' hs' => ?_⟩
  · rw [hmade]
    exact h.handles id' a u
  · rw [List.length_set]
    exact h.owners a id' u ha
  · rw [released_snoc] at ha
    rcases List.mem_append.mp ha with ha | ha
    · exact h.released_lt a ha
    · cases List.mem_singleton.mp ha
      exact (List.getElem?_eq_some_iff.mp ht).1
  · by_cases hid' : id = id'
    · subst hid'
      rw [List.getElem?_set_self hid] at hs'
      cases hs'
      exact (h.recorded id s hs).release ((h.handles id handle t).mpr ht)
        (fun u hu => (howner id u hu).2) htop
    · rw [List.getElem?_set_ne hid'] at hs'
      refine (h.recorded id' s' hs').idle (hmade id') ?_
      -- The handle that is released does not belong to this stack.
      simp only [live, hmade, released_snoc, releasedBy]
      apply List.filter_congr
      intro p hp
      have hne : p.1 ≠ handle := by
        rintro rfl
        exact hid' (howner id' p.2 hp).1.symm
      simp [hne]

/-- Every call preserves what a workbench knows. -/
theorem perform (h : Faithful log w) (c : Call) :
    Faithful (log ++ [(c, (w.perform c).1)]) (w.perform c).2 := by
  cases c with
  | addStack binding => exact h.addStack binding
  | allocate id =>
      cases hs : w.members[id]? with
      | none =>
          simp only [Workbench.perform, Workbench.allocate, hs]
          exact h.idle (fun _ => rfl) rfl (by simp)
      | some s =>
          simp only [Workbench.perform, Workbench.allocate, hs]
          exact h.allocate hs
  | release id handle =>
      cases hs : w.members[id]? with
      | none =>
          rw [perform_release_of_missing (.inl hs)]
          exact h.idle (fun _ => rfl) rfl (by simp)
      | some s =>
          cases ht : w.handles[handle]? with
          | none =>
              rw [perform_release_of_missing (.inr ht)]
              exact h.idle (fun _ => rfl) rfl (by simp)
          | some p =>
              rw [perform_release hs ht]
              split
              · next htop =>
                  obtain ⟨owner, t⟩ := p
                  obtain ⟨rfl, htop⟩ := htop
                  exact h.release hs ht htop
              · exact h.idle (fun _ => rfl) rfl (by simp)
  | read handle =>
      rw [perform_read_snd]
      exact h.idle (fun _ => rfl) rfl (by simp)

/-- A stack releases the latest of its live temporaries and no other one. -/
theorem release_eq (h : Faithful log w) {binding : Text} (hstack : (.addStack binding, .stack id) ∈ log)
    {owner : Nat} (ht : (handle, t) ∈ made log owner) : (w.perform (.release id handle)).1 =
      if owner = id ∧ handle ∉ Workbench.released log ∧ (live log id).getLast? = some (handle, t) then
        .released
      else .refused { cause := .releasedOutOfOrder t.name, internal := true } := by
  obtain ⟨s, hs, -⟩ := h.bindings id binding hstack
  rw [perform_release hs ((h.handles owner handle t).mp ht)]
  by_cases howner : owner = id
  · subst howner
    have hrecorded := h.recorded owner s hs
    by_cases htop : s.live.head? = some t
    · have hlive : handle ∉ Workbench.released log :=
        (hrecorded.mem_live_iff ht).mp (List.mem_of_head? htop)
      simp [htop, hlive, (hrecorded.head?_eq_some_iff ht).mp htop]
    · simp [htop, mt (hrecorded.head?_eq_some_iff ht).mpr htop]
  · simp [howner]

/-- A temporary can be read until it is released. -/
theorem read_eq (h : Faithful log w) (ht : (handle, t) ∈ made log id) :
    (w.perform (.read handle)).1 =
      if handle ∈ Workbench.released log then
        .refused { cause := .usedAfterRelease t.name, internal := true }
      else .value (.ofVar t.name) := by
  have hhandle := (h.handles id handle t).mp ht
  obtain ⟨s, hs⟩ : ∃ s, w.members[id]? = some s :=
    ⟨_, List.getElem?_eq_getElem (h.owners handle id t hhandle)⟩
  rw [perform_read hs hhandle]
  have hiff := (h.recorded id s hs).mem_live_iff ht
  by_cases hlive : t ∈ s.live
  · simp [hlive, hiff.mp hlive]
  · simp [hlive, not_not.mp (mt hiff.mpr hlive)]

end Faithful

theorem run_concat (calls : List Call) (c : Call) : run (calls ++ [c]) =
    ((run calls).1 ++ [(c, ((run calls).2.perform c).1)], ((run calls).2.perform c).2) := by
  rw [run, List.foldl_append]
  rfl

theorem faithful_run (calls : List Call) : Faithful (run calls).1 (run calls).2 := by
  induction calls using List.reverseRecOn with
  | nil => exact .start
  | append_singleton calls c ih =>
      rw [run_concat]
      exact ih.perform c

/-! ### Last in, first out -/

/-- A stack of a binding has what the log says: its live temporaries, which are named by their depth, the
most that were ever live, and a declaration for each name that it has handed out. -/
structure InOrder (log : Log) (id : Nat) (binding : Text) (s : TemporaryStack) : Prop where
  live_eq : s.live.reverse = (live log id).map (·.2)
  names : (live log id).map (·.2.name) = (List.range s.depth).map (nameOf binding)
  peak : Peak log id s.count
  declarations : ∃ names : List Text, s.declarations = names.map (fun x => .declare none {} x none) ∧
    names.Nodup ∧ ∀ x, x ∈ names ↔ ∃ p ∈ made log id, p.2.name = x

/-- What any call gives after those of a log. A temporary of any stack may be handed to any stack, and it is
released by its own one while no later one is live there. -/
structure LastInFirstOut (log : Log) (w : Workbench) : Prop where
  release : ∀ id binding, (.addStack binding, .stack id) ∈ log →
    ∀ owner handle t, (handle, t) ∈ made log owner → (w.perform (.release id handle)).1 =
      if owner = id ∧ handle ∉ released log ∧ (live log id).getLast? = some (handle, t) then .released
      else .refused { cause := .releasedOutOfOrder t.name, internal := true }
  read : ∀ owner handle t, (handle, t) ∈ made log owner → (w.perform (.read handle)).1 =
    if handle ∈ released log then .refused { cause := .usedAfterRelease t.name, internal := true }
    else .value (.ofVar t.name)
  refused : ∀ c e, (w.perform c).1 = .refused e → (w.perform c).2 = w
  inOrder : ∀ id binding, (.addStack binding, .stack id) ∈ log →
    ∃ s, w.members[id]? = some s ∧ InOrder log id binding s

theorem Recorded.inOrder (h : Recorded log id s) : InOrder log id s.binding s := by
  refine ⟨h.live_eq.symm, ?_, h.peak, (List.range s.count).map (nameOf s.binding), ?_, ?_, fun x => ?_⟩
  · rw [← h.names, ← h.live_eq, List.map_map]
    rfl
  · rw [List.map_map]
    rfl
  · exact List.Nodup.map (fun _ _ => TemporaryStack.nameOf_inj) List.nodup_range
  · rw [h.handed]
    simp

/-- The temporaries of every stack are last in, first out, however the stacks are called. -/
theorem lastInFirstOut_run (calls : List Call) : LastInFirstOut (run calls).1 (run calls).2 := by
  have h := faithful_run calls
  refine ⟨fun id binding hstack owner handle t ht => h.release_eq hstack ht,
    fun owner handle t ht => h.read_eq ht, fun c e => perform_refused, fun id binding hstack => ?_⟩
  obtain ⟨s, hs, rfl⟩ := h.bindings id binding hstack
  exact ⟨s, hs, (h.recorded id s hs).inOrder⟩

namespace Sample

/-- Two stacks. A temporary is handed to the other stack, too early to its own, and twice. -/
def crossing : List Call :=
  [.addStack "a", .addStack "b", .allocate 0, .allocate 0, .allocate 1, .release 1 0, .release 0 0,
    .release 0 1, .release 0 1, .allocate 0, .read 1]

/-- A released temporary stays released when its name is used again. -/
theorem lastInFirstOut_crossing :
    (made (run crossing).1 0).map (fun p => (p.1, p.2.name)) =
        ([(0, "tmp_a_0"), (1, "tmp_a_1"), (3, "tmp_a_1")] : List (Nat × Text)) ∧
      released (run crossing).1 = [1] ∧ (live (run crossing).1 0).map (·.1) = [0, 3] ∧
      LastInFirstOut (run crossing).1 (run crossing).2 :=
  ⟨rfl, rfl, rfl, lastInFirstOut_run crossing⟩

end Sample

end Workbench

end TemplateCompiler
