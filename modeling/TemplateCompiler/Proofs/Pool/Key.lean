import Mathlib.Data.List.Forall2
import TemplateCompiler.Proofs.Code.Scoped
import TemplateCompiler.Proofs.Pool.Literal
import TemplateCompiler.Proofs.Run

/-!
# Keys tell constants apart

* `Term.expand` : a term with everything that stands for something else put in its place, and
  without types and spans;
* `Term.Keyable` : literals, symbols of modules and variables, whose keys can be read;
* `Term.written_eq_of_keyOf_eq` : terms with the same key are written alike.
-/

namespace TemplateCompiler

/-! ### Expanding terms -/

abbrev Values := Text → Option Term

/-- The values under a binder of the given names. -/
def Values.hide (values : Values) (hidden : List Text) : Values :=
  fun x => if x ∈ hidden then none else values x

mutual

/-- A term with every pooled literal and every variable that has a value replaced by it. Types and
spans are left out, except for the types of casts. -/
def Term.expand (names : Names) (values : Values) : Term → Term
  | .var _ n => (values n).getD (.ofVar n)
  | .lit _ v => .ofValue v.plain
  | .array _ entries => .ofList (Term.expandAll names values entries)
  | .map _ entries => .ofEntries (Term.expandEntries names values entries)
  | .prop _ r n => .prop {} (r.expand names values) n
  | .key _ r i => .key {} (r.expand names values) (i.expand names values)
  | .call _ f args pure => .call {} (f.expand names values) (Term.expandAll names values args) pure
  | .binary _ op l r => .binary {} op (l.expand names values) (r.expand names values)
  | .not _ a => .not {} (a.expand names values)
  | .present _ a => .present {} (a.expand names values)
  | .cast note a => .cast { type := note.type } (a.expand names values)
  | .cond _ c yes none => .cond {} (c.expand names values) (yes.expand names values) none
  | .cond _ c yes (some no) =>
    .cond {} (c.expand names values) (yes.expand names values) (some (no.expand names values))
  | .external _ m n => .external {} m n
  | .function _ params body name =>
    .function {} params
      (Stmt.expandAll names (values.hide (name :: params ++ Stmt.declaredAll body)) body) name
  | .pooled key t =>
    match names key with
    | some n => (values n).getD (.ofVar n)
    | none => t.expand names values

def Term.expandAll (names : Names) (values : Values) : List Term → List Term
  | [] => []
  | t :: ts => t.expand names values :: Term.expandAll names values ts

def Term.expandEntries (names : Names) (values : Values) :
    List (MapKey × Term) → List (MapKey × Term)
  | [] => []
  | (k, t) :: ts => (k, t.expand names values) :: Term.expandEntries names values ts

def Stmt.expand (names : Names) (values : Values) : Stmt → Stmt
  | .declare _ mods n none => .declare none mods n none
  | .declare _ mods n (some v) => .declare none mods n (some (v.expand names values))
  | .function _ mods n params body =>
    .function none mods n params
      (Stmt.expandAll names (values.hide (params ++ Stmt.declaredAll body)) body)
  | .expr _ t => .expr none (t.expand names values)
  | .ret _ t => .ret none (t.expand names values)
  | .branch _ c yes no =>
    .branch none (c.expand names values) (Stmt.expandAll names values yes)
      (Stmt.expandAll names values no)

/-- Statements, expanded one by one. -/
def Stmt.expandAll (names : Names) (values : Values) : List Stmt → List Stmt
  | [] => []
  | s :: ss => s.expand names values :: Stmt.expandAll names values ss

end

theorem Term.expandAll_eq_map (names : Names) (values : Values) (ts : List Term) :
    Term.expandAll names values ts = ts.map (Term.expand names values) := by
  induction ts with
  | nil => rfl
  | cons t ts ih => rw [Term.expandAll, ih, List.map_cons]

theorem Term.expandEntries_eq_map (names : Names) (values : Values) (ts : List (MapKey × Term)) :
    Term.expandEntries names values ts = ts.map fun (k, t) => (k, t.expand names values) := by
  induction ts with
  | nil => rfl
  | cons t ts ih => rw [Term.expandEntries, ih, List.map_cons]

/-- A term as it was asked for: every pooled literal is itself again. -/
def Term.written (t : Term) : Term := t.expand Names.empty fun _ => none

/-! ### Terms with a key -/

/-- Whether a key of a map can be told from what follows it. Every identifier can. -/
def MapKey.Legible (k : MapKey) : Prop :=
  k.quoted = false → ∀ b ∈ k.name, b ≠ ':'.toUInt8 ∧ b ≠ '"'.toUInt8 ∧ b ≠ '\x7d'.toUInt8

mutual

/-- Literals, symbols of modules and variables with legible names. -/
def Term.Keyable : Term → Prop
  | .var _ n => ')'.toUInt8 ∉ n
  | .lit .. => True
  | .array _ entries => Term.KeyableAll entries
  | .map _ entries => Term.KeyableEntries entries
  | .external .. => True
  | .pooled _ t => t.Keyable
  | .prop .. => False
  | .key .. => False
  | .call .. => False
  | .binary .. => False
  | .not .. => False
  | .present .. => False
  | .cast .. => False
  | .cond .. => False
  | .function .. => False

def Term.KeyableAll : List Term → Prop
  | [] => True
  | t :: ts => t.Keyable ∧ Term.KeyableAll ts

def Term.KeyableEntries : List (MapKey × Term) → Prop
  | [] => True
  | (k, t) :: ts => k.Legible ∧ t.Keyable ∧ Term.KeyableEntries ts

end

/-! ### Keys of entries -/

/-- The keys of entries after the first. -/
def Text.joinTail (ks : List Text) : Text := ks.flatMap fun k => ','.toUInt8 :: k

theorem Text.join_cons (k : Text) (ks : List Text) : join "," (k :: ks) = k ++ joinTail ks := by
  induction ks generalizing k with
  | nil => simp [join, joinTail]
  | cons k' ks ih =>
      have h : join "," (k :: k' :: ks) = k ++ ("," ++ join "," (k' :: ks)) := rfl
      rw [h, ih]
      rfl

theorem delimited_nil : Delimited [] := fun _ h => nomatch h

theorem delimited_joinTail {close : UInt8} (hclose : isDelimiter close = true) (ks : List Text) (r : Text) :
    Delimited (Text.joinTail ks ++ close :: r) := by
  cases ks with
  | nil => rintro _ ⟨⟩; exact hclose
  | cons k ks => rintro _ ⟨⟩; rfl

/-- A text ends where a byte that it does not have follows. -/
theorem append_cons_inj {t u r s : Text} {b : UInt8} (ht : b ∉ t) (hu : b ∉ u)
    (h : t ++ b :: r = u ++ b :: s) : t = u ∧ r = s := by
  induction t generalizing u with
  | nil =>
      cases u with
      | nil => exact ⟨rfl, (List.cons.inj h).2⟩
      | cons c u => exact absurd ((List.cons.inj h).1 ▸ List.mem_cons_self) hu
  | cons c t ih =>
      cases u with
      | nil => exact absurd ((List.cons.inj h).1 ▸ List.mem_cons_self) ht
      | cons d u =>
          obtain ⟨rfl, htail⟩ := List.cons.inj h
          obtain ⟨rfl, hrs⟩ := ih (List.not_mem_of_not_mem_cons ht) (List.not_mem_of_not_mem_cons hu) htail
          exact ⟨rfl, hrs⟩

namespace MapKey

variable {k l : MapKey}

theorem head_of_not_quoted (hk : k.Legible) (hq : k.quoted = false) {r s : Text} {b : UInt8}
    (h : k.name ++ ':'.toUInt8 :: r = b :: s) : b ≠ '"'.toUInt8 ∧ b ≠ '\x7d'.toUInt8 := by
  cases hname : k.name with
  | nil =>
      rw [hname] at h
      rw [← (List.cons.inj h).1]
      decide
  | cons c t =>
      rw [hname] at h
      rw [← (List.cons.inj h).1]
      exact (hk hq c (hname ▸ List.mem_cons_self)).2

/-- The key of a map entry tells where it ends. -/
theorem keyOf_append_inj (hk : k.Legible) (hl : l.Legible) {r s : Text}
    (h : k.keyOf ++ ':'.toUInt8 :: r = l.keyOf ++ ':'.toUInt8 :: s) : k = l ∧ r = s := by
  have hcolon : ∀ {k : MapKey}, k.Legible → k.quoted = false → ':'.toUInt8 ∉ k.name :=
    fun hk hq hmem => (hk hq _ hmem).1 rfl
  obtain ⟨name, quoted⟩ := k
  obtain ⟨name', quoted'⟩ := l
  cases quoted with
  | true =>
      cases quoted' with
      | true =>
          obtain ⟨rfl, hrs⟩ := Text.quoted_append_inj h
          exact ⟨rfl, (List.cons.inj hrs).2⟩
      | false => exact absurd rfl (head_of_not_quoted hl rfl h.symm).1
  | false =>
      cases quoted' with
      | true => exact absurd rfl (head_of_not_quoted hk rfl h).1
      | false =>
          obtain ⟨rfl, hrs⟩ := append_cons_inj (hcolon hk rfl) (hcolon hl rfl) h
          exact ⟨rfl, hrs⟩

theorem keyOf_ne_close (hk : k.Legible) (r s : Text) :
    k.keyOf ++ ':'.toUInt8 :: r ≠ '\x7d'.toUInt8 :: s := by
  intro h
  unfold keyOf at h
  split at h
  · exact absurd (List.cons.inj h).1 (by decide)
  · next hq => exact (head_of_not_quoted hk (Bool.eq_false_iff.mpr hq) h).2 rfl

end MapKey

section Entries

variable {α : Type} {HasKey : α → Text → Prop} {Alike : α → α → Prop} {as bs : List α}
  {ks ks' : List Text} {close : UInt8} {r r' : Text}

/-- What keys tell: where they end, and what they are the keys of. -/
def Told (HasKey : α → Text → Prop) (Alike : α → α → Prop) (a : α) : Prop :=
  ∀ {b : α} {k k' r r' : Text}, HasKey a k → HasKey b k' → Delimited r → Delimited r' →
    k ++ r = k' ++ r' → Alike a b ∧ r = r'

theorem told_tail (hclose : isDelimiter close = true) (hcomma : close ≠ ','.toUInt8)
    (has : ∀ a ∈ as, Told HasKey Alike a) (hks : List.Forall₂ HasKey as ks)
    (hks' : List.Forall₂ HasKey bs ks')
    (h : Text.joinTail ks ++ close :: r = Text.joinTail ks' ++ close :: r') :
    List.Forall₂ Alike as bs ∧ r = r' := by
  induction hks generalizing bs ks' with
  | nil =>
      cases hks' with
      | nil => exact ⟨.nil, (List.cons.inj h).2⟩
      | cons => exact absurd (List.cons.inj h).1 hcomma
  | @cons a k as ks hk hks ih =>
      obtain ⟨ha, has⟩ := List.forall_mem_cons.mp has
      cases hks' with
      | nil => exact absurd (List.cons.inj h).1.symm hcomma
      | @cons b k' bs ks' hk' hks' =>
          have htail : k ++ (Text.joinTail ks ++ close :: r) = k' ++ (Text.joinTail ks' ++ close :: r') := by
            rw [← List.append_assoc, ← List.append_assoc]
            exact (List.cons.inj h).2
          obtain ⟨hab, hrest⟩ := ha hk hk' (delimited_joinTail hclose ks r)
            (delimited_joinTail hclose ks' r') htail
          obtain ⟨habs, hrr⟩ := ih has hks' hrest
          exact ⟨.cons hab habs, hrr⟩

/-- The keys of the entries of a collection tell where it is closed and which entries they are. -/
theorem told_join (hclose : isDelimiter close = true) (hcomma : close ≠ ','.toUInt8)
    (hopen : ∀ {a : α} {k : Text}, HasKey a k → ∀ r s, k ++ r ≠ close :: s)
    (has : ∀ a ∈ as, Told HasKey Alike a) (hks : List.Forall₂ HasKey as ks)
    (hks' : List.Forall₂ HasKey bs ks')
    (h : Text.join "," ks ++ close :: r = Text.join "," ks' ++ close :: r') :
    List.Forall₂ Alike as bs ∧ r = r' := by
  cases hks with
  | nil =>
      cases hks' with
      | nil => exact ⟨.nil, (List.cons.inj h).2⟩
      | cons hk' hks' =>
          rw [Text.join_cons, List.append_assoc] at h
          exact absurd h.symm (hopen hk' _ _)
  | @cons a k as ks hk hks =>
      obtain ⟨ha, has⟩ := List.forall_mem_cons.mp has
      rw [Text.join_cons, List.append_assoc] at h
      cases hks' with
      | nil => exact absurd h (hopen hk _ _)
      | @cons b k' bs ks' hk' hks' =>
          rw [Text.join_cons, List.append_assoc] at h
          obtain ⟨hab, hrest⟩ := ha hk hk' (delimited_joinTail hclose ks r)
            (delimited_joinTail hclose ks' r') h
          obtain ⟨habs, hrr⟩ := told_tail hclose hcomma has hks hks' hrest
          exact ⟨.cons hab habs, hrr⟩

end Entries

namespace Term

/-- The literal that a pooled literal stands for. -/
def unpooled : Term → Term
  | .pooled _ t => t.unpooled
  | t => t

theorem keyOf_unpooled (t : Term) : t.unpooled.keyOf = t.keyOf := by
  fun_induction unpooled t with
  | case1 _ t ih => rw [ih, Term.keyOf]
  | case2 t _ => rfl

theorem written_unpooled (t : Term) : t.unpooled.written = t.written := by
  fun_induction unpooled t with
  | case1 _ t ih => exact ih
  | case2 t _ => rfl

theorem keyable_unpooled {t : Term} (h : t.Keyable) : t.unpooled.Keyable := by
  fun_induction unpooled t with
  | case1 _ t ih => exact ih h
  | case2 t _ => exact h

theorem unpooled_ne_pooled (t : Term) (k : Text) (u : Term) : t.unpooled ≠ .pooled k u := by
  fun_induction unpooled t with
  | case1 _ t ih => exact ih
  | case2 t h => exact h k u

/-- The kinds of keyable terms by the first byte of their key. -/
def keyKindOf (b : UInt8) : Nat :=
  if b = '['.toUInt8 then 1 else if b = '\x7b'.toUInt8 then 2 else if b = 'i'.toUInt8 then 3
  else if b = 'r'.toUInt8 then 4 else 0

def keyKind : Term → Nat
  | .lit .. => 0
  | .array .. => 1
  | .map .. => 2
  | .external .. => 3
  | .var .. => 4
  | _ => 5

theorem keyKindOf_of_value {b : UInt8} (h : Primitive.leadOf b < 4) : keyKindOf b = 0 := by
  unfold keyKindOf
  split
  · next hb => rw [hb] at h; exact absurd h (by decide)
  · split
    · next hb => rw [hb] at h; exact absurd h (by decide)
    · split
      · next hb => rw [hb] at h; exact absurd h (by decide)
      · split
        · next hb => rw [hb] at h; exact absurd h (by decide)
        · rfl

theorem isDelimiter_of_value {b : UInt8} (h : Primitive.leadOf b < 4) : isDelimiter b = false := by
  refine Bool.eq_false_iff.mpr fun hb => ?_
  simp only [isDelimiter, Bool.or_eq_true, beq_iff_eq] at hb
  rcases hb with (rfl | rfl) | rfl <;> exact absurd h (by decide)

/-- The first byte of a key tells the kind of the term. -/
theorem keyKind_keyOf {t : Term} {k : Text} (h : t.Keyable) (hk : t.keyOf = .ok k) :
    ∃ b r, k = b :: r ∧ keyKindOf b = t.unpooled.keyKind ∧ isDelimiter b = false := by
  replace h := keyable_unpooled h
  rw [← keyOf_unpooled] at hk
  have hpooled := unpooled_ne_pooled t
  generalize t.unpooled = u at h hk hpooled ⊢
  cases u with
  | lit note v =>
      cases hk
      obtain ⟨b, r, htext, hb⟩ := Primitive.lead_keyOf v
      have hlt : Primitive.leadOf b < 4 := hb ▸ v.lead_lt
      exact ⟨b, r, htext, keyKindOf_of_value hlt, isDelimiter_of_value hlt⟩
  | array note es =>
      obtain ⟨ks, -, hk⟩ := except_bind_ok.mp hk
      cases hk
      exact ⟨_, _, rfl, rfl, rfl⟩
  | map note es =>
      obtain ⟨ks, -, hk⟩ := except_bind_ok.mp hk
      cases hk
      exact ⟨_, _, rfl, rfl, rfl⟩
  | external note m n =>
      cases hk
      exact ⟨_, _, rfl, rfl, rfl⟩
  | var note n =>
      cases hk
      exact ⟨_, _, rfl, rfl, rfl⟩
  | pooled k u => exact absurd rfl (hpooled k u)
  | prop | key | call | binary | not | present | cast | cond | function => exact h.elim

def HasKey (t : Term) (k : Text) : Prop := t.Keyable ∧ t.keyOf = .ok k

def Alike (a b : Term) : Prop := a.written = b.written

/-- To tell a term from all others, it is enough to tell it from those of its kind. -/
theorem told_of_keyKind {a : Term}
    (hsame : ∀ (c : Term) {k k' r r' : Text}, a.unpooled.keyKind = c.keyKind → a.HasKey k → c.HasKey k' →
      Delimited r → Delimited r' → k ++ r = k' ++ r' → a.Alike c ∧ r = r') : Told HasKey Alike a := by
  intro b k k' r r' hk hk' hr hr' h
  have hkind : a.unpooled.keyKind = b.unpooled.keyKind := by
    obtain ⟨c, t, rfl, hc, -⟩ := keyKind_keyOf hk.1 hk.2
    obtain ⟨c', t', rfl, hc', -⟩ := keyKind_keyOf hk'.1 hk'.2
    rw [← hc, ← hc', (List.cons.inj h).1]
  rw [Alike, ← written_unpooled b]
  exact hsame b.unpooled hkind hk ⟨keyable_unpooled hk'.1, (keyOf_unpooled b).trans hk'.2⟩ hr hr' h

theorem HasKey.ne_delimiter {a : Term} {k : Text} (hk : a.HasKey k) {b : UInt8}
    (hb : isDelimiter b = true) (r s : Text) : k ++ r ≠ b :: s := by
  intro h
  obtain ⟨c, t, rfl, -, hc⟩ := keyKind_keyOf hk.1 hk.2
  rw [(List.cons.inj h).1, hb] at hc
  cases hc

theorem told_lit (note : Note) (v : Primitive) : Told HasKey Alike (.lit note v) := by
  refine told_of_keyKind fun c k k' r r' hkind ⟨_, hk⟩ ⟨hc, hk'⟩ hr hr' h => ?_
  cases c with
  | lit note' v' =>
      cases hk
      cases hk'
      rw [← Primitive.keyOf_plain v, ← Primitive.keyOf_plain v'] at h
      obtain ⟨hv, hrr⟩ := Primitive.keyOf_append_inj (Primitive.plain_plain v)
        (Primitive.plain_plain v') hr hr' h
      exact ⟨congrArg Term.ofValue hv, hrr⟩
  | _ => cases hkind

theorem told_external (note : Note) (m n : Text) : Told HasKey Alike (.external note m n) := by
  refine told_of_keyKind fun c k k' r r' hkind ⟨_, hk⟩ ⟨hc, hk'⟩ hr hr' h => ?_
  cases c with
  | external note' m' n' =>
      cases hk
      cases hk'
      simp only [List.append_assoc] at h
      obtain ⟨rfl, hname⟩ := Text.quoted_append_inj (List.append_cancel_left h)
      obtain ⟨rfl, hclose⟩ := Text.quoted_append_inj (List.append_cancel_left hname)
      exact ⟨rfl, List.append_cancel_left hclose⟩
  | _ => cases hkind

theorem told_var (note : Note) {n : Text} (hn : ')'.toUInt8 ∉ n) : Told HasKey Alike (.var note n) := by
  refine told_of_keyKind fun c k k' r r' hkind ⟨_, hk⟩ ⟨hc, hk'⟩ hr hr' h => ?_
  cases c with
  | var note' n' =>
      cases hk
      cases hk'
      simp only [List.append_assoc] at h
      obtain ⟨rfl, hclose⟩ := append_cons_inj hn hc (List.append_cancel_left h)
      exact ⟨rfl, hclose⟩
  | _ => cases hkind

theorem keyableAll_iff {ts : List Term} : KeyableAll ts ↔ ∀ t ∈ ts, t.Keyable := by
  induction ts with
  | nil => simp [KeyableAll]
  | cons t ts ih => rw [KeyableAll, ih, List.forall_mem_cons]

theorem keyableEntries_iff {ts : List (MapKey × Term)} :
    KeyableEntries ts ↔ ∀ e ∈ ts, e.1.Legible ∧ e.2.Keyable := by
  induction ts with
  | nil => simp [KeyableEntries]
  | cons e ts ih => rw [KeyableEntries, ih, List.forall_mem_cons, and_assoc]

theorem hasKey_of_keysOf {ts : List Term} {ks : List Text} (hts : KeyableAll ts)
    (h : keysOf ts = .ok ks) : List.Forall₂ HasKey ts ks := by
  induction ts generalizing ks with
  | nil => cases h; exact .nil
  | cons t ts ih =>
      obtain ⟨k, hk, h⟩ := except_bind_ok.mp h
      obtain ⟨ks', hks, h⟩ := except_bind_ok.mp h
      cases h
      exact .cons ⟨hts.1, hk⟩ (ih hts.2 hks)

theorem expandAll_eq_of_alike {as bs : List Term} (h : List.Forall₂ Alike as bs) :
    expandAll Names.empty (fun _ => none) as = expandAll Names.empty (fun _ => none) bs := by
  induction h with
  | nil => rfl
  | cons hab _ ih => rw [expandAll, expandAll, ih]; exact congrArg (· :: _) hab

theorem told_array (note : Note) {as : List Term} (htold : ∀ a ∈ as, Told HasKey Alike a) :
    Told HasKey Alike (.array note as) := by
  refine told_of_keyKind fun c k k' r r' hkind ⟨has, hk⟩ ⟨hc, hk'⟩ hr hr' h => ?_
  cases c with
  | array note' bs =>
      obtain ⟨ks, hks, hk⟩ := except_bind_ok.mp hk
      obtain ⟨ks', hks', hk'⟩ := except_bind_ok.mp hk'
      cases hk
      cases hk'
      simp only [List.append_assoc] at h
      obtain ⟨habs, hrr⟩ := told_join (show isDelimiter ']'.toUInt8 = true from rfl) (by decide)
        (fun hk => hk.ne_delimiter rfl) htold (hasKey_of_keysOf has hks) (hasKey_of_keysOf hc hks')
        (List.append_cancel_left h)
      exact ⟨congrArg Term.ofList (expandAll_eq_of_alike habs), hrr⟩
  | _ => cases hkind

def EntryHasKey (e : MapKey × Term) (k : Text) : Prop :=
  e.1.Legible ∧ ∃ k', e.2.HasKey k' ∧ k = e.1.keyOf ++ ':'.toUInt8 :: k'

theorem EntryHasKey.ne_close {e : MapKey × Term} {k : Text} (hk : EntryHasKey e k) (r s : Text) :
    k ++ r ≠ '\x7d'.toUInt8 :: s := by
  obtain ⟨hlegible, k', -, rfl⟩ := hk
  rw [List.append_assoc]
  exact MapKey.keyOf_ne_close hlegible _ _

def EntryAlike (a b : MapKey × Term) : Prop := a.1 = b.1 ∧ a.2.Alike b.2

theorem told_entry {a : MapKey × Term} (h : Told HasKey Alike a.2) : Told EntryHasKey EntryAlike a := by
  rintro b k k' r r' ⟨ha, k₁, hk, rfl⟩ ⟨hb, k₂, hk', rfl⟩ hr hr' htext
  rw [List.append_assoc, List.append_assoc] at htext
  obtain ⟨hkey, htext⟩ := MapKey.keyOf_append_inj ha hb htext
  obtain ⟨hab, hrr⟩ := h hk hk' hr hr' htext
  exact ⟨⟨hkey, hab⟩, hrr⟩

theorem entryHasKey_of_keysOfEntries {ts : List (MapKey × Term)} {ks : List Text}
    (hts : KeyableEntries ts) (h : keysOfEntries ts = .ok ks) : List.Forall₂ EntryHasKey ts ks := by
  induction ts generalizing ks with
  | nil => cases h; exact .nil
  | cons t ts ih =>
      obtain ⟨k, hk, h⟩ := except_bind_ok.mp h
      obtain ⟨ks', hks, h⟩ := except_bind_ok.mp h
      cases h
      exact .cons ⟨hts.1, k, ⟨hts.2.1, hk⟩, List.append_assoc _ _ _⟩ (ih hts.2.2 hks)

theorem expandEntries_eq_of_alike {as bs : List (MapKey × Term)} (h : List.Forall₂ EntryAlike as bs) :
    expandEntries Names.empty (fun _ => none) as = expandEntries Names.empty (fun _ => none) bs := by
  induction h with
  | nil => rfl
  | @cons a b _ _ hab _ ih =>
      obtain ⟨key, t⟩ := a
      obtain ⟨key', t'⟩ := b
      rw [expandEntries, expandEntries, ih]
      exact congrArg (· :: _) (Prod.ext hab.1 hab.2)

theorem told_map (note : Note) {as : List (MapKey × Term)} (htold : ∀ a ∈ as, Told HasKey Alike a.2) :
    Told HasKey Alike (.map note as) := by
  refine told_of_keyKind fun c k k' r r' hkind ⟨has, hk⟩ ⟨hc, hk'⟩ hr hr' h => ?_
  cases c with
  | map note' bs =>
      obtain ⟨ks, hks, hk⟩ := except_bind_ok.mp hk
      obtain ⟨ks', hks', hk'⟩ := except_bind_ok.mp hk'
      cases hk
      cases hk'
      simp only [List.append_assoc] at h
      obtain ⟨habs, hrr⟩ := told_join (show isDelimiter '\x7d'.toUInt8 = true from rfl) (by decide)
        EntryHasKey.ne_close (fun a ha => told_entry (htold a ha))
        (entryHasKey_of_keysOfEntries has hks) (entryHasKey_of_keysOfEntries hc hks')
        (List.append_cancel_left h)
      exact ⟨congrArg Term.ofEntries (expandEntries_eq_of_alike habs), hrr⟩
  | _ => cases hkind

mutual

/-- The key of a term tells where it ends and what is written. -/
theorem told : ∀ a : Term, a.Keyable → Told HasKey Alike a
  | .lit note v, _ => told_lit note v
  | .array note as, h => told_array note (toldAll as h)
  | .map note as, h => told_map note (toldEntries as h)
  | .external note m n, _ => told_external note m n
  | .var note _, h => told_var note h
  | .pooled _ t, h => fun hk hk' => told t h hk hk'
  | .prop .., h => h.elim
  | .key .., h => h.elim
  | .call .., h => h.elim
  | .binary .., h => h.elim
  | .not .., h => h.elim
  | .present .., h => h.elim
  | .cast .., h => h.elim
  | .cond .., h => h.elim
  | .function .., h => h.elim

theorem toldAll : ∀ as : List Term, KeyableAll as → ∀ a ∈ as, Told HasKey Alike a
  | [], _ => fun _ h => nomatch h
  | a :: as, h => List.forall_mem_cons.mpr ⟨told a h.1, toldAll as h.2⟩

theorem toldEntries : ∀ as : List (MapKey × Term), KeyableEntries as →
    ∀ a ∈ as, Told HasKey Alike a.2
  | [], _ => fun _ h => nomatch h
  | (_, a) :: as, h => List.forall_mem_cons.mpr ⟨told a h.2.1, toldEntries as h.2.2⟩

end

theorem written_eq_of_keyOf_eq {a b : Term} {k : Text} (ha : a.Keyable) (hb : b.Keyable)
    (hk : a.keyOf = .ok k) (hk' : b.keyOf = .ok k) : a.written = b.written :=
  (told a ha ⟨ha, hk⟩ ⟨hb, hk'⟩ delimited_nil delimited_nil rfl).1

end Term

end TemplateCompiler
