import Mathlib.Data.List.Nodup
import TemplateCompiler.Proofs.Template.Items

/-!
# The names in generated code

A name that the compiler makes up is a stem and a numeral. The stem tells what the name is for, and the
numeral tells it from the others of its kind, so no two names of a function are the same.

* `Text.ending` : the last two bytes of the stem, which are different for different kinds;
* `Local`, `OfBinding`, `OfTemplate` : the kinds of names;
* `Fresh Of lo hi xs` : the names `xs` are different, and made from numbers from `lo` up to `hi`.
-/

namespace TemplateCompiler

/-- The last two bytes of a name without its numeral. -/
def Text.ending (x : Text) : Text := ((x.reverse.dropWhile fun b => isDigit b.toNat).take 2).reverse

theorem Text.ending_append_ofNat (front : Text) {a b : UInt8} (hb : isDigit b.toNat = false) (n : Nat) :
    (front ++ [a, b] ++ ofNat n).ending = [a, b] := by
  have hdigits : ∀ c ∈ (ofNat n).reverse, isDigit c.toNat = true := fun c hc =>
    isDigit_of_mem_ofNat (List.mem_reverse.mp hc)
  rw [ending, List.reverse_append, List.dropWhile_append_of_pos hdigits, List.reverse_append]
  change ((([b, a] ++ front.reverse).dropWhile fun b => isDigit b.toNat).take 2).reverse = [a, b]
  rw [List.cons_append, List.dropWhile_cons_of_neg (by rw [hb]; decide)]
  rfl

namespace Names

/-! ### Kinds of names -/

/-- The variable of a reference or of a template's variable. -/
def Local (x : Text) : Prop := ∃ stem n, x = stem ++ "_r" ++ Text.ofNat n

/-- The variables of the binding with the number `k`. -/
def OfBinding (k : Nat) (x : Text) : Prop :=
  x = valueName k ∨ ∃ depth, x = TemporaryStack.nameOf (Text.ofNat k) depth

/-- The function of the template in the slot `k`. -/
def OfTemplate (k : Nat) (x : Text) : Prop := ∃ front, x = front ++ "Template_" ++ Text.ofNat k

/-- The parameter with the variables of a template. -/
def Context (x : Text) : Prop := x = contextName ∨ ∃ n, x = contextName ++ Text.ofNat n

variable {x : Text} {k k' : Nat}

theorem Local.ending (h : Local x) : x.ending = "_r" := by
  obtain ⟨stem, n, rfl⟩ := h
  exact Text.ending_append_ofNat stem (by decide) n

/-- The names of temporaries end with two numerals. -/
theorem ending_nameOf_ofNat (b depth : Nat) :
    ∃ c, Text.isDigit c.toNat = true ∧ (TemporaryStack.nameOf (Text.ofNat b) depth).ending = [c, '_'.toUInt8] := by
  obtain ⟨front, c, hfront⟩ := List.eq_nil_or_concat (Text.ofNat b) |>.resolve_left (Text.ofNat_ne_nil b)
  have hc : Text.isDigit c.toNat = true := Text.isDigit_of_mem_ofNat (n := b) (by simp [hfront])
  refine ⟨c, hc, ?_⟩
  have hname : TemporaryStack.nameOf (Text.ofNat b) depth =
      ("tmp_" ++ front : Text) ++ [c, '_'.toUInt8] ++ Text.ofNat depth := by
    rw [TemporaryStack.nameOf, hfront, List.concat_eq_append]
    simp only [List.append_assoc]
    rfl
  rw [hname]
  exact Text.ending_append_ofNat _ (by decide) depth

theorem OfBinding.ending (h : OfBinding k x) :
    x.ending = "l_" ∨ ∃ c, Text.isDigit c.toNat = true ∧ x.ending = [c, '_'.toUInt8] := by
  rcases h with rfl | ⟨depth, rfl⟩
  · exact .inl (Text.ending_append_ofNat "currVa" (by decide) k)
  · exact .inr (ending_nameOf_ofNat k depth)

theorem OfTemplate.ending (h : OfTemplate k x) : x.ending = "e_" := by
  obtain ⟨front, rfl⟩ := h
  have hfront : (front ++ "Template_" : Text) = (front ++ "Templat" : Text) ++ ("e_" : Text) := by
    rw [List.append_assoc]
    rfl
  rw [hfront]
  exact Text.ending_append_ofNat _ (by decide) k

theorem Context.ending (h : Context x) : x.ending = "tx" := by
  rcases h with rfl | ⟨n, rfl⟩
  · decide
  · exact Text.ending_append_ofNat "c" (by decide) n

/-! ### Kinds apart -/

/-- A number for each kind of names, in the order in which a function declares them. -/
def kind (x : Text) : Nat :=
  if x.ending = "rf" ∨ x.ending = "tx" then 0
  else if x.ending = "_t" then 1
  else if x.ending = "_r" then 2
  else if x.ending = "e_" then 4
  else 3

theorem Context.kind (h : Context x) : kind x = 0 := if_pos (.inr h.ending)

theorem Local.kind (h : Local x) : kind x = 2 := by
  rw [Names.kind, h.ending]
  decide

theorem OfTemplate.kind (h : OfTemplate k x) : kind x = 4 := by
  rw [Names.kind, h.ending]
  decide

theorem OfBinding.kind (h : OfBinding k x) : kind x = 3 := by
  rcases h.ending with hx | ⟨c, hc, hx⟩
  · rw [Names.kind, hx]
    decide
  · have hsecond : ∀ a b : UInt8, b ≠ '_'.toUInt8 → x.ending ≠ [a, b] := by
      intro a b hb hab
      rw [hx] at hab
      injection hab with _ htail
      injection htail with hb'
      exact hb hb'.symm
    have hfirst : x.ending ≠ "e_" := by
      intro he
      rw [hx] at he
      injection he with hce
      rw [hce] at hc
      cases hc
    rw [Names.kind, if_neg, if_neg, if_neg, if_neg hfirst]
    · exact hsecond _ 'r'.toUInt8 (by decide)
    · exact hsecond _ 't'.toUInt8 (by decide)
    · exact not_or.mpr ⟨hsecond _ 'f'.toUInt8 (by decide), hsecond _ 'x'.toUInt8 (by decide)⟩

/-- Names of later kinds are other names. -/
theorem nodup_append {xs ys : List Text} (n : Nat) (hxs : xs.Nodup) (hys : ys.Nodup)
    (hx : ∀ x ∈ xs, kind x ≤ n) (hy : ∀ y ∈ ys, n < kind y) : (xs ++ ys).Nodup := by
  refine List.nodup_append.mpr ⟨hxs, hys, fun x hxmem y hymem hxy => ?_⟩
  have hle := hx x hxmem
  have hlt := hy y hymem
  rw [hxy] at hle
  omega

/-! ### Numbers -/

theorem endsOpen_append_underscore (stem : Text) : Text.EndsOpen (stem ++ "_") := by
  intro b hb
  rw [List.getLast?_append_of_ne_nil _ (by decide)] at hb
  cases hb
  decide

theorem nameOf_inj {b b' : Nat} {n n' : Nat}
    (h : TemporaryStack.nameOf (Text.ofNat b) n = TemporaryStack.nameOf (Text.ofNat b') n') :
    b = b' ∧ n = n' := by
  obtain ⟨hstem, hn⟩ := Text.append_ofNat_inj (endsOpen_append_underscore _)
    (endsOpen_append_underscore _) h
  exact ⟨Text.ofNat_inj (List.append_cancel_left (List.append_cancel_right hstem)), hn⟩

theorem OfBinding.inj (h : OfBinding k x) (h' : OfBinding k' x) : k = k' := by
  rcases h with rfl | ⟨n, rfl⟩ <;> rcases h' with h' | ⟨n', h'⟩
  · exact (Text.append_ofNat_inj (t := "currVal_") (u := "currVal_")
      (endsOpen_append_underscore "currVal") (endsOpen_append_underscore "currVal") h').2
  · cases h'
  · cases h'
  · exact (nameOf_inj h').1

theorem OfTemplate.inj (h : OfTemplate k x) (h' : OfTemplate k' x) : k = k' := by
  have hopen : ∀ front : Text, Text.EndsOpen (front ++ "Template_") := fun front => by
    have := endsOpen_append_underscore (front ++ "Template")
    rwa [List.append_assoc] at this
  obtain ⟨front, rfl⟩ := h
  obtain ⟨front', h'⟩ := h'
  exact (Text.append_ofNat_inj (hopen front) (hopen front') h').2

/-! ### Fresh names -/

/-- Different names, made from numbers from `lo` up to `hi`. -/
structure Fresh (Of : Nat → Text → Prop) (lo hi : Nat) (xs : List Text) : Prop where
  nodup : xs.Nodup
  made : ∀ x ∈ xs, ∃ k, lo ≤ k ∧ k < hi ∧ Of k x

namespace Fresh

variable {Of : Nat → Text → Prop} {lo mid hi : Nat} {xs ys : List Text}

theorem nil (lo hi : Nat) : Fresh Of lo hi [] := ⟨List.nodup_nil, List.forall_mem_nil _⟩

theorem append (hinj : ∀ {k k' x}, Of k x → Of k' x → k = k') (h : Fresh Of lo mid xs)
    (h' : Fresh Of mid hi ys) (hlo : lo ≤ mid) (hhi : mid ≤ hi) : Fresh Of lo hi (xs ++ ys) := by
  refine ⟨List.nodup_append.mpr ⟨h.nodup, h'.nodup, fun x hx y hy hxy => ?_⟩, fun x hx => ?_⟩
  · obtain ⟨k, -, hk, hof⟩ := h.made x hx
    obtain ⟨k', hk', -, hof'⟩ := h'.made y hy
    have := hinj hof (hxy ▸ hof')
    omega
  · rcases List.mem_append.mp hx with hx | hx
    · obtain ⟨k, hlo', hhi', hof⟩ := h.made x hx
      exact ⟨k, hlo', by omega, hof⟩
    · obtain ⟨k, hlo', hhi', hof⟩ := h'.made x hx
      exact ⟨k, by omega, hhi', hof⟩

end Fresh

end Names

end TemplateCompiler
