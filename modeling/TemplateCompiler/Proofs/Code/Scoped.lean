import TemplateCompiler.Code.Basic

/-!
# Scoped code

`t.Scoped names given now later` says that every variable `t` reads is bound. Two sets of names are kept
apart: those that are bound where `t` stands (`now`), and those that will be bound once the statements
around it have run (`later`). A function is called after these, so its body sees the second set.

* a constant or variable is bound from the statement after its declaration to the end of its block;
* a function is bound in all of its block;
* a pooled literal reads the constant that `names` has for it, which must exist;
* `given f t` says that `t` was handed to the compiler, as an argument for `f`. What it reads is not
  looked at.

`Stmt.WellScoped` is the same for the statements of a whole module. There only constants are bound, each
after its declaration.
-/

namespace TemplateCompiler

def Stmt.variable? : Stmt → Option Text
  | .declare _ _ name _ => some name
  | _ => none

def Stmt.function? : Stmt → Option Text
  | .function _ _ name _ _ => some name
  | _ => none

def Stmt.variablesIn (ss : List Stmt) : List Text := ss.filterMap Stmt.variable?

def Stmt.functionsIn (ss : List Stmt) : List Text := ss.filterMap Stmt.function?

mutual

/-- The names that a statement declares in the function it belongs to. -/
def Stmt.declared : Stmt → List Text
  | .declare _ _ name _ | .function _ _ name _ _ => [name]
  | .expr .. | .ret .. => []
  | .branch _ _ yes no => Stmt.declaredAll yes ++ Stmt.declaredAll no

/-- The names that statements declare, also those in blocks. -/
def Stmt.declaredAll : List Stmt → List Text
  | [] => []
  | s :: ss => s.declared ++ Stmt.declaredAll ss

end

theorem Stmt.declaredAll_append (ss ss' : List Stmt) :
    Stmt.declaredAll (ss ++ ss') = Stmt.declaredAll ss ++ Stmt.declaredAll ss' := by
  induction ss with
  | nil => rfl
  | cons s ss ih => rw [List.cons_append, Stmt.declaredAll, Stmt.declaredAll, ih, List.append_assoc]

section Definitions

variable (names : Names) (given : Term → Term → Prop)

mutual

/-- Every variable of a term is bound. -/
def Term.Scoped (now later : Text → Prop) : Term → Prop
  | .var _ x => now x
  | .lit .. | .external .. => True
  | .array _ ts => Term.ScopedAll (fun _ => False) now later ts
  | .map _ es => Term.ScopedEntries now later es
  | .prop _ t _ | .not _ t | .present _ t | .cast _ t => t.Scoped now later
  | .key _ t u | .binary _ _ t u | .cond _ t u none => t.Scoped now later ∧ u.Scoped now later
  | .call _ f args _ => f.Scoped now later ∧ Term.ScopedAll (given f) now later args
  | .cond _ c t (some u) => c.Scoped now later ∧ t.Scoped now later ∧ u.Scoped now later
  | .function _ params body _ =>
    (params ++ Stmt.declaredAll body).Nodup ∧
      Stmt.ScopedAll (fun x => x ∈ Stmt.functionsIn body ∨ x ∈ params ∨ later x)
        (fun x => x ∈ Stmt.functionsIn body ∨ x ∈ Stmt.variablesIn body ∨ x ∈ params ∨ later x) body
  | .pooled key _ => ∃ n, names key = some n ∧ now n

/-- Every variable of some terms is bound, but for those of `exempt` terms. -/
def Term.ScopedAll (exempt : Term → Prop) (now later : Text → Prop) : List Term → Prop
  | [] => True
  | t :: ts => (exempt t ∨ t.Scoped now later) ∧ Term.ScopedAll exempt now later ts

/-- Every variable in the values of a map is bound. -/
def Term.ScopedEntries (now later : Text → Prop) : List (MapKey × Term) → Prop
  | [] => True
  | (_, t) :: es => t.Scoped now later ∧ Term.ScopedEntries now later es

/-- Every variable of a statement is bound. -/
def Stmt.Scoped (now later : Text → Prop) : Stmt → Prop
  | .declare _ _ _ none => True
  | .declare _ _ _ (some t) | .expr _ t | .ret _ t => t.Scoped now later
  | .function _ _ _ params body =>
    (params ++ Stmt.declaredAll body).Nodup ∧
      Stmt.ScopedAll (fun x => x ∈ Stmt.functionsIn body ∨ x ∈ params ∨ later x)
        (fun x => x ∈ Stmt.functionsIn body ∨ x ∈ Stmt.variablesIn body ∨ x ∈ params ∨ later x) body
  | .branch _ c yes no =>
    c.Scoped now later ∧
      Stmt.ScopedAll (fun x => x ∈ Stmt.functionsIn yes ∨ now x)
        (fun x => x ∈ Stmt.functionsIn yes ∨ x ∈ Stmt.variablesIn yes ∨ later x) yes ∧
      Stmt.ScopedAll (fun x => x ∈ Stmt.functionsIn no ∨ now x)
        (fun x => x ∈ Stmt.functionsIn no ∨ x ∈ Stmt.variablesIn no ∨ later x) no

/-- Every variable of statements is bound, given that the functions among them are. -/
def Stmt.ScopedAll (now later : Text → Prop) : List Stmt → Prop
  | [] => True
  | s :: ss =>
    s.Scoped now later ∧ Stmt.ScopedAll (fun x => s.variable? = some x ∨ now x) later ss

end

/-- Every variable of a block is bound. -/
def Stmt.ScopedBlock (now later : Text → Prop) (ss : List Stmt) : Prop :=
  Stmt.ScopedAll names given (fun x => x ∈ Stmt.functionsIn ss ∨ now x)
    (fun x => x ∈ Stmt.functionsIn ss ∨ x ∈ Stmt.variablesIn ss ∨ later x) ss

/-- Every variable of a function is bound, and the function declares no name twice. -/
def Stmt.ScopedFunction (later : Text → Prop) (params : List Text) (body : List Stmt) : Prop :=
  (params ++ Stmt.declaredAll body).Nodup ∧
    Stmt.ScopedBlock names given (fun x => x ∈ params ∨ later x) (fun x => x ∈ params ∨ later x) body

def IsConstantName (x : Text) : Prop := ∃ n : Nat, x = "_c" ++ Text.ofNat n

/-- Every variable of the statements of a module is bound, if those of `earlier` are. -/
def Stmt.WellScoped (earlier : Text → Prop) : List Stmt → Prop
  | [] => True
  | s :: ss =>
    (∀ x, s.variable? = some x → IsConstantName x) ∧ s.Scoped names given earlier earlier ∧
      Stmt.WellScoped (fun x => s.variable? = some x ∨ earlier x) ss

end Definitions

/-- All constants of some names are constants of others. -/
def Names.le (names names' : Names) : Prop := ∀ key n, names key = some n → names' key = some n

theorem Names.le_refl (names : Names) : names.le names := fun _ _ h => h

theorem Names.le_trans {a b c : Names} (h : a.le b) (h' : b.le c) : a.le c :=
  fun key n hn => h' key n (h key n hn)

section Lemmas

variable {names names' : Names} {given given' : Term → Term → Prop} {now now' later later' : Text → Prop}

theorem Term.scopedAll_iff {exempt : Term → Prop} {ts : List Term} :
    Term.ScopedAll names given exempt now later ts ↔
      ∀ t ∈ ts, exempt t ∨ t.Scoped names given now later := by
  induction ts with
  | nil => simp [Term.ScopedAll]
  | cons t ts ih => simp [Term.ScopedAll, ih]

theorem Term.scopedEntries_iff {es : List (MapKey × Term)} :
    Term.ScopedEntries names given now later es ↔
      ∀ e ∈ es, e.2.Scoped names given now later := by
  induction es with
  | nil => simp [Term.ScopedEntries]
  | cons e es ih => simp [Term.ScopedEntries, ih]

/-! ### More names -/

mutual

/-- Scoped code stays scoped where more is bound. -/
theorem Term.Scoped.mono (hnames : names.le names')
    (hgiven : ∀ f t, given f t → given' f t) {now now' later later' : Text → Prop}
    (hnow : ∀ x, now x → now' x) (hlater : ∀ x, later x → later' x) :
    ∀ {t : Term}, t.Scoped names given now later → t.Scoped names' given' now' later'
  | .var _ x, h => hnow x h
  | .lit .., _ | .external .., _ => trivial
  | .array .., h => Term.ScopedAll.mono (fun _ => id) hnames hgiven hnow hlater h
  | .map .., h => Term.ScopedEntries.mono hnames hgiven hnow hlater h
  | .prop _ t _, h | .not _ t, h | .present _ t, h | .cast _ t, h =>
    Term.Scoped.mono (t := t) hnames hgiven hnow hlater h
  | .key .., h | .binary .., h | .cond _ _ _ none, h =>
    ⟨Term.Scoped.mono hnames hgiven hnow hlater h.1, Term.Scoped.mono hnames hgiven hnow hlater h.2⟩
  | .call .., h => ⟨Term.Scoped.mono hnames hgiven hnow hlater h.1,
      Term.ScopedAll.mono (hgiven _) hnames hgiven hnow hlater h.2⟩
  | .cond _ _ _ (some _), h =>
    ⟨Term.Scoped.mono hnames hgiven hnow hlater h.1, Term.Scoped.mono hnames hgiven hnow hlater h.2.1,
      Term.Scoped.mono hnames hgiven hnow hlater h.2.2⟩
  | .function .., h =>
    ⟨h.1, Stmt.ScopedAll.mono hnames hgiven (fun _ => Or.imp_right (Or.imp_right (hlater _)))
      (fun _ => Or.imp_right (Or.imp_right (Or.imp_right (hlater _)))) h.2⟩
  | .pooled .., ⟨n, hn, h⟩ => ⟨n, hnames _ n hn, hnow n h⟩

theorem Term.ScopedAll.mono {exempt exempt' : Term → Prop} (hexempt : ∀ t, exempt t → exempt' t)
    (hnames : names.le names') (hgiven : ∀ f t, given f t → given' f t)
    {now now' later later' : Text → Prop} (hnow : ∀ x, now x → now' x)
    (hlater : ∀ x, later x → later' x) : ∀ {ts : List Term},
    Term.ScopedAll names given exempt now later ts → Term.ScopedAll names' given' exempt' now' later' ts
  | [], _ => trivial
  | _ :: _, h => ⟨h.1.imp (hexempt _) (Term.Scoped.mono hnames hgiven hnow hlater),
      Term.ScopedAll.mono hexempt hnames hgiven hnow hlater h.2⟩

theorem Term.ScopedEntries.mono (hnames : names.le names')
    (hgiven : ∀ f t, given f t → given' f t) {now now' later later' : Text → Prop}
    (hnow : ∀ x, now x → now' x) (hlater : ∀ x, later x → later' x) :
    ∀ {es : List (MapKey × Term)}, Term.ScopedEntries names given now later es →
      Term.ScopedEntries names' given' now' later' es
  | [], _ => trivial
  | (_, _) :: _, h =>
    ⟨Term.Scoped.mono hnames hgiven hnow hlater h.1,
      Term.ScopedEntries.mono hnames hgiven hnow hlater h.2⟩

theorem Stmt.Scoped.mono (hnames : names.le names')
    (hgiven : ∀ f t, given f t → given' f t) {now now' later later' : Text → Prop}
    (hnow : ∀ x, now x → now' x) (hlater : ∀ x, later x → later' x) :
    ∀ {s : Stmt}, s.Scoped names given now later → s.Scoped names' given' now' later'
  | .declare _ _ _ none, _ => trivial
  | .declare _ _ _ (some _), h | .expr .., h | .ret .., h => Term.Scoped.mono hnames hgiven hnow hlater h
  | .function .., h =>
    ⟨h.1, Stmt.ScopedAll.mono hnames hgiven (fun _ => Or.imp_right (Or.imp_right (hlater _)))
      (fun _ => Or.imp_right (Or.imp_right (Or.imp_right (hlater _)))) h.2⟩
  | .branch .., h =>
    ⟨Term.Scoped.mono hnames hgiven hnow hlater h.1,
      Stmt.ScopedAll.mono hnames hgiven (fun _ => Or.imp_right (hnow _))
        (fun _ => Or.imp_right (Or.imp_right (hlater _))) h.2.1,
      Stmt.ScopedAll.mono hnames hgiven (fun _ => Or.imp_right (hnow _))
        (fun _ => Or.imp_right (Or.imp_right (hlater _))) h.2.2⟩

theorem Stmt.ScopedAll.mono (hnames : names.le names')
    (hgiven : ∀ f t, given f t → given' f t) {now now' later later' : Text → Prop}
    (hnow : ∀ x, now x → now' x) (hlater : ∀ x, later x → later' x) :
    ∀ {ss : List Stmt}, Stmt.ScopedAll names given now later ss →
      Stmt.ScopedAll names' given' now' later' ss
  | [], _ => trivial
  | _ :: _, h => ⟨Stmt.Scoped.mono hnames hgiven hnow hlater h.1,
      Stmt.ScopedAll.mono hnames hgiven (fun _ => Or.imp_right (hnow _)) hlater h.2⟩

end

/-! ### Statements one after the other -/

theorem Stmt.mem_variablesIn_cons {s : Stmt} {ss : List Stmt} {x : Text} :
    x ∈ Stmt.variablesIn (s :: ss) ↔ s.variable? = some x ∨ x ∈ Stmt.variablesIn ss := by
  simp only [Stmt.variablesIn, List.mem_filterMap, List.mem_cons, exists_eq_or_imp]

theorem Stmt.mem_variablesIn_append {ss ss' : List Stmt} {x : Text} :
    x ∈ Stmt.variablesIn (ss ++ ss') ↔ x ∈ Stmt.variablesIn ss ∨ x ∈ Stmt.variablesIn ss' := by
  rw [Stmt.variablesIn, List.filterMap_append, List.mem_append]
  rfl

/-- Statements see the variables of those before them. -/
theorem Stmt.scopedAll_append {now later : Text → Prop} {ss ss' : List Stmt} :
    Stmt.ScopedAll names given now later (ss ++ ss') ↔
      Stmt.ScopedAll names given now later ss ∧
        Stmt.ScopedAll names given (fun x => x ∈ Stmt.variablesIn ss ∨ now x) later ss' := by
  induction ss generalizing now with
  | nil => simp [Stmt.ScopedAll, Stmt.variablesIn]
  | cons s ss ih =>
      have hnow : (fun x => x ∈ Stmt.variablesIn (s :: ss) ∨ now x) =
          fun x => x ∈ Stmt.variablesIn ss ∨ s.variable? = some x ∨ now x := by
        funext x
        rw [Stmt.mem_variablesIn_cons, or_assoc, or_left_comm]
      rw [List.cons_append, Stmt.ScopedAll, Stmt.ScopedAll, ih, hnow, and_assoc]

/-- Statements that declare nothing are scoped if each of them is. -/
theorem Stmt.scopedAll_of_forall {ss : List Stmt}
    (h : ∀ s ∈ ss, s.Scoped names given now later) : Stmt.ScopedAll names given now later ss := by
  induction ss generalizing now with
  | nil => trivial
  | cons s ss ih =>
      refine ⟨h s List.mem_cons_self, ih fun s' hs' => ?_⟩
      exact (h s' (List.mem_cons_of_mem s hs')).mono (Names.le_refl names) (fun _ _ => id)
        (fun _ => Or.inr) fun _ => id

theorem Stmt.WellScoped.mono {earlier earlier' : Text → Prop} (hnames : names.le names')
    (hgiven : ∀ f t, given f t → given' f t) (hearlier : ∀ x, earlier x → earlier' x) {ss : List Stmt}
    (h : Stmt.WellScoped names given earlier ss) : Stmt.WellScoped names' given' earlier' ss := by
  induction ss generalizing earlier earlier' with
  | nil => trivial
  | cons s ss ih =>
      exact ⟨h.1, h.2.1.mono hnames hgiven hearlier hearlier,
        ih (fun x => Or.imp_right (hearlier x)) h.2.2⟩

theorem Stmt.wellScoped_append {earlier : Text → Prop} {ss ss' : List Stmt} :
    Stmt.WellScoped names given earlier (ss ++ ss') ↔
      Stmt.WellScoped names given earlier ss ∧
        Stmt.WellScoped names given (fun x => x ∈ Stmt.variablesIn ss ∨ earlier x) ss' := by
  induction ss generalizing earlier with
  | nil => simp [Stmt.WellScoped, Stmt.variablesIn]
  | cons s ss ih =>
      have hearlier : (fun x => x ∈ Stmt.variablesIn (s :: ss) ∨ earlier x) =
          fun x => x ∈ Stmt.variablesIn ss ∨ s.variable? = some x ∨ earlier x := by
        funext x
        rw [Stmt.mem_variablesIn_cons, or_assoc, or_left_comm]
      rw [List.cons_append, Stmt.WellScoped, Stmt.WellScoped, ih, hearlier, and_assoc, and_assoc]

/-! ### Terms that lowering makes -/

theorem Term.scoped_ofList {ts : List Term} :
    (Term.ofList ts).Scoped names given now later ↔ ∀ t ∈ ts, t.Scoped names given now later := by
  rw [Term.ofList, Term.Scoped, Term.scopedAll_iff]
  simp only [false_or]

theorem Term.scoped_ofEntries_zip {keys : List MapKey} {ts : List Term}
    (h : ∀ t ∈ ts, t.Scoped names given now later) :
    (Term.ofEntries (keys.zip ts)).Scoped names given now later := by
  rw [Term.ofEntries, Term.Scoped, Term.scopedEntries_iff]
  exact fun e he => h e.2 (List.of_mem_zip he).2

theorem Term.scoped_apply {f : Term} {args : List Term} {span : Option SourceSpan}
    (hf : f.Scoped names given now later) (hargs : ∀ t ∈ args, t.Scoped names given now later) :
    (Term.apply f args span).Scoped names given now later :=
  ⟨hf, Term.scopedAll_iff.mpr fun t ht => .inr (hargs t ht)⟩

end Lemmas

end TemplateCompiler
