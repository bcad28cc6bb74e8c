import TemplateCompiler.Proofs.Expr.Convertible
import TemplateCompiler.Proofs.Expr.Receivers
import TemplateCompiler.Proofs.Expr.RoundTrip

/-!
# The targets of assignments

An assignment behind a safe member is refused: `a?.b = c` is no expression. Only the lexeme behind the name
of the member is looked at, and the target goes on behind the guard in `a?.b.c = d`.

* `Expr.HasSafeTarget` : a node that assigns to something reached through a safe access;
* `Tidy ls` : no lexemes `?.`, a name and `=` in a row;
* `Reaches ls` : at least three lexemes between some `?.` and an `=` behind it;
* `Derives.targets` : lexemes that can be read are tidy, and a safe target needs lexemes that reach;
* `assignment_targets` : what this means for the texts of handlers. A safe member is refused as a target,
  and any other member of an expression with safe accesses is taken.
-/

namespace TemplateCompiler

/-- What a node assigns a member or an element of. -/
def Expr.assigned? : Expr → Option Expr
  | write _ r _ _ => some r
  | indexWrite _ o _ _ => some o
  | _ => none

/-- A node that assigns to something reached through a safe access. -/
def Expr.HasSafeTarget (e : Expr) : Prop := ∃ r, e.assigned? = some r ∧ r.safeReceivers ≠ []

namespace Grammar

open TemplateCompiler.Parser (mark)

/-! ### Lexemes in a row -/

/-- No safe member is assigned, and nothing can be done to this by what is around. -/
structure Tidy (ls : List Lexeme) : Prop where
  apart : ∀ w, ¬[.operator "?.", w, .operator "="] <:+: ls
  first : ls.head? ≠ some (.operator "=")
  last : ls.getLast? ≠ some (.operator "?.")

/-- An equals sign stands behind a safe access, with at least three lexemes between. -/
def Reaches (ls : List Lexeme) : Prop :=
  ∃ mid, 3 ≤ mid.length ∧ .operator "?." :: mid ++ [.operator "="] <:+: ls

section Rows

variable {ls us vs : List Lexeme} {w : Lexeme}

theorem Reaches.mono (h : Reaches ls) (hus : ls <:+: us) : Reaches us := by
  obtain ⟨mid, hmid, hls⟩ := h
  exact ⟨mid, hmid, hls.trans hus⟩

theorem Tidy.nil : Tidy [] := by
  refine ⟨fun w h => ?_, fun h => (by cases h), fun h => (by cases h)⟩
  cases List.infix_nil.mp h

theorem Tidy.append (h : Tidy ls) (h' : Tidy us) : Tidy (ls ++ us) := by
  refine ⟨?_, ?_, ?_⟩
  · rintro w ⟨before, after, heq⟩
    -- the three lexemes are on one side, or the seam is behind the first or the second of them
    rcases List.append_eq_append_iff.mp heq with ⟨m, hls, -⟩ | ⟨m, hbefore, hus⟩
    · exact h.apart w ⟨before, m, hls.symm⟩
    · rcases List.append_eq_append_iff.mp hbefore with ⟨m', hls, hthree⟩ | ⟨m', -, hm⟩
      · match m' with
        | [] => exact h'.apart w ⟨[], after, by rw [hus, ← List.nil_append m, ← hthree, List.nil_append]⟩
        | [a] =>
            simp only [List.cons_append, List.cons.injEq] at hthree
            exact h.last (by rw [hls, ← hthree.1, List.getLast?_concat])
        | [a, b] =>
            simp only [List.cons_append, List.nil_append, List.cons.injEq] at hthree
            exact h'.first (by rw [hus, ← hthree.2.2, List.head?_append, List.head?_cons, Option.some_or])
        | a :: b :: c :: rest =>
            simp only [List.cons_append, List.cons.injEq] at hthree
            obtain ⟨ha, hb, hc, -⟩ := hthree
            exact h.apart w ⟨before, rest, by rw [hls, ← ha, ← hb, ← hc, List.append_assoc]; rfl⟩
      · exact h'.apart w ⟨m', after, by rw [hus, hm]⟩
  · rw [List.head?_append]
    cases hls : ls.head? with
    | none => exact h'.first
    | some w => exact fun heq => h.first (hls.trans heq)
  · rw [List.getLast?_append]
    cases hus : us.getLast? with
    | none => exact h.last
    | some w => exact fun heq => h'.last (hus.trans heq)

theorem Tidy.single (hsafe : w ≠ .operator "?.") (hequals : w ≠ .operator "=") : Tidy [w] := by
  refine ⟨fun w' h => ?_, fun h => hequals (Option.some.inj h), fun h => hsafe (Option.some.inj h)⟩
  have hlength := h.length_le
  simp at hlength

theorem Tidy.cons (hsafe : w ≠ .operator "?.") (hequals : w ≠ .operator "=") (h : Tidy ls) :
    Tidy (w :: ls) :=
  (Tidy.single hsafe hequals).append h

theorem Tidy.assigned (hsafe : w ≠ .operator "?.") (hequals : w ≠ .operator "=") (h : Tidy ls) :
    Tidy (w :: .operator "=" :: ls) := by
  refine ⟨?_, fun hhead => hequals (Option.some.inj hhead), ?_⟩
  · intro w' hinfix
    rcases List.infix_cons_iff.mp hinfix with hprefix | hinfix
    · exact hsafe (List.cons_prefix_cons.mp hprefix).1.symm
    · rcases List.infix_cons_iff.mp hinfix with hprefix | hinfix
      · cases (List.cons_prefix_cons.mp hprefix).1
      · exact h.apart w' hinfix
  · cases ls with
    | nil => exact fun hlast => (by cases hlast)
    | cons w' ls => exact h.last

theorem Tidy.safe (h : Tidy (w :: ls)) (hls : ls.head? ≠ some (.operator "=")) :
    Tidy (.operator "?." :: w :: ls) := by
  refine ⟨?_, fun hhead => (by cases hhead), h.last⟩
  intro w' hinfix
  rcases List.infix_cons_iff.mp hinfix with hprefix | hinfix
  · obtain ⟨-, hprefix⟩ := List.cons_prefix_cons.mp hprefix
    obtain ⟨-, rest, heq⟩ := List.cons_prefix_cons.mp hprefix
    exact hls (by rw [← heq]; rfl)
  · exact h.apart w' hinfix

end Rows

/-! ### Derivations -/

/-- Lexemes that are tidy, and an expression whose safe targets need lexemes that reach. -/
structure Targets (ls : List Lexeme) (e : Expr) : Prop where
  tidy : Tidy ls
  nodes : e.Every fun n => n.HasSafeTarget → Reaches ls
  /-- A safe access has its lexeme and a name behind it. -/
  safe : e.safeReceivers ≠ [] → ∃ mid, mid ≠ [] ∧ .operator "?." :: mid <:+ ls

/-- The same for expressions with a separator before each. The first separator can be left out. -/
structure TargetsAll (ls : List Lexeme) (es : List Expr) : Prop where
  tidy : Tidy ls
  tail : Tidy ls.tail
  nodes : Expr.EveryAll (fun n => n.HasSafeTarget → Reaches ls.tail) es

section Targets

variable {ls us : List Lexeme} {e : Expr} {es : List Expr} {w : Lexeme}

theorem every_mono (h : e.Every fun n => n.HasSafeTarget → Reaches ls) (hus : ls <:+: us) :
    e.Every fun n => n.HasSafeTarget → Reaches us :=
  h.imp₂ (fun _ hn _ htarget => (hn htarget).mono hus) h

theorem everyAll_mono (h : Expr.EveryAll (fun n => n.HasSafeTarget → Reaches ls) es) (hus : ls <:+: us) :
    Expr.EveryAll (fun n => n.HasSafeTarget → Reaches us) es :=
  h.imp₂ (fun _ hn _ htarget => (hn htarget).mono hus) h

/-- A node that assigns nothing has no target. -/
theorem not_hasSafeTarget (h : e.assigned? = none) {P : Prop} : e.HasSafeTarget → P := by
  rintro ⟨r, hr, -⟩
  rw [h] at hr
  cases hr

theorem not_operator_of_name? {x : Text} (h : w.name? = some x) (o : Text) : w ≠ .operator o := by
  rintro rfl
  cases h

theorem tidy_name {x : Text} (h : w.name? = some x) : Tidy [w] :=
  .single (not_operator_of_name? h _) (not_operator_of_name? h _)

theorem tidy_mark (c : Char) (h : Tidy ls) : Tidy (mark c :: ls) :=
  h.cons (fun heq => by cases heq) (fun heq => by cases heq)

theorem tidy_operator {l : Level} {o : Text} (ho : o ∈ l.operators) (h : Tidy ls) :
    Tidy (.operator o :: ls) := by
  have hall : ∀ o ∈ l.operators, o ≠ "?." ∧ o ≠ "=" := by cases l <;> decide
  obtain ⟨hsafe, hequals⟩ := hall o ho
  exact h.cons (fun heq => hsafe (Lexeme.operator.inj heq)) (fun heq => hequals (Lexeme.operator.inj heq))

/-- An expression that no receiver stands behind. -/
theorem safe_of_eq_nil {P : Prop} (h : e.safeReceivers = []) : e.safeReceivers ≠ [] → P :=
  fun hne => absurd h hne

theorem suffix_append {pre mid : List Lexeme} (h : .operator "?." :: mid <:+ pre) (us : List Lexeme) :
    .operator "?." :: (mid ++ us) <:+ pre ++ us := by
  obtain ⟨before, rfl⟩ := h
  exact ⟨before, by simp⟩

end Targets

/-- A member `us` behind the lexemes `pre`, which end with the point. -/
structure MemberTargets (safe : Bool) (pre us : List Lexeme) (e : Expr) : Prop where
  tidy : Tidy us
  behind : safe = true → Tidy (.operator "?." :: us)
  nodes : e.Every fun n => n.HasSafeTarget → Reaches (pre ++ us)
  safe : e.safeReceivers ≠ [] → ∃ mid, mid ≠ [] ∧ .operator "?." :: mid <:+ pre ++ us

mutual

theorem Derives.targets {action : Bool} : ∀ {l : Level} {ls : List Lexeme} {e : Expr},
    Derives action l ls e → Targets ls e
  | _, _, _, .tighter _ h => h.targets
  | _, _, _, @Derives.pipe _ ls us w _ _ _ _ _ h hname hargs => by
      obtain ⟨htidy, hnodes⟩ := h.targets
      obtain ⟨htidy', -, hnodes'⟩ := hargs.targets (tidy_mark ':' .nil)
      refine ⟨htidy.append (((tidy_name hname).append htidy').cons (by decide) (by decide)), ⟨?_, ?_, ?_⟩, ?_⟩
      · exact not_hasSafeTarget rfl
      · exact every_mono hnodes ⟨[], .operator "|" :: w :: us, by simp⟩
      · refine everyAll_mono hnodes' ((List.tail_suffix us).isInfix.trans ?_)
        exact ⟨ls ++ [.operator "|", w], [], by simp⟩
      · exact safe_of_eq_nil rfl
  | _, _, _, @Derives.conditional _ ls us vs _ _ _ _ hc hy hn => by
      refine ⟨?_, ⟨?_, ?_, ?_, ?_⟩, ?_⟩
      · exact (hc.targets.tidy.append (hy.targets.tidy.cons (by decide) (by decide))).append
          (tidy_mark ':' hn.targets.tidy)
      · exact not_hasSafeTarget rfl
      · exact every_mono hc.targets.nodes ⟨[], .operator "?" :: us ++ mark ':' :: vs, by simp⟩
      · exact every_mono hy.targets.nodes ⟨ls ++ [.operator "?"], mark ':' :: vs, by simp⟩
      · exact every_mono hn.targets.nodes ⟨ls ++ .operator "?" :: us ++ [mark ':'], [], by simp⟩
      · exact safe_of_eq_nil rfl
  | _, _, _, @Derives.binary _ _ _ o ls us _ _ _ _ ho hx hy => by
      refine ⟨hx.targets.tidy.append (tidy_operator ho hy.targets.tidy), ⟨?_, ?_, ?_⟩, ?_⟩
      · exact not_hasSafeTarget rfl
      · exact every_mono hx.targets.nodes ⟨[], .operator o :: us, by simp⟩
      · exact every_mono hy.targets.nodes ⟨ls ++ [.operator o], [], by simp⟩
      · exact safe_of_eq_nil rfl
  | _, _, _, .plus _ _ h =>
      ⟨h.targets.tidy.cons (by decide) (by decide),
        ⟨not_hasSafeTarget rfl, every_mono h.targets.nodes ⟨[.operator "+"], [], by simp⟩,
          not_hasSafeTarget rfl⟩, safe_of_eq_nil rfl⟩
  | _, _, _, .minus _ _ h =>
      ⟨h.targets.tidy.cons (by decide) (by decide),
        ⟨not_hasSafeTarget rfl, not_hasSafeTarget rfl,
          every_mono h.targets.nodes ⟨[.operator "-"], [], by simp⟩⟩, safe_of_eq_nil rfl⟩
  | _, _, _, .not _ h =>
      ⟨h.targets.tidy.cons (by decide) (by decide),
        ⟨not_hasSafeTarget rfl, every_mono h.targets.nodes ⟨[.operator "!"], [], by simp⟩⟩,
        safe_of_eq_nil rfl⟩
  | _, _, _, @Derives.member _ ls us _ _ h hm => by
      obtain ⟨htidy, hnodes, hsafe⟩ := h.targets
      have hsplit : ls ++ mark '.' :: us = (ls ++ [mark '.']) ++ us := by simp
      have hmember := hm.targets (ls ++ [mark '.']) ?_ (fun _ hne => ?_) (fun h => absurd h Bool.false_ne_true)
      · exact ⟨htidy.append (tidy_mark '.' hmember.tidy), hsplit ▸ hmember.nodes, hsplit ▸ hmember.safe⟩
      · exact every_mono hnodes ⟨[], mark '.' :: us, by simp⟩
      · obtain ⟨mid, hmid, hsuffix⟩ := hsafe hne
        refine ⟨mid ++ [mark '.'], ?_, suffix_append hsuffix _⟩
        have hpos := List.length_pos_iff.mpr hmid
        simp
        omega
  | _, _, _, @Derives.safeMember _ ls us _ _ h hm => by
      obtain ⟨htidy, hnodes, -⟩ := h.targets
      have hsplit : ls ++ .operator "?." :: us = (ls ++ [.operator "?."]) ++ us := by simp
      have hmember := hm.targets (ls ++ [.operator "?."]) ?_ (fun h => nomatch h)
        (fun _ => List.suffix_append _ _)
      · exact ⟨htidy.append (hmember.behind rfl), hsplit ▸ hmember.nodes, hsplit ▸ hmember.safe⟩
      · exact every_mono hnodes ⟨[], .operator "?." :: us, by simp⟩
  | _, _, _, @Derives.index _ ls us _ _ _ ho hk => by
      obtain ⟨htidy, hnodes, hsafe⟩ := ho.targets
      refine ⟨?_, ⟨?_, ?_, ?_⟩, fun hne => ?_⟩
      · exact (htidy.append (tidy_mark '[' hk.targets.tidy)).append (tidy_mark ']' .nil)
      · exact not_hasSafeTarget rfl
      · exact every_mono hnodes ⟨[], mark '[' :: us ++ [mark ']'], by simp⟩
      · exact every_mono hk.targets.nodes ⟨ls ++ [mark '['], [mark ']'], by simp⟩
      · obtain ⟨mid, hmid, hsuffix⟩ := hsafe hne
        refine ⟨mid ++ (mark '[' :: us ++ [mark ']']), ?_, ?_⟩
        · exact fun h => hmid (List.append_eq_nil_iff.mp h).1
        · rw [List.append_assoc]
          exact suffix_append hsuffix _
  | _, _, _, @Derives.indexWrite _ ls us vs _ _ _ _ _ ho hk hv => by
      obtain ⟨htidy, hnodes, hsafe⟩ := ho.targets
      refine ⟨?_, ⟨?_, ?_, ?_, ?_⟩, ?_⟩
      · have hassigned : Tidy (mark ']' :: .operator "=" :: vs) :=
          hv.targets.tidy.assigned (fun h => by cases h) (fun h => by cases h)
        exact (htidy.append (tidy_mark '[' hk.targets.tidy)).append hassigned
      · rintro ⟨r, hr, hne⟩
        cases hr
        obtain ⟨mid, -, before, rfl⟩ := hsafe hne
        have hpos := List.length_pos_iff.mpr hk.proper.ne_nil
        refine ⟨mid ++ mark '[' :: us ++ [mark ']'], ?_, before, vs, by simp⟩
        simp
        omega
      · exact every_mono hnodes ⟨[], mark '[' :: us ++ mark ']' :: .operator "=" :: vs, by simp⟩
      · exact every_mono hk.targets.nodes ⟨ls ++ [mark '['], mark ']' :: .operator "=" :: vs, by simp⟩
      · exact every_mono hv.targets.nodes ⟨ls ++ mark '[' :: us ++ [mark ']', .operator "="], [], by simp⟩
      · exact safe_of_eq_nil rfl
  | _, _, _, @Derives.call _ ls us _ _ _ hf hargs => by
      obtain ⟨htidy, hnodes⟩ := hargs.targets
      refine ⟨?_, ⟨?_, ?_, ?_⟩, ?_⟩
      · exact (hf.targets.tidy.append (tidy_mark '(' htidy)).append (tidy_mark ')' .nil)
      · exact not_hasSafeTarget rfl
      · exact every_mono hf.targets.nodes ⟨[], mark '(' :: us ++ [mark ')'], by simp⟩
      · exact everyAll_mono hnodes ⟨ls ++ [mark '('], [mark ')'], by simp⟩
      · exact safe_of_eq_nil rfl
  | _, _, _, .present _ h =>
      ⟨h.targets.tidy.append (Tidy.nil.cons (by decide) (by decide)),
        ⟨not_hasSafeTarget rfl, every_mono h.targets.nodes ⟨[], [.operator "!"], by simp⟩⟩,
        safe_of_eq_nil rfl⟩
  | _, _, _, .group h => by
      obtain ⟨htidy, hnodes, hsafe⟩ := h.targets
      refine ⟨tidy_mark '(' (htidy.append (tidy_mark ')' .nil)), ?_, fun hne => ?_⟩
      · exact every_mono hnodes ⟨[mark '('], [mark ')'], by simp⟩
      · obtain ⟨mid, hmid, before, rfl⟩ := hsafe hne
        exact ⟨mid ++ [mark ')'], by simp, mark '(' :: before, by simp⟩
  | _, _, _, .literal (w := w) _ hw => by
      have hoperator : ∀ o, w ≠ .operator o := by
        rintro o rfl
        cases hw
      exact ⟨.single (hoperator _) (hoperator _), not_hasSafeTarget rfl, safe_of_eq_nil rfl⟩
  | _, _, _, .this _ => ⟨.single (by decide) (by decide), not_hasSafeTarget rfl, safe_of_eq_nil rfl⟩
  | _, _, _, .array _ h => by
      obtain ⟨htidy, hnodes⟩ := h.targets
      refine ⟨tidy_mark '[' (htidy.append (tidy_mark ']' .nil)), ⟨not_hasSafeTarget rfl, ?_⟩,
        safe_of_eq_nil rfl⟩
      exact everyAll_mono hnodes ⟨[mark '['], [mark ']'], by simp⟩
  | _, _, _, .map _ h => by
      obtain ⟨-, htidy, hnodes⟩ := h.targets
      refine ⟨tidy_mark '\x7b' (htidy.append (tidy_mark '\x7d' .nil)), ⟨not_hasSafeTarget rfl, ?_⟩,
        safe_of_eq_nil rfl⟩
      exact everyAll_mono hnodes ⟨[mark '\x7b'], [mark '\x7d'], by simp⟩
  | _, _, _, .emptyMap _ =>
      ⟨tidy_mark '\x7b' (tidy_mark '\x7d' .nil), ⟨not_hasSafeTarget rfl, trivial⟩, safe_of_eq_nil rfl⟩
  | _, _, _, .bare _ h => by
      have hmember := h.targets [] (not_hasSafeTarget rfl) (fun _ hne => absurd rfl hne)
        (fun h => absurd h Bool.false_ne_true)
      exact ⟨hmember.tidy, hmember.nodes, hmember.safe⟩

theorem Member.targets {action : Bool} : ∀ {safe : Bool} {r e : Expr} {us : List Lexeme} (pre : List Lexeme),
    Member action safe r us e → (r.Every fun n => n.HasSafeTarget → Reaches (pre ++ us)) →
    (safe = false → r.safeReceivers ≠ [] → ∃ mid, 2 ≤ mid.length ∧ .operator "?." :: mid <:+ pre) →
    (safe = true → [.operator "?."] <:+ pre) → MemberTargets safe pre us e
  | _, _, _, _, pre, .read (w := w) _ hname, hr, hsafe, _ => by
      refine ⟨tidy_name hname, (fun h => absurd h Bool.false_ne_true), ⟨not_hasSafeTarget rfl, hr⟩, fun hne => ?_⟩
      obtain ⟨mid, -, hsuffix⟩ := hsafe rfl hne
      exact ⟨mid ++ [w], by simp, suffix_append hsuffix _⟩
  | _, _, _, _, pre, .safeRead (w := w) _ hname, hr, _, hpoint => by
      refine ⟨tidy_name hname, fun _ => (tidy_name hname).safe (fun h => by cases h),
        ⟨not_hasSafeTarget rfl, hr⟩, fun _ => ?_⟩
      exact ⟨[w], by simp, suffix_append (hpoint rfl) [w]⟩
  | _, _, _, _, pre, @Member.write _ w _ _ ls _ _ _ hname hv, hr, hsafe, _ => by
      have hoperator := not_operator_of_name? hname
      refine ⟨hv.targets.tidy.assigned (hoperator _) (hoperator _), (fun h => absurd h Bool.false_ne_true), ⟨?_, hr, ?_⟩,
        safe_of_eq_nil rfl⟩
      · rintro ⟨r', hr', hne⟩
        cases hr'
        obtain ⟨mid, hmid, before, rfl⟩ := hsafe rfl hne
        refine ⟨mid ++ [w], by simpa using hmid, before, ls, by simp⟩
      · exact every_mono hv.targets.nodes ⟨pre ++ [w, .operator "="], [], by simp⟩
  | _, _, _, _, pre, @Member.method _ w _ _ ls _ _ hname hargs, hr, hsafe, _ => by
      obtain ⟨htidy, hnodes⟩ := hargs.targets
      refine ⟨(tidy_name hname).append (tidy_mark '(' (htidy.append (tidy_mark ')' .nil))),
        (fun h => absurd h Bool.false_ne_true), ⟨not_hasSafeTarget rfl, hr, ?_⟩, fun hne => ?_⟩
      · exact everyAll_mono hnodes ⟨pre ++ [w, mark '('], [mark ')'], by simp⟩
      · obtain ⟨mid, -, hsuffix⟩ := hsafe rfl hne
        exact ⟨mid ++ (w :: mark '(' :: ls ++ [mark ')']), by simp, suffix_append hsuffix _⟩
  | _, _, _, _, pre, @Member.safeMethod _ w _ _ ls _ _ hname hargs, hr, _, hpoint => by
      obtain ⟨htidy, hnodes⟩ := hargs.targets
      have hmember : Tidy (w :: mark '(' :: ls ++ [mark ')']) :=
        (tidy_name hname).append (tidy_mark '(' (htidy.append (tidy_mark ')' .nil)))
      refine ⟨hmember, fun _ => hmember.safe (fun h => by cases h), ⟨not_hasSafeTarget rfl, hr, ?_⟩,
        fun _ => ?_⟩
      · exact everyAll_mono hnodes ⟨pre ++ [w, mark '('], [mark ')'], by simp⟩
      · exact ⟨w :: mark '(' :: ls ++ [mark ')'], by simp, suffix_append (hpoint rfl) _⟩

theorem Items.targets {action : Bool} : ∀ {ls : List Lexeme} {es : List Expr}, Items action ls es →
    Tidy ls ∧ Expr.EveryAll (fun n => n.HasSafeTarget → Reaches ls) es
  | _, _, .none => ⟨.nil, trivial⟩
  | _, _, .some h => ⟨(h.targets (tidy_mark ',' .nil)).tail, (h.targets (tidy_mark ',' .nil)).nodes⟩

theorem Each.targets {action : Bool} : ∀ {s : Lexeme} {l : Level} {ls : List Lexeme} {es : List Expr},
    Each action s l ls es → Tidy [s] → TargetsAll ls es
  | _, _, _, _, .nil, _ => ⟨.nil, .nil, trivial⟩
  | s, _, _, _, @Each.cons _ _ _ ls us _ _ h hmore, hs => by
      obtain ⟨htidy, -, hnodes⟩ := hmore.targets hs
      have htail := h.targets.tidy.append htidy
      refine ⟨hs.append htail, htail, ?_, ?_⟩
      · exact every_mono h.targets.nodes ⟨[], us, rfl⟩
      · exact everyAll_mono hnodes ((List.tail_suffix us).trans (List.suffix_append ls us)).isInfix

theorem Entries.targets {action : Bool} : ∀ {ls : List Lexeme} {keys : List MapKey}
    {values : List Expr}, Entries action ls keys values → TargetsAll ls values
  | _, _, _, .nil => ⟨.nil, .nil, trivial⟩
  | _, _, _, @Entries.cons _ w _ ls us _ _ _ hkey h hmore => by
      obtain ⟨htidy, -, hnodes⟩ := hmore.targets
      have hoperator : ∀ o, w ≠ .operator o := by
        rintro o rfl
        cases hkey
      have htail : Tidy (w :: mark ':' :: ls ++ us) :=
        ((tidy_mark ':' (h.targets.tidy)).append htidy).cons (hoperator _) (hoperator _)
      refine ⟨tidy_mark ',' htail, htail, ?_, ?_⟩
      · exact every_mono h.targets.nodes ⟨[w, mark ':'], us, rfl⟩
      · refine everyAll_mono hnodes ((List.tail_suffix us).isInfix.trans ?_)
        exact ⟨w :: mark ':' :: ls, [], by simp⟩

end

theorem Sequence.targets {action : Bool} {ls : List Lexeme} {es : List Expr} (h : Sequence action ls es) :
    Tidy ls ∧ ∀ e ∈ es, e.Every fun n => n.HasSafeTarget → Reaches ls := by
  induction h with
  | nil => exact ⟨.nil, List.forall_mem_nil _⟩
  | last h => exact ⟨h.targets.tidy, List.forall_mem_singleton.mpr h.targets.nodes⟩
  | @cons ls us e es n _ h _ ih =>
      have hsemicolons : Tidy (List.replicate (n + 1) (mark ';')) := by
        induction n + 1 with
        | zero => exact .nil
        | succ n ih => exact tidy_mark ';' ih
      refine ⟨(h.targets.tidy.append hsemicolons).append ih.1, List.forall_mem_cons.mpr ⟨?_, fun x hx => ?_⟩⟩
      · exact every_mono h.targets.nodes ⟨[], List.replicate (n + 1) (mark ';') ++ us, by simp⟩
      · exact every_mono (ih.2 x hx) (List.suffix_append _ us).isInfix

/-- A whole expression: the lexemes are tidy, and safe targets need lexemes that reach. -/
theorem Program.targets {action : Bool} {ls : List Lexeme} {e : Expr} (h : Program action ls e) :
    Tidy ls ∧ e.Every fun n => n.HasSafeTarget → Reaches ls := by
  cases h with
  | single h => exact ⟨h.targets.1, h.targets.2 e List.mem_cons_self⟩
  | chain p h _ =>
      exact ⟨h.targets.1, not_hasSafeTarget rfl, Expr.everyAll_iff.mpr h.targets.2⟩

end Grammar

/-! ### The check -/

namespace Parser

section Check

variable {cx : Setting} {inner : Nested} {r : Expr} {ls us : List Lexeme} {name : Text}

/-- Nothing is read, as a safe member is assigned. -/
def Refuses {α : Type} (ls : List Lexeme) (p : Reader α) : Prop :=
  Reads (fun err => err.cause = .safeAssignment) ls p fun _ _ => False

theorem Reads.of_never {α : Type} {E : SyntaxError → Prop} {p : Reader α} {Q : α → List Lexeme → Prop}
    (h : Reads Never ls p Q) : Reads E ls p Q := by
  intro c hc
  specialize h c hc
  rcases heq : p c with err | ⟨a, c'⟩
  · rw [heq] at h
    exact h.elim
  · rw [heq] at h
    exact h

theorem Refuses.bind {α β : Type} {p : Reader α} (h : Refuses ls p) (f : α → Reader β) :
    Refuses ls (p >>= f) :=
  reads_bind h fun _ _ hfalse => hfalse.elim

theorem refuses_member (us : List Lexeme) (r : Expr) (start : Nat) :
    Refuses (.word name :: .operator "=" :: us) (member cx inner r start true) := by
  unfold Refuses member
  refine reads_name (reads_refused (fun h => by cases h) (reads_peek ?_))
  rw [if_pos (by rfl)]
  exact reads_fail fun _ => rfl

theorem refuses_callChain (hr : Ready inner r.spelled r) :
    Refuses (group r.spelled ++ .operator "?." :: .word name :: .operator "=" :: us)
      (callChain cx inner) := by
  unfold Refuses callChain
  refine reads_position fun start => reads_bind (reads_primary_group hr _).of_never ?_
  rintro r' _ ⟨-, rfl⟩
  refine reads_remaining ?_
  rw [List.length_cons]
  unfold accesses
  refine reads_refused (fun h => by cases h) (reads_accepted ?_)
  exact (refuses_member us r' start).bind _

theorem refuses_binary (h : Refuses ls (prefixed cx inner ls.length)) :
    ∀ levels, Refuses ls (binary cx inner levels)
  | [] => by
    unfold Refuses binary
    exact reads_remaining h
  | _ :: tighter => by
    unfold Refuses binary
    exact reads_position fun _ => (refuses_binary h tighter).bind _

theorem refuses_chain (hls : Leads ls) (n : Nat)
    (h : Refuses ls (callChain cx (Nested.ofDepth cx n))) :
    Refuses ls (chain cx (Nested.ofDepth cx (n + 1))) := by
  have hprefixed := reads_prefixed_of_callChain hls.head? h ls.length
  have hconditional : Refuses ls (conditionalExpr cx (Nested.ofDepth cx n)) := by
    unfold Refuses conditionalExpr
    exact reads_position fun _ => (refuses_binary hprefixed _).bind _
  have hpiped : Refuses ls (piped cx (conditionalExpr cx (Nested.ofDepth cx n))) := by
    unfold Refuses piped
    exact reads_position fun _ => hconditional.bind _
  obtain ⟨w, ls, rfl, -⟩ := hls
  unfold Refuses chain
  refine reads_position fun _ => reads_remaining ((?_ : Refuses _ _).bind _)
  rw [List.length_cons]
  unfold Refuses chainItems
  refine reads_peek ?_
  rw [if_neg (by exact Bool.false_ne_true)]
  exact hpiped.bind _

end Check

end Parser

/-! ### Handlers -/

open TemplateCompiler.Parser

def lexemes (input : Text) : List Lexeme := (tokenize input).map Token.lexeme

theorem parseAction_spread {ls : List Lexeme} (hls : WritableInside ls) (hne : ls ≠ []) {gaps : List Text}
    (hgaps : ∀ g ∈ gaps, g.all Lexer.isSeparator = true) (location : Text) (absolute : Int)
    {E : SyntaxError → Prop} {Q : Expr → Prop}
    (h : ∀ cx : Setting, cx.action = true →
      Reads E ls (chain cx (Nested.ofDepth cx ls.length)) fun e _ => Q e) :
    (∃ e, parseAction (spread gaps ls) location absolute = .ok e ∧ Q e) ∨
      ∃ err, parseAction (spread gaps ls) location absolute = .error [err] ∧ E err := by
  have hjoined : Joined ls := List.append_nil ls ▸ hls.joined [] trivial fun _ h => nomatch h
  have htokens : lexemes (spread gaps ls) = ls := lexemes_spread _ 0 hgaps hls.spellable hjoined
  have hlength := congrArg List.length htokens
  rw [lexemes, List.length_map] at hlength
  have hblank : Text.isBlank (spread gaps ls) = false := by
    obtain ⟨w, ws, rfl⟩ := List.exists_cons_of_ne_nil hne
    refine isBlank_spread ?_ (hls.spellable w List.mem_cons_self) ws
    cases gaps with
    | nil => rfl
    | cons g gaps => exact hgaps g List.mem_cons_self
  have herror : ∀ t ∈ tokenize (spread gaps ls), ∀ m, t.lexeme ≠ .error m := by
    intro t ht m hlexeme
    have hspelled := hls.spellable t.lexeme (htokens ▸ List.mem_map_of_mem ht)
    rw [hlexeme] at hspelled
    exact hspelled
  have hreads := h ⟨spread gaps ls, location, absolute, 0, true⟩ rfl
  rw [← hlength] at hreads
  have hparse := @parse_eq_chain ⟨spread gaps ls, location, absolute, 0, true⟩ herror hblank
  rw [parseAction, parseExpression, hparse]
  rcases hreads.run (c := ⟨tokenize (spread gaps ls), 0⟩) htokens with ⟨e, c, hrun, he⟩ | ⟨err, hrun, herr⟩
  · exact .inl ⟨e, by rw [hrun]; rfl, he⟩
  · exact .inr ⟨err, by rw [hrun]; rfl, herr⟩

def safelyAssigned (r : Expr) (name : Text) (v : Expr) : List Lexeme :=
  group r.spelled ++ .operator "?." :: .word name :: .operator "=" :: group v.spelled

theorem writableInside_safelyAssigned {r v : Expr} {name : Text} (hr : r.Spellable)
    (hname : Text.isName name = true) (hv : v.Spellable) : WritableInside (safelyAssigned r name v) := by
  have hequals : Writable (.operator "=" :: group v.spelled) :=
    .cons (by decide : _ ∈ Lexeme.symbols) rfl (Expr.writable_spelled hv).group
  have hword := hequals.cons (Lexeme.spellable_word hname) (Lexeme.fits_word_operator name _)
  exact ((Expr.writable_spelled hr).group.append
    (hword.cons (by decide : _ ∈ Lexeme.symbols) (Lexeme.fits_operator_word _ name))).inside

theorem refuses_safelyAssigned {r : Expr} (hr : r.Spellable) (name : Text) (v : Expr) (cx : Setting)
    (haction : cx.action = true) :
    Refuses (safelyAssigned r name v) (chain cx (Nested.ofDepth cx (safelyAssigned r name v).length)) := by
  obtain ⟨n, hn⟩ : ∃ n, (safelyAssigned r name v).length = r.spelled.length + n + 2 := by
    refine ⟨(group v.spelled).length + 3, ?_⟩
    simp [safelyAssigned, length_group]
    omega
  rw [hn]
  exact refuses_chain (leads_group _ _) _ (refuses_callChain (ready_spelled haction hr _ (by omega)))

/-- The targets of the assignments in a handler. If it is read, no safe member is assigned, and an assignment
to what is reached through a safe access has lexemes between. No more is looked at: whatever safe accesses
the target has, its assignment is read, and only the assignment of a safe member is refused. -/
theorem assignment_targets (input location : Text) (absolute : Int) :
    (∀ e, parseAction input location absolute = .ok e →
      (∀ w, ¬[.operator "?.", w, .operator "="] <:+: lexemes input) ∧
      ∀ n ∈ e.nodes, n.HasSafeTarget →
        ∃ mid, 3 ≤ mid.length ∧ .operator "?." :: mid ++ [.operator "="] <:+: lexemes input) ∧
    ∀ p r name v gaps, (Expr.write p r name v).Spellable → (∀ g ∈ gaps, g.all Lexer.isSeparator = true) →
      (input = spread gaps (Expr.write p r name v).spelled →
        ∃ e, parseAction input location absolute = .ok e ∧
          e.unplaced = (Expr.write p r name v).unplaced) ∧
      (input = spread gaps (safelyAssigned r name v) →
        ∃ err, parseAction input location absolute = .error [err] ∧ err.cause = .safeAssignment) := by
  refine ⟨fun e hparse => ?_, fun p r name v gaps h hgaps => ⟨?_, ?_⟩⟩
  · obtain ⟨htidy, hnodes⟩ := (program_of_parseExpression hparse).targets
    exact ⟨htidy.apart, (Expr.every_iff_nodes e).mp hnodes⟩
  · rintro rfl
    have hne : (Expr.write p r name v).spelled ≠ [] := by simp [Expr.spelled]
    have hread := parseAction_spread (Expr.writable_spelled h) hne hgaps location absolute fun cx haction =>
      (reads_chain_program haction false (e := .write p r name v) h).mono fun _ _ he => he.1
    rcases hread with hread | ⟨_, -, hfalse⟩
    · exact hread
    · exact hfalse.elim
  · rintro rfl
    obtain ⟨hr, hname, hv⟩ := id h
    have hne : safelyAssigned r name v ≠ [] := by simp [safelyAssigned]
    have hread := parseAction_spread (writableInside_safelyAssigned hr hname.1 hv) hne hgaps location
      absolute (refuses_safelyAssigned hr name v)
    rcases hread with ⟨_, -, hfalse⟩ | hread
    · exact hfalse.elim
    · exact hread

namespace Sample

/-- The member `c` of `a?.b`, and the value `d`. -/
def behindGuard : Expr :=
  let p : Place := ⟨none, none⟩
  let name (x : Text) : Expr := .read p (.context p) x
  .write p (.read p (.safeRead p (name "a") "b") "c") "x" (name "d")

theorem spellable_behindGuard : behindGuard.Spellable := by
  have hname : ∀ r : Expr, ∀ x ∈ ["a", "b", "c", "d", "x"], r.SpellableName (Text.ofString x) := by
    intro r x hx
    have hall : ∀ x ∈ ["a", "b", "c", "d", "x"],
        Text.isName (Text.ofString x) = true ∧ Text.ofString x ∉ keywords := by decide
    exact ⟨(hall x hx).1, fun _ => (hall x hx).2⟩
  exact ⟨⟨⟨⟨trivial, hname _ "a" (by decide)⟩, rfl⟩, hname _ "c" (by decide)⟩, hname _ "x" (by decide),
    trivial, hname _ "d" (by decide)⟩

/-- A guarded text is assigned behind the guard. -/
theorem exists_assigned : ∃ e, parseAction "a?.b.c=d" [] 0 = .ok e ∧ ∃ n ∈ e.nodes, n.HasSafeTarget :=
  ⟨_, rfl, _, List.mem_cons_self, _, rfl, fun h => nomatch h⟩

/-- Three lexemes are between the safe access and the equals sign, and the assignment is read. -/
theorem behindGuard_targets :
    (∃ e, parseAction "a?.b.c=d" [] 0 = .ok e ∧ ∃ n ∈ e.nodes, n.HasSafeTarget ∧
      ∃ mid, 3 ≤ mid.length ∧ .operator "?." :: mid ++ [.operator "="] <:+: lexemes "a?.b.c=d") ∧
    behindGuard.Spellable ∧
    spread [] behindGuard.spelled = "(((a)?.b).c).x=(d)" ∧
    ∃ e, parseAction (spread [] behindGuard.spelled) [] 0 = .ok e ∧ e.unplaced = behindGuard.unplaced := by
  obtain ⟨e, he, n, hn, htarget⟩ := exists_assigned
  have hread := (assignment_targets "a?.b.c=d" [] 0).1 e he
  have hwrite := (assignment_targets (spread [] behindGuard.spelled) [] 0).2 _ _ _ _ []
    spellable_behindGuard fun _ hg => nomatch hg
  exact ⟨⟨e, he, n, hn, htarget, hread.2 n hn htarget⟩, spellable_behindGuard, by decide, hwrite.1 rfl⟩

/-- An assignment behind a guard is read. -/
theorem not_assigned_apart :
    ¬∀ input location absolute e, parseAction input location absolute = .ok e →
      ∀ n ∈ e.nodes, ¬n.HasSafeTarget := by
  intro h
  obtain ⟨e, he, n, hn, htarget⟩ := exists_assigned
  exact h _ _ _ e he n hn htarget

end Sample

end TemplateCompiler
