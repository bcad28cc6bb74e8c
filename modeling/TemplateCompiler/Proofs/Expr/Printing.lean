import TemplateCompiler.Proofs.Expr.Every
import TemplateCompiler.Expr.Printer

/-!
# When printing fails

Whole numbers have no printed form, since a number that is read is never one. Printing an expression fails
at its literals only (`Expr.errorsIn_print`).
-/

namespace TemplateCompiler.Expr

/-- Whether printing a node fails in some ways only, if printing its parts does. -/
def Prints (R : Defect → Prop) : Expr → Prop
  | literal _ v => ErrorsIn R v.print
  | _ => True

theorem errorsIn_pure {ε α : Type} {R : ε → Prop} (a : α) : ErrorsIn R (pure a : Except ε α) :=
  fun _ h => nomatch h

mutual

/-- Printing an expression fails only as it does at some literal. -/
theorem errorsIn_print {R : Defect → Prop} : ∀ e : Expr, e.Every (Prints R) → ErrorsIn R e.print
  | .context _, _ | .quote .., _ => by
    rw [print]
    exact errorsIn_pure _
  | .literal _ v, h => by
    rw [print]
    exact h
  | .read _ r _, h => by
    rw [print]
    split
    · exact errorsIn_pure _
    · exact errorsIn_bind (errorsIn_print r h.2) fun _ => errorsIn_pure _
  | .safeRead _ a _, h | .not _ a, h | .present _ a, h => by
    rw [print]
    exact errorsIn_bind (errorsIn_print a h.2) fun _ => errorsIn_pure _
  | .index _ a b, h | .binary _ _ a b, h => by
    rw [print]
    exact errorsIn_bind (errorsIn_print a h.2.1) fun _ =>
      errorsIn_bind (errorsIn_print b h.2.2) fun _ => errorsIn_pure _
  | .conditional _ a b c, h | .indexWrite _ a b c, h => by
    rw [print]
    exact errorsIn_bind (errorsIn_print a h.2.1) fun _ =>
      errorsIn_bind (errorsIn_print b h.2.2.1) fun _ =>
        errorsIn_bind (errorsIn_print c h.2.2.2) fun _ => errorsIn_pure _
  | .write _ r _ v, h => by
    have hr := errorsIn_print r h.2.1
    have hv := errorsIn_print v h.2.2
    have hvalue : ∀ target : Text, ErrorsIn R (v.print >>= fun t => pure (target ++ " = " ++ t)) :=
      fun _ => errorsIn_bind hv fun _ => errorsIn_pure _
    rw [print]
    split
    · exact errorsIn_bind (errorsIn_pure _) hvalue
    · exact errorsIn_bind hr fun _ => errorsIn_bind (errorsIn_pure _) hvalue
  | .method _ r _ args, h => by
    have hr := errorsIn_print r h.2.1
    have hargs := errorsIn_printAll args h.2.2
    have hcall : ∀ target : Text, ErrorsIn R
        (printAll args >>= fun ts => pure (target ++ "(" ++ Text.join ", " ts ++ ")")) :=
      fun _ => errorsIn_bind hargs fun _ => errorsIn_pure _
    rw [print]
    split
    · exact errorsIn_bind (errorsIn_pure _) hcall
    · exact errorsIn_bind hr fun _ => errorsIn_bind (errorsIn_pure _) hcall
  | .safeMethod _ a _ args, h | .call _ a args, h | .pipe _ a _ args, h => by
    rw [print]
    exact errorsIn_bind (errorsIn_print a h.2.1) fun _ =>
      errorsIn_bind (errorsIn_printAll args h.2.2) fun _ => errorsIn_pure _
  | .chain _ es, h | .array _ es, h | .builtin _ _ es, h => by
    rw [print]
    exact errorsIn_bind (errorsIn_printAll es h.2) fun _ => errorsIn_pure _
  | .map _ ks vs, h => by
    rw [print]
    exact errorsIn_bind (errorsIn_printEntries ks vs h.2) fun _ => errorsIn_pure _
  | .interpolation _ ts es, h => by
    rw [print]
    exact errorsIn_printBetween ts es h.2

theorem errorsIn_printAll {R : Defect → Prop} : ∀ es : List Expr, EveryAll (Prints R) es →
    ErrorsIn R (printAll es)
  | [], _ => errorsIn_pure _
  | e :: es, h => by
    rw [printAll]
    exact errorsIn_bind (errorsIn_print e h.1) fun _ =>
      errorsIn_bind (errorsIn_printAll es h.2) fun _ => errorsIn_pure _

theorem errorsIn_printEntries {R : Defect → Prop} : ∀ (ks : List MapKey) (es : List Expr),
    EveryAll (Prints R) es → ErrorsIn R (printEntries ks es)
  | k :: ks, e :: es, h => by
    rw [printEntries]
    exact errorsIn_bind (errorsIn_print e h.1) fun _ =>
      errorsIn_bind (errorsIn_printEntries ks es h.2) fun _ => errorsIn_pure _
  | [], _, _ | _ :: _, [], _ => by
    rw [printEntries]
    · exact errorsIn_pure _
    all_goals nofun

theorem errorsIn_printBetween {R : Defect → Prop} : ∀ (ts : List Text) (es : List Expr),
    EveryAll (Prints R) es → ErrorsIn R (printBetween ts es)
  | _, [], _ => by
    rw [printBetween]
    exact errorsIn_pure _
  | [], _ :: _, _ => errorsIn_pure _
  | t :: ts, e :: es, h => by
    rw [printBetween]
    exact errorsIn_bind (errorsIn_print e h.1) fun _ =>
      errorsIn_bind (errorsIn_printBetween ts es h.2) fun _ => errorsIn_pure _

end

end TemplateCompiler.Expr
