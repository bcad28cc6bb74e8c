import TemplateCompiler.Template.Instruction

/-!
# Calls of the runtime

`Term.calls` lists the calls of runtime functions in a term, each before those in its arguments. A
pooled literal is a constant of its own, so that nothing is called where it stands.

* `calls_of_isConstant` : constants call nothing;
* `calls_call` : the calls of an instruction.
-/

namespace TemplateCompiler

/-- A call of a function of the runtime. -/
structure RuntimeCall where
  name : Text
  args : List Term

def Term.runtime? : Term → Option Text
  | .external _ module name => if module = coreModule then some name else none
  | _ => none

mutual

def Term.calls : Term → List RuntimeCall
  | .var .. | .lit .. | .external .. | .pooled .. => []
  | .array _ ts => Term.callsAll ts
  | .map _ es => Term.callsEntries es
  | .prop _ a _ | .not _ a | .present _ a | .cast _ a => a.calls
  | .key _ a b | .binary _ _ a b | .cond _ a b none => a.calls ++ b.calls
  | .call _ f args _ => (f.runtime?.map (⟨·, args⟩)).toList ++ (f.calls ++ Term.callsAll args)
  | .cond _ c y (some n) => c.calls ++ (y.calls ++ n.calls)
  | .function _ _ body _ => Stmt.callsAll body

def Term.callsAll : List Term → List RuntimeCall
  | [] => []
  | t :: ts => t.calls ++ Term.callsAll ts

def Term.callsEntries : List (MapKey × Term) → List RuntimeCall
  | [] => []
  | (_, t) :: es => t.calls ++ Term.callsEntries es

def Stmt.calls : Stmt → List RuntimeCall
  | .declare _ _ _ none => []
  | .declare _ _ _ (some t) | .expr _ t | .ret _ t => t.calls
  | .function _ _ _ _ body => Stmt.callsAll body
  | .branch _ c yes no => c.calls ++ (Stmt.callsAll yes ++ Stmt.callsAll no)

/-- The calls in statements one after the other. -/
def Stmt.callsAll : List Stmt → List RuntimeCall
  | [] => []
  | s :: ss => s.calls ++ Stmt.callsAll ss

end

namespace Term

theorem callsAll_append (ts us : List Term) : callsAll (ts ++ us) = callsAll ts ++ callsAll us := by
  induction ts with
  | nil => rfl
  | cons t ts ih => rw [List.cons_append, callsAll, callsAll, ih, List.append_assoc]

theorem callsAll_eq_flatMap (ts : List Term) : callsAll ts = ts.flatMap calls := by
  induction ts with
  | nil => rfl
  | cons t ts ih => rw [callsAll, ih, List.flatMap_cons]

theorem callsEntries_zip (keys : List MapKey) (ts : List Term) :
    callsEntries (keys.zip ts) = callsAll (ts.take keys.length) := by
  induction keys generalizing ts with
  | nil => rw [List.zip_nil_left, List.length_nil, List.take_zero]; rfl
  | cons k keys ih =>
      cases ts with
      | nil => rfl
      | cons t ts =>
          rw [List.zip_cons_cons, List.length_cons, List.take_succ_cons, callsAll, ← ih ts]
          rfl

mutual

theorem calls_of_isConstant : ∀ t : Term, t.isConstant = true → t.calls = []
  | .lit .., _ | .pooled .., _ => by rw [calls]
  | .array _ ts, h => by
    rw [calls]
    exact callsAll_of_allConstant ts h
  | .map _ es, h => by
    rw [calls]
    exact callsEntries_of_allConstantEntries es h
  | .var .., h | .prop .., h | .key .., h | .call .., h | .binary .., h | .not .., h
  | .present .., h | .cast .., h | .cond .., h | .external .., h | .function .., h => by cases h

theorem callsAll_of_allConstant : ∀ ts : List Term, allConstant ts = true → callsAll ts = []
  | [], _ => rfl
  | t :: ts, h => by
    rw [allConstant, Bool.and_eq_true] at h
    rw [callsAll, calls_of_isConstant t h.1, callsAll_of_allConstant ts h.2]
    rfl

theorem callsEntries_of_allConstantEntries : ∀ es : List (MapKey × Term),
    allConstantEntries es = true → callsEntries es = []
  | [], _ => rfl
  | (_, t) :: es, h => by
    rw [allConstantEntries, Bool.and_eq_true] at h
    rw [callsEntries, calls_of_isConstant t h.1, callsEntries_of_allConstantEntries es h.2]
    rfl

end

/-! ### The calls of terms made by the constructors -/

variable (c t u : Term) (ts : List Term) (name : Text)

@[simp] theorem calls_ofVar : (ofVar name).calls = [] := by simp [ofVar, calls]

@[simp] theorem calls_ofValue (v : Primitive) : (ofValue v).calls = [] := by simp [ofValue, calls]

@[simp] theorem calls_ofNat (n : Nat) : (ofNat n).calls = [] := calls_ofValue _

@[simp] theorem calls_ofText : (ofText name).calls = [] := calls_ofValue _

@[simp] theorem calls_null : null.calls = [] := calls_ofValue _

@[simp] theorem calls_ofList : (ofList ts).calls = callsAll ts := by simp [ofList, calls]

@[simp] theorem calls_prop (note : Note) : (prop note t name).calls = t.calls := by simp [calls]

@[simp] theorem calls_key (note : Note) : (key note t u).calls = t.calls ++ u.calls := by simp [calls]

@[simp] theorem calls_operation (op : Operator) (note : Note) :
    (operation op t u note).calls = t.calls ++ u.calls := by simp [operation, calls]

@[simp] theorem calls_set : (set t u).calls = t.calls ++ u.calls := calls_operation ..

@[simp] theorem calls_isBlank : (isBlank t).calls = t.calls := by simp [isBlank]

@[simp] theorem calls_negate (span : Option SourceSpan) : (negate t span).calls = t.calls := by
  simp [negate, calls]

@[simp] theorem calls_assertPresent (span : Option SourceSpan) :
    (assertPresent t span).calls = t.calls := by simp [assertPresent, calls]

@[simp] theorem calls_erased : (erased t).calls = t.calls := by simp [erased, calls]

@[simp] theorem calls_choose (note : Note) :
    (choose c t (some u) note).calls = c.calls ++ (t.calls ++ u.calls) := by simp [choose, calls]

variable {c} in
/-- A call of something that is no runtime function. -/
theorem calls_apply (h : c.runtime? = none) : (apply c ts).calls = c.calls ++ callsAll ts := by
  simp [apply, calls, h]

@[simp] theorem calls_applyMethod : (applyMethod t name ts).calls = t.calls ++ callsAll ts := by
  simp [applyMethod, calls, runtime?]

theorem callsAll_ofEntries (keys : List MapKey) :
    (ofEntries (keys.zip ts)).calls = callsAll (ts.take keys.length) := by
  rw [ofEntries, calls, callsEntries_zip]

end Term

theorem Instruction.calls_call (i : Instruction) (args : List Term) (span : Option SourceSpan) :
    (i.call args span).calls = ⟨i.name, args⟩ :: Term.callsAll args := by
  simp [Instruction.call, Term.apply, Term.imported, Term.calls, Term.runtime?]

theorem Instruction.callsAll_spread (limit : Nat) (args : List Term) :
    Term.callsAll (spread limit args) = Term.callsAll args := by
  unfold spread
  split
  · simp [Term.callsAll]
  · rfl

namespace Stmt

theorem callsAll_append (ss ss' : List Stmt) : callsAll (ss ++ ss') = callsAll ss ++ callsAll ss' := by
  induction ss with
  | nil => rfl
  | cons s ss ih => rw [List.cons_append, callsAll, callsAll, ih, List.append_assoc]

theorem callsAll_eq_flatMap (ss : List Stmt) : callsAll ss = ss.flatMap calls := by
  induction ss with
  | nil => rfl
  | cons s ss ih => rw [callsAll, ih, List.flatMap_cons]

theorem calls_stmt (i : Instruction) (args : List Term) (span : Option SourceSpan) :
    (i.stmt args span).calls = ⟨i.name, args⟩ :: Term.callsAll args := by
  rw [Instruction.stmt, ofTerm, calls, Instruction.calls_call]

theorem calls_const (name : Text) (t : Term) : (const name t).calls = t.calls := by
  rw [const, calls]

end Stmt

end TemplateCompiler
