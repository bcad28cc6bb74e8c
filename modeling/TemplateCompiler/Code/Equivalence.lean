import TemplateCompiler.Code.Basic

/-!
# Equivalent code

Two terms are equivalent if they have the same structure; spans do not matter, and types only for
casts. Pooled literals are equivalent to pooled literals only, by what they currently stand for
under the given names.
-/

namespace TemplateCompiler

/-- Whether a term reads the variable `name`. -/
def Term.isVar (name : Text) : Term → Bool
  | .var _ n => n == name
  | _ => false

mutual

def Term.equiv (names : Names) : Term → Term → Bool
  | .var _ n, b => b.isVar n
  | .lit _ v, .lit _ w => v.same w
  | .array _ xs, .array _ ys => Term.equivAll names xs ys
  | .map _ xs, .map _ ys => Term.equivEntries names xs ys
  | .prop _ r n, .prop _ s m => n == m && r.equiv names s
  | .key _ r i, .key _ s j => r.equiv names s && i.equiv names j
  | .call _ f xs p, .call _ g ys q => f.equiv names g && Term.equivAll names xs ys && p == q
  | .binary _ o l r, .binary _ o' l' r' => o == o' && l.equiv names l' && r.equiv names r'
  | .not _ a, .not _ b => a.equiv names b
  | .present _ a, .present _ b => a.equiv names b
  | .cast n a, .cast m b => n.type == m.type && a.equiv names b
  | .cond _ c y none, .cond _ c' y' n' => c.equiv names c' && y.equiv names y' && n'.isNone
  | .cond _ c y (some n), .cond _ c' y' (some n') =>
    c.equiv names c' && y.equiv names y' && n.equiv names n'
  | .external _ m n, .external _ m' n' => n == n' && m == m'
  | .function _ ps b _, .function _ qs c _ => ps == qs && Stmt.equivAll names b c
  | .pooled k a, .pooled k' b =>
    match names k, names k' with
    | some n, some n' => n == n'
    | some n, none => b.isVar n
    | none, some n' => a.equiv names (.ofVar n')
    | none, none => a.equiv names b
  | _, _ => false

def Term.equivAll (names : Names) : List Term → List Term → Bool
  | [], [] => true
  | x :: xs, y :: ys => x.equiv names y && Term.equivAll names xs ys
  | _, _ => false

def Term.equivEntries (names : Names) : List (MapKey × Term) → List (MapKey × Term) → Bool
  | [], [] => true
  | (k, x) :: xs, (l, y) :: ys => k == l && x.equiv names y && Term.equivEntries names xs ys
  | _, _ => false

def Stmt.equiv (names : Names) : Stmt → Stmt → Bool
  | .declare _ m n none, .declare _ m' n' v' => n == n' && m == m' && v'.isNone
  | .declare _ m n (some v), .declare _ m' n' (some v') => n == n' && m == m' && v.equiv names v'
  | .function _ _ n ps b, .function _ _ n' ps' b' =>
    n == n' && ps.length == ps'.length && Stmt.equivAll names b b'
  | .expr _ a, .expr _ b => a.equiv names b
  | .ret _ a, .ret _ b => a.equiv names b
  | .branch _ c y n, .branch _ c' y' n' =>
    c.equiv names c' && Stmt.equivAll names y y' && Stmt.equivAll names n n'
  | _, _ => false

def Stmt.equivAll (names : Names) : List Stmt → List Stmt → Bool
  | [], [] => true
  | s :: ss, t :: ts => s.equiv names t && Stmt.equivAll names ss ts
  | _, _ => false

end

/-- Whether two terms that may be missing are equivalent. -/
def Term.equiv? (names : Names) : Option Term → Option Term → Bool
  | none, none => true
  | some a, some b => a.equiv names b
  | _, _ => false

end TemplateCompiler
