import TemplateCompiler.Code.Basic
import TemplateCompiler.Fault

/-!
# Keys of constants

`Term.keyOf` is a text that tells constants apart: literals, variable reads and external symbols
with the same key are the same. Other terms have no key.
-/

namespace TemplateCompiler

def Primitive.keyOf : Primitive → Text
  | null => "<nil>"
  | bool b => Text.ofBool b
  | text t => t.quoted
  | int n => Text.ofInt n
  | double d => d.compact

def MapKey.keyOf (k : MapKey) : Text := if k.quoted then k.name.quoted else k.name

mutual

def Term.keyOf : Term → Except Defect Text
  | .pooled _ t => t.keyOf
  | .lit _ v => return v.keyOf
  | .array _ entries => return "[" ++ Text.join "," (← Term.keysOf entries) ++ "]"
  | .map _ entries => return "\x7b" ++ Text.join "," (← Term.keysOfEntries entries) ++ "\x7d"
  | .external _ m n => return "import(" ++ m.quoted ++ ", " ++ n.quoted ++ ")"
  | .var _ n => return "read(" ++ n ++ ")"
  | t => throw (.unkeyable t.typeName)

def Term.keysOf : List Term → Except Defect (List Text)
  | [] => return []
  | t :: ts => return (← t.keyOf) :: (← Term.keysOf ts)

def Term.keysOfEntries : List (MapKey × Term) → Except Defect (List Text)
  | [] => return []
  | (k, t) :: ts => return (k.keyOf ++ ":" ++ (← t.keyOf)) :: (← Term.keysOfEntries ts)

end

end TemplateCompiler
