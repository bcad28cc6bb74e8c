import TemplateCompiler.Fault

/-!
# Expressions as text

`Expr.print` writes an expression in one normal form. Nothing is put in parentheses but pipes, and
a member of the context is written by its name alone.
-/

namespace TemplateCompiler

/-- A literal as it stands in an expression. -/
def Primitive.print : Primitive → Except Defect Text
  | null => return "null"
  | bool b => return Text.ofBool b
  | text t => return "'" ++ Text.replace '\''.toUInt8 "\\'" t ++ "'"
  | double d => return d.plain
  | int _ => throw .wholeNumber

def MapKey.print (k : MapKey) : Text := if k.quoted then "'" ++ k.name ++ "'" else k.name

namespace Expr

def isContext : Expr → Bool
  | context _ => true
  | _ => false

mutual

/-- The normal form of an expression. -/
def print : Expr → Except Defect Text
  | context _ => return "this"
  | chain _ es => return Text.join "; " (← printAll es)
  | conditional _ c y n => return (← c.print) ++ " ? " ++ (← y.print) ++ " : " ++ (← n.print)
  | read _ r name =>
    if r.isContext then return name else return (← r.print) ++ "." ++ name
  | write _ r name v => do
    let target ← if r.isContext then pure name else pure ((← r.print) ++ "." ++ name)
    return target ++ " = " ++ (← v.print)
  | safeRead _ r name => return (← r.print) ++ "?." ++ name
  | index _ o k => return (← o.print) ++ "[" ++ (← k.print) ++ "]"
  | indexWrite _ o k v => return (← o.print) ++ "[" ++ (← k.print) ++ "] = " ++ (← v.print)
  | method _ r name args => do
    let target ← if r.isContext then pure name else pure ((← r.print) ++ "." ++ name)
    return target ++ "(" ++ Text.join ", " (← printAll args) ++ ")"
  | safeMethod _ r name args =>
    return (← r.print) ++ "?." ++ name ++ "(" ++ Text.join ", " (← printAll args) ++ ")"
  | call _ t args => return (← t.print) ++ "(" ++ Text.join ", " (← printAll args) ++ ")"
  | binary _ o l r => return (← l.print) ++ " " ++ o ++ " " ++ (← r.print)
  | not _ e => return "!" ++ (← e.print)
  | present _ e => return (← e.print) ++ "!"
  | literal _ v => v.print
  | array _ es => return "[" ++ Text.join ", " (← printAll es) ++ "]"
  | map _ ks vs => return "\x7b" ++ Text.join ", " (← printEntries ks vs) ++ "\x7d"
  | interpolation _ ts es => printBetween ts es
  | pipe _ e name args => do
    let front ← e.print
    let more ← printAll args
    let colons : Text := more.flatMap (':'.toUInt8 :: ·)
    return "(" ++ front ++ " | " ++ name ++ colons ++ ")"
  | quote _ scheme text _ => return scheme ++ ":" ++ text
  | builtin _ _ args => return "<builtin>(" ++ Text.join ", " (← printAll args) ++ ")"

/-- The normal forms of expressions. -/
def printAll : List Expr → Except Defect (List Text)
  | [] => return []
  | e :: es => return (← e.print) :: (← printAll es)

/-- The entries of a map; a value without a key is left out. -/
def printEntries : List MapKey → List Expr → Except Defect (List Text)
  | k :: ks, e :: es => return (k.print ++ ": " ++ (← e.print)) :: (← printEntries ks es)
  | _, _ => return []

/-- Texts with expressions between them; an expression without a text before it is left out. -/
def printBetween : List Text → List Expr → Except Defect Text
  | ts, [] => return ts.flatten
  | [], _ :: _ => return []
  | t :: ts, e :: es =>
    return t ++ "\x7b\x7b " ++ (← e.print) ++ " \x7d\x7d" ++ (← printBetween ts es)

end

end Expr

end TemplateCompiler
