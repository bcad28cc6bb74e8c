import TemplateCompiler.Code.Basic
import TemplateCompiler.Code.Escape
import TemplateCompiler.Code.Page
import TemplateCompiler.Fault

/-!
# Writing code

Terms and statements as steps of printing. Every operation and every conditional is in parentheses
unless it is the whole term of a statement. The only thing that cannot be written is an unknown
operator.
-/

namespace TemplateCompiler

/-- How code is written: the constants of the pool, and whether dollar signs are escaped. -/
structure Style where
  names : Names := Names.empty
  escapeDollar : Bool := false

def Primitive.written (escapeDollar : Bool) : Primitive → Text
  | null => "null"
  | bool b => Text.ofBool b
  | text t => escapeIdentifier t escapeDollar true
  | int n => Text.ofInt n
  | double d => d.plain

namespace Emit

def openBrace : Text := "\x7b"

def closeBrace : Text := "\x7d"

/-- Steps in parentheses, if they are asked for. -/
def parens (wanted : Bool) (span : Option SourceSpan) (steps : List Print) : List Print :=
  if wanted then [.part "(" span] ++ steps ++ [.part ")" span] else steps

/-- The parameters of a function, which come from no source. -/
def params (names : List Text) : Print := .part (Text.join ", " names) none

/-- A body, one step further in. -/
def indented (steps : List Print) : List Print := [.indent] ++ steps ++ [.dedent]

def isFunction : Term → Bool
  | .function .. => true
  | _ => false

variable (style : Style)

mutual

/-- A term; `top` if it is the whole term of a statement. -/
def term (top : Bool) : Term → Except Defect (List Print)
  | .var n name => return [.part name n.span]
  | .lit n v => return [.part (v.written style.escapeDollar) n.span]
  | .array n entries => return [.part "[" n.span] ++ (← terms entries) ++ [.part "]" n.span]
  | .map n es =>
    return [.part openBrace n.span] ++ (← entries n.span es) ++ [.part closeBrace n.span]
  | .prop n r name => return (← term false r) ++ [.part "." n.span, .part name n.span]
  | .key n r i =>
    return (← term false r) ++ [.part "[" n.span] ++ (← term false i) ++ [.part "]" n.span]
  | .call n f args _ => do
    let callee := parens (isFunction f) f.span (← term false f)
    return callee ++ [.part "(" n.span] ++ (← terms args) ++ [.part ")" n.span]
  | .binary n o l r => do
    match o.text? with
    | none => throw .unknownOperator
    | some t =>
      let left ← term false l
      let right ← term false r
      return parens (!top) n.span (left ++ [.part (" " ++ t ++ " ") n.span] ++ right)
  | .not n a => return [.part "!" n.span] ++ (← term false a)
  | .present n a => return (← term false a) ++ [.part "!" n.span]
  | .cast n a => return [.part "(" n.span] ++ (← term false a) ++ [.part " as any)" n.span]
  | .cond n c y none => do
    let front := (← term false c) ++ [.part " ? " n.span] ++ (← term false y)
    return parens (!top) n.span (front ++ [.part " : " n.span, .part "null" n.span])
  | .cond n c y (some e) => do
    let front := (← term false c) ++ [.part " ? " n.span] ++ (← term false y)
    return parens (!top) n.span (front ++ [.part " : " n.span] ++ (← term false e))
  | .external n _ name => return [.part name n.span]
  | .function n ps body name => do
    let label : List Print := if name.isEmpty then [] else [.part (" " ++ name) n.span]
    return [.part "function" n.span] ++ label ++ [.part "(" n.span, params ps,
      .part (") " ++ openBrace) n.span, .newline] ++ indented (← stmts body)
      ++ [.part closeBrace n.span]
  | .pooled k literal =>
    match style.names k with
    | some name => return [.part name none]
    | none => term false literal

def terms : List Term → Except Defect (List Print)
  | [] => return []
  | [t] => term false t
  | t :: ts => return (← term false t) ++ [.part ", " none] ++ (← terms ts)

def entries (span : Option SourceSpan) : List (MapKey × Term) → Except Defect (List Print)
  | [] => return []
  | (k, t) :: ts => do
    let front := Print.part (escapeIdentifier k.name style.escapeDollar k.quoted ++ ": ") span
    let value ← term false t
    match ts with
    | [] => return [front] ++ value
    | _ => return [front] ++ value ++ [.part ", " none] ++ (← entries span ts)

/-- A statement on lines of its own. -/
def stmt : Stmt → Except Defect (List Print)
  | .declare s mods name none =>
    return declaration s mods name ++ [.part ";" s, .newline]
  | .declare s mods name (some v) =>
    return declaration s mods name ++ [.part " = " s] ++ (← term true v) ++ [.part ";" s, .newline]
  | .function s mods name ps body =>
    return exported s mods ++ [.part ("function " ++ name ++ "(") s, params ps,
      .part (") " ++ openBrace) s, .newline] ++ indented (← stmts body)
      ++ [.part closeBrace s, .newline]
  | .expr s t => return (← term true t) ++ [.part ";" s, .newline]
  | .ret s t => return [.part "return " s] ++ (← term true t) ++ [.part ";" s, .newline]
  | .branch s c yes no => do
    let front := [.part "if (" s] ++ (← term true c) ++ [.part (") " ++ openBrace) s, .newline]
      ++ indented (← stmts yes)
    let other ← stmts no
    let middle : List Print :=
      if no.isEmpty then []
      else [.part (closeBrace ++ " else " ++ openBrace) s, .newline] ++ indented other
    return front ++ middle ++ [.part closeBrace s, .newline]
where
  exported (s : Option SourceSpan) (mods : Modifiers) : List Print :=
    if mods.exported then [.part "export " s] else []
  declaration (s : Option SourceSpan) (mods : Modifiers) (name : Text) : List Print :=
    exported s mods ++ [.part (if mods.final then "const " else "var ") s, .part name s]

/-- Statements one after the other. -/
def stmts : List Stmt → Except Defect (List Print)
  | [] => return []
  | s :: ss => return (← stmt s) ++ (← stmts ss)

end

end Emit

def Term.text (t : Term) (names : Names := Names.empty) : Except Defect Text :=
  return ((Page.start 0).run (← Emit.term { names } true t)).source

def Stmt.page (ss : List Stmt) (style : Style := {}) : Except Defect Page :=
  return (Page.start 0).run (← Emit.stmts style ss)

def Stmt.text (ss : List Stmt) (names : Names := Names.empty) : Except Defect Text :=
  return (← Stmt.page ss { names }).source

end TemplateCompiler
