import TemplateCompiler.Source
import TemplateCompiler.Primitive

/-!
# Generated code

`Term` is an expression and `Stmt` a statement of the code the compiler writes. Each carries the
span of the source it was made from.

A `Term.pooled` stands for a literal that a pool of constants keeps under a key. It is the literal
itself until the pool declares a constant for the key, and that constant afterwards; what it
currently is depends on the names the pool has given (`Names`).
-/

namespace TemplateCompiler

/-- The static types of terms. -/
inductive TermType where
  | dynamic
  | bool
  | string
  | number
  | function
  | inferred
  | none
  deriving DecidableEq, Repr

/-- The operators of binary terms. -/
inductive Operator where
  | equals
  | notEquals
  | identical
  | notIdentical
  | minus
  | plus
  | divide
  | multiply
  | modulo
  | and
  | or
  | bitAnd
  | lower
  | lowerEquals
  | bigger
  | biggerEquals
  | assign
  /-- An operator that cannot be written. -/
  | unknown
  deriving DecidableEq, Repr

def Operator.text? : Operator → Option Text
  | equals => some "=="
  | notEquals => some "!="
  | identical => some "==="
  | notIdentical => some "!=="
  | minus => some "-"
  | plus => some "+"
  | divide => some "/"
  | multiply => some "*"
  | modulo => some "%"
  | and => some "&&"
  | or => some "||"
  | bitAnd => some "&"
  | lower => some "<"
  | lowerEquals => some "<="
  | bigger => some ">"
  | biggerEquals => some ">="
  | assign => some "="
  | unknown => none

def Operator.all : List Operator :=
  [equals, notEquals, identical, notIdentical, minus, plus, divide, multiply, modulo, and, or,
    bitAnd, lower, lowerEquals, bigger, biggerEquals, assign]

/-- The operator that is written in the given way. -/
def Operator.ofText? (t : Text) : Option Operator := all.find? fun o => o.text? == some t

/-- The static type of a term and the source it was made from. -/
structure Note where
  type : Option TermType := none
  span : Option SourceSpan := none
  deriving DecidableEq, Repr

/-- The modifiers of a declaration. -/
structure Modifiers where
  final : Bool := false
  exported : Bool := false
  deriving DecidableEq, Repr

mutual

/-- An expression of the generated code. -/
inductive Term where
  | var (note : Note) (name : Text)
  | lit (note : Note) (value : Primitive)
  | array (note : Note) (entries : List Term)
  | map (note : Note) (entries : List (MapKey × Term))
  | prop (note : Note) (receiver : Term) (name : Text)
  | key (note : Note) (receiver index : Term)
  | call (note : Note) (function : Term) (args : List Term) (pure : Bool)
  | binary (note : Note) (operator : Operator) (lhs rhs : Term)
  | not (note : Note) (operand : Term)
  | present (note : Note) (operand : Term)
  | cast (note : Note) (operand : Term)
  | cond (note : Note) (condition yes : Term) (no : Option Term)
  /-- A symbol of another module. -/
  | external (note : Note) (module name : Text)
  | function (note : Note) (params : List Text) (body : List Stmt) (name : Text)
  /-- A literal that a pool keeps under `key`. -/
  | pooled (key : Text) (literal : Term)

/-- A statement of the generated code. -/
inductive Stmt where
  | declare (span : Option SourceSpan) (mods : Modifiers) (name : Text) (value : Option Term)
  | function (span : Option SourceSpan) (mods : Modifiers) (name : Text) (params : List Text)
    (body : List Stmt)
  | expr (span : Option SourceSpan) (value : Term)
  | ret (span : Option SourceSpan) (value : Term)
  | branch (span : Option SourceSpan) (condition : Term) (yes no : List Stmt)

end

instance : Inhabited Term := ⟨.lit {} .null⟩

instance : Inhabited Stmt := ⟨.expr none default⟩

/-- The constants a pool has declared, by the key of the literal they hold. -/
abbrev Names := Text → Option Text

/-- The names of a pool without constants. -/
def Names.empty : Names := fun _ => none

namespace Term

/-- The type and span of a term. A pooled literal has those of the literal. -/
def note : Term → Note
  | var n _ | lit n _ | array n _ | map n _ | prop n _ _ | key n _ _ | call n _ _ _
  | binary n _ _ _ | not n _ | present n _ | cast n _ | cond n _ _ _ | external n _ _
  | function n _ _ _ => n
  | pooled _ t => t.note

def type (t : Term) : Option TermType := t.note.type

def span (t : Term) : Option SourceSpan := t.note.span

/-- The name of a term's kind in messages. -/
def typeName : Term → Text
  | var .. => "*output.ReadVarExpr"
  | lit .. => "*output.LiteralExpr"
  | array .. => "*output.LiteralArrayExpr"
  | map .. => "*output.LiteralMapExpr"
  | prop .. => "*output.ReadPropExpr"
  | key .. => "*output.ReadKeyExpr"
  | call .. => "*output.InvokeFunctionExpr"
  | binary .. => "*output.BinaryOperatorExpr"
  | not .. => "*output.NotExpr"
  | present .. => "*output.AssertNotNullExpr"
  | cast .. => "*output.CastExpr"
  | cond .. => "*output.ConditionalExpr"
  | external .. => "*output.ExternalExpr"
  | function .. => "*output.FunctionExpr"
  | pooled .. => "*pool.FixupExpression"

/-! ### Making terms -/

def ofVar (name : Text) : Term := var {} name

def ofValue (value : Primitive) : Term := lit {} value

def ofText (t : Text) : Term := ofValue (.text t)

/-- A literal whole number. -/
def ofNat (n : Nat) : Term := ofValue (.int n)

def null : Term := ofValue .null

def ofList (entries : List Term) : Term := array {} entries

def ofEntries (entries : List (MapKey × Term)) : Term := map {} entries

def imported (module name : Text) : Term := external {} module name

def apply (function : Term) (args : List Term) (span : Option SourceSpan := none) : Term :=
  call { span } function args false

def applyMethod (receiver : Term) (name : Text) (args : List Term)
    (span : Option SourceSpan := none) : Term :=
  call { span } (prop { span } receiver name) args false

/-- An operation; its type is that of the left operand unless given. -/
def operation (op : Operator) (lhs rhs : Term) (note : Note := {}) : Term :=
  binary { note with type := note.type.or lhs.type } op lhs rhs

/-- Assigns a value to a variable, property or keyed entry. -/
def set (target value : Term) : Term := operation .assign target value { span := target.span }

/-- Whether a value is null or undefined. -/
def isBlank (t : Term) : Term := operation .equals t null { type := some .bool }

def negate (t : Term) (span : Option SourceSpan := none) : Term :=
  not { type := some .bool, span } t

def assertPresent (t : Term) (span : Option SourceSpan := none) : Term :=
  present { type := t.type, span } t

/-- A term without its static type. -/
def erased (t : Term) : Term := cast { type := some .dynamic } t

/-- A conditional; its type is that of the first outcome unless given. -/
def choose (condition yes : Term) (no : Option Term) (note : Note := {}) : Term :=
  cond { note with type := note.type.or yes.type } condition yes no

def isAssignment : Term → Bool
  | binary _ .assign _ _ => true
  | _ => false

/-! ### Constants -/

mutual

/-- Whether a term is a literal through and through. -/
def isConstant : Term → Bool
  | lit .. => true
  | pooled .. => true
  | array _ entries => allConstant entries
  | map _ entries => allConstantEntries entries
  | _ => false

def allConstant : List Term → Bool
  | [] => true
  | t :: ts => t.isConstant && allConstant ts

def allConstantEntries : List (MapKey × Term) → Bool
  | [] => true
  | (_, t) :: ts => t.isConstant && allConstantEntries ts

end

end Term

namespace Stmt

/-- The source a statement was made from. -/
def span : Stmt → Option SourceSpan
  | declare s _ _ _ | function s _ _ _ _ | expr s _ | ret s _ | branch s _ _ _ => s

def ofTerm (t : Term) : Stmt := expr t.span t

def const (name : Text) (value : Term) : Stmt := declare none { final := true } name (some value)

/-- A condition without an else branch. -/
def when (condition : Term) (yes : List Stmt) : Stmt := branch none condition yes []

end Stmt

end TemplateCompiler
