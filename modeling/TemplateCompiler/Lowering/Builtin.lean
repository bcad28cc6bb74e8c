import TemplateCompiler.Expr.Walk
import TemplateCompiler.Fault
import TemplateCompiler.Code.Basic

/-!
# Replacing builtins

Before an expression becomes code, its pipes and literal collections are replaced by
`Expr.builtin` nodes over the same parts. A `BuiltinFactory` decides what each is replaced by; it
is asked once for every builtin, after it was asked for those inside.
-/

namespace TemplateCompiler

/-- Chooses what builtins are replaced by. -/
structure BuiltinFactory (m : Type → Type) where
  array : (count : Nat) → m Builtin
  map : (keys : List MapKey) → m Builtin
  /-- The count includes the piped value; the range is that of the pipe. -/
  pipe : (name : Text) → (count : Nat) → (range : Option Span) → m Builtin

namespace Expr

def isCollection : Expr → Bool
  | array .. | map .. | pipe .. => true
  | _ => false

/-- Whether a tree has pipes or literal collections. -/
def hasCollections (e : Expr) : Bool := (e.visited fun _ => true).any isCollection

variable {m : Type → Type} [Monad m]

/-- Replaces a node whose parts were replaced already. -/
def replaceBuiltin (factory : BuiltinFactory m) : Expr → m Expr
  | array p es => return builtin p (← factory.array es.length) es
  | map p ks vs => return builtin p (← factory.map ks) vs
  | pipe p e name args =>
    return builtin p (← factory.pipe name (args.length + 1) p.span) (e :: args)
  | e => return e

def replaceBuiltins (factory : BuiltinFactory m) (e : Expr) : m Expr :=
  e.rebuildM (replaceBuiltin factory)

/-- Replaces a node whose parts were replaced already, or gives `none` if it stays. -/
def replaceBuiltin? (factory : BuiltinFactory m) (e : Expr) : m (Option Expr) :=
  if e.isCollection then some <$> replaceBuiltin factory e else return none

/-- Replaces all builtins of a tree, or gives `none` if it has none; every subtree without builtins is
kept as it is. -/
def replaceBuiltins? (factory : BuiltinFactory m) (e : Expr) : m (Option Expr) :=
  e.changeM? (replaceBuiltin? factory)

end Expr

namespace BuiltinFactory

/-- Literal collections are written out, and there are no pipes. -/
def literal : BuiltinFactory (Except Failure) where
  array _ := return .array
  map keys := return .map keys
  pipe name _ range := throw (.inRange range (.pipeInAction name))

end BuiltinFactory

namespace Builtin

def written : Builtin → List Term → Term
  | array, args => .ofList args
  | map keys, args => .ofEntries (keys.zip args)
  | pipe slot offset, args => .ofList (.ofNat slot :: .ofNat offset :: args)
  | call function, args => .apply (.ofVar function) args

def lacksValue : Builtin → (count : Nat) → Bool
  | map keys, count => count < keys.length
  | _, _ => false

/-- Writes a builtin out. Values are taken key by key, so that each key needs one. -/
def write (kind : Builtin) (args : List Term) : Except Failure Term :=
  if kind.lacksValue args.length then throw (.defect (.missingValue args.length))
  else return kind.written args

end Builtin

end TemplateCompiler
