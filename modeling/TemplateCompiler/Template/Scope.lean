import TemplateCompiler.Lowering.Binding

/-!
# Scopes

The scopes of one compilation form a `ScopeTree`. A scope binds names to variables of the generated
code. A variable with a value is declared when it is first needed, and there are two ways to bind
one:

* an ordinary variable is declared by every scope that reads it;
* an *owned* variable is declared by the scope that bound it, whichever scope reads it first.

A scope remembers what it found further out, so the name counts as bound there from then on.

The root binds the event. It takes no declarations, and neither do *silent* scopes.
-/

namespace TemplateCompiler

/-- What a name is bound to. -/
structure ScopeEntry where
  /-- The variable of the generated code. -/
  var : Text
  /-- What the variable is declared with, if it is declared at all. -/
  value : Option Term := none
  declared : Bool := false
  owned : Bool := false

/-- A scope of a tree. -/
structure Scope where
  /-- The enclosing scopes, the nearest first. -/
  outer : List Nat
  entries : List (Text × ScopeEntry) := []
  /-- The variables declared in this scope, in order. -/
  declarations : List (Text × Term) := []
  silent : Bool := false

namespace Scope

def entry? (name : Text) (s : Scope) : Option ScopeEntry := s.entries.lookup name

/-- Binds a name, or changes what it is bound to. -/
def put (name : Text) (e : ScopeEntry) (s : Scope) : Scope :=
  { s with entries := (name, e) :: s.entries.filter (·.1 != name) }

/-- Declares the variable of a name, unless it is declared already or has no value. -/
def declare (name : Text) (s : Scope) : Scope :=
  match s.entry? name with
  | some { var, value := some value, declared := false, owned } =>
    let s := s.put name { var, value := some value, declared := true, owned }
    if s.silent then s else { s with declarations := s.declarations ++ [(var, value)] }
  | _ => s

end Scope

/-- The scopes of a compilation; the root is the first. -/
structure ScopeTree where
  scopes : List Scope
  /-- How many fresh names were given out. -/
  fresh : Nat := 0

namespace ScopeTree

def root : ScopeTree :=
  ⟨[{ outer := [], entries := [(eventName, { var := eventName })], silent := true }], 0⟩

/-- A scope and the scopes around it, the nearest first. -/
def chain (id : Nat) (t : ScopeTree) : List Nat :=
  match t.scopes[id]? with
  | some s => id :: s.outer
  | none => []

/-- Adds a scope inside another. -/
def nest (id : Nat) (silent : Bool) (t : ScopeTree) : Nat × ScopeTree :=
  (t.scopes.length, { t with scopes := t.scopes ++ [{ outer := t.chain id, silent }] })

def change (id : Nat) (f : Scope → Scope) (t : ScopeTree) : ScopeTree :=
  { t with scopes := t.scopes.modify id f }

def entry? (id : Nat) (name : Text) (t : ScopeTree) : Option ScopeEntry :=
  t.scopes[id]?.bind (Scope.entry? name)

/-- The nearest scope from `id` outwards that binds a name. -/
def binder? (id : Nat) (name : Text) (t : ScopeTree) : Option (Nat × ScopeEntry) :=
  (t.chain id).findSome? fun i => (t.entry? i name).map (i, ·)

/-- The variable a name stands for in a scope. It is declared where it has to be, and the scope
remembers it. -/
def resolve (id : Nat) (name : Text) (t : ScopeTree) : Option Text × ScopeTree :=
  match t.binder? id name with
  | none => (none, t)
  | some (holder, e) =>
    if e.owned then
      let t := t.change holder (Scope.declare name)
      let known : ScopeEntry := { var := e.var, declared := true }
      (some e.var, if holder = id then t else t.change id (Scope.put name known))
    else
      let known : ScopeEntry := { var := e.var, value := e.value }
      let t := if holder = id then t else t.change id (Scope.put name known)
      (some e.var, t.change id (Scope.declare name))

def bind (id : Nat) (name : Text) (e : ScopeEntry) (t : ScopeTree) : Except Failure ScopeTree :=
  match t.entry? id name with
  | some existing => throw (.of (.defined name existing.var))
  | none => return t.change id (Scope.put name e)

/-- A name that no other variable of the compilation has. -/
def freshName (t : ScopeTree) : Text × ScopeTree :=
  ("_r" ++ Text.ofNat t.fresh, { t with fresh := t.fresh + 1 })

def declarations (id : Nat) (t : ScopeTree) : List Stmt :=
  match t.scopes[id]? with
  | some s => s.declarations.map fun (var, value) => .const var value
  | none => []

end ScopeTree

end TemplateCompiler
