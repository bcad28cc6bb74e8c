import TemplateCompiler.Code.Basic
import TemplateCompiler.Fault

/-!
# Temporaries

A value that is needed twice is computed once into a temporary variable. The temporaries of a
binding form a stack: the one made last is released first, and the variable of a released one is
used again by the next. So a binding declares as many variables as were ever live together.

`Workbench` holds several stacks side by side, with all temporaries ever made on any of them.
-/

namespace TemplateCompiler

/-- A temporary variable. -/
structure Temporary where
  /-- How many temporaries its stack had made before. -/
  serial : Nat
  /-- How many temporaries were live below it. -/
  ordinal : Nat
  name : Text
  deriving DecidableEq, Repr

/-- The temporaries of one binding. -/
structure TemporaryStack where
  binding : Text
  /-- The live temporaries, the latest first. -/
  live : List Temporary := []
  /-- The most temporaries that were ever live together. -/
  count : Nat := 0
  /-- How many temporaries were made so far. -/
  made : Nat := 0
  deriving DecidableEq, Repr

namespace TemporaryStack

def nameOf (binding : Text) (depth : Nat) : Text :=
  "tmp_" ++ binding ++ "_" ++ Text.ofNat depth

def depth (s : TemporaryStack) : Nat := s.live.length

def allocate (s : TemporaryStack) : Temporary × TemporaryStack :=
  let t : Temporary := ⟨s.made, s.depth, nameOf s.binding s.depth⟩
  (t, { s with live := t :: s.live, count := max s.count (s.depth + 1), made := s.made + 1 })

def release (t : Temporary) (s : TemporaryStack) : Except CompileError TemporaryStack :=
  match s.live with
  | top :: below =>
    if top = t then .ok { s with live := below }
    else .error { cause := .releasedOutOfOrder t.name, internal := true }
  | [] => .error { cause := .releasedOutOfOrder t.name, internal := true }

/-- The declarations of all variables ever used. -/
def declarations (s : TemporaryStack) : List Stmt :=
  (List.range s.count).map fun n => .declare none {} (nameOf s.binding n) none

end TemporaryStack

/-- Several stacks, and all temporaries made so far with the stack they belong to. -/
structure Workbench where
  members : List TemporaryStack := []
  handles : List (Nat × Temporary) := []
  deriving DecidableEq, Repr

namespace Workbench

def addStack (binding : Text) (w : Workbench) : Nat × Workbench :=
  (w.members.length, { w with members := w.members ++ [{ binding }] })

def allocate (stack : Nat) (w : Workbench) : Option (Nat × Temporary × Workbench) := do
  let s ← w.members[stack]?
  let (t, s) := s.allocate
  return (w.handles.length, t, ⟨w.members.set stack s, w.handles ++ [(stack, t)]⟩)

def isReleased (owner : Nat) (t : Temporary) (w : Workbench) : Bool :=
  match w.members[owner]? with
  | some s => !s.live.contains t
  | none => true

/-- Releases a temporary from a stack, which must be its own. -/
def release (stack handle : Nat) (w : Workbench) : Option (Except CompileError Workbench) := do
  let s ← w.members[stack]?
  let (owner, t) ← w.handles[handle]?
  return if owner = stack then
      (s.release t).map fun s => { w with members := w.members.set stack s }
    else .error { cause := .releasedOutOfOrder t.name, internal := true }

/-- Reads a temporary that is still live. -/
def read (handle : Nat) (w : Workbench) : Option (Except CompileError Term) := do
  let (owner, t) ← w.handles[handle]?
  return if w.isReleased owner t then
      .error { cause := .usedAfterRelease t.name, internal := true }
    else .ok (.ofVar t.name)

end Workbench

end TemplateCompiler
