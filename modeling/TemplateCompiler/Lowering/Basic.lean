import TemplateCompiler.Lowering.Builtin
import TemplateCompiler.Lowering.Temporary
import TemplateCompiler.Expr.Printer

/-!
# Lowering expressions

A binding expression becomes a term of the generated code. The `Host` supplies what lies outside
the expression: the code for the component context, the locals in scope, and the code for builtins
and interpolations.

Safe accesses are the difficult part. The *spine* of an access is the chain of receivers below it;
arguments and keys are not part of it. If there are safe accesses on the spine, the whole access
becomes

    guard₁ == null ? null : guard₂ == null ? null : … access

with one guard for the receiver of each safe access, the innermost first. A guard that may have an
effect is computed once, into a temporary that the rest reads. So lowering a spine has two parts:
the list of its guards, and its *plain* code, which takes the temporaries of the guards (`Pins`)
and does not guard anything.
-/

namespace TemplateCompiler

/-- What a name is found to stand for. -/
inductive Found where
  /-- The component context itself, whose members may be locals again. -/
  | context
  | term (t : Term)

/-- Code with what tells it from other code that is written the same: whether it is the component
context itself. Only then a member may be a local. -/
structure Lowered where
  code : Term
  isContext : Bool := false

/-- The code of what was found, given the code for the component context. -/
def Found.made (context : Term) : Found → Lowered
  | .context => ⟨context, true⟩
  | .term t => ⟨t, false⟩

/-- What lies outside the expressions, with a state that lookups may change. -/
structure Host (σ : Type) where
  /-- The code for the component context. -/
  context : Term
  /-- The local of a name. -/
  lookup : Text → StateM σ (Option Found)
  /-- Told once about a binding that uses the context. -/
  notify : StateM σ Unit
  /-- The code of a builtin. -/
  builtin : Builtin → List Term → ExceptT Failure (StateM σ) Term
  /-- The code of an interpolation, from its count, texts and values. -/
  interpolate : List Term → Except Failure Term

/-- The state of lowering one binding. -/
structure Lowering (σ : Type) where
  host : σ
  temporaries : TemporaryStack
  usesContext : Bool := false

/-- A step of lowering. A failure keeps the state it left. -/
abbrev Lower (σ : Type) := ExceptT Failure (StateM (Lowering σ))

namespace Lower

variable {σ : Type}

def onHost {α : Type} (step : StateM σ α) : Lower σ α := do
  let s ← get
  let (a, host) := step.run s.host
  set { s with host }
  return a

def onHostE {α : Type} (step : ExceptT Failure (StateM σ) α) : Lower σ α := do
  match ← onHost step.run with
  | .ok a => return a
  | .error f => throw f

def printed (e : Expr) : Lower σ Text :=
  match e.print with
  | .ok t => return t
  | .error d => throw (.defect d)

def allocate : Lower σ Temporary := do
  let s ← get
  let (t, temporaries) := s.temporaries.allocate
  set { s with temporaries }
  return t

def release (t : Temporary) : Lower σ Unit := do
  let s ← get
  match s.temporaries.release t with
  | .ok temporaries => set { s with temporaries }
  | .error e => throw (.error e)

end Lower

/-- The operators an expression may use. -/
def sourceOperator? (t : Text) : Option Operator :=
  match Operator.ofText? t with
  | some .bitAnd => none
  | some .assign => none
  | o => o

namespace Expr

mutual

/-- Whether computing an expression twice may differ from computing it once. -/
def needsTemporary : Expr → Bool
  | binary _ _ l r => l.needsTemporary || r.needsTemporary
  | conditional _ c y n => c.needsTemporary || y.needsTemporary || n.needsTemporary
  | interpolation _ _ es => anyNeedsTemporary es
  | not _ e => e.needsTemporary
  | present _ e => e.needsTemporary
  | call .. | builtin .. | method .. | safeMethod .. | pipe .. | array .. | map .. => true
  | chain .. | context .. | index .. | indexWrite .. | literal .. | read .. | write .. | safeRead ..
  | quote .. => false

/-- Whether computing one of the expressions twice may differ from computing it once. -/
def anyNeedsTemporary : List Expr → Bool
  | [] => false
  | e :: es => e.needsTemporary || anyNeedsTemporary es

end

end Expr

/-- The temporaries that hold the receivers of the safe accesses of a spine, the innermost first;
`none` for a receiver that is computed again. -/
abbrev Pins := List (Option Term)

/-- The receiver of a safe access. -/
structure Guard (σ : Type) where
  /-- Its code, given the temporaries of the safe accesses further in. -/
  receiver : Pins → Lower σ Lowered
  needsTemporary : Bool

/-- An access with the guards it needs. -/
structure Spine (σ : Type) where
  guards : List (Guard σ)
  plain : Pins → Lower σ Lowered

/-- Code that is not the component context, however it is written. -/
def Lower.fresh {σ : Type} (code : Lower σ Term) : Lower σ Lowered := do return ⟨← code, false⟩

def Lower.code {σ : Type} (made : Lower σ Lowered) : Lower σ Term := do return (← made).code

namespace Spine

variable {σ : Type}

def leaf (code : Lower σ Term) : Spine σ := ⟨[], fun _ => code.fresh⟩

/-- Code under guards, the first of which is outermost. -/
def guarded (access : Pins → Lower σ Lowered) : List (Guard σ) → Pins → Lower σ Lowered
  | [], pins => access pins
  | g :: gs, pins => do
    let receiver ← g.receiver pins
    if g.needsTemporary then
      let t ← Lower.allocate
      let made ← guarded access gs (pins ++ [some (.ofVar t.name)])
      Lower.release t
      return ⟨.choose (.isBlank (.set (.ofVar t.name) receiver.code)) .null (some made.code), false⟩
    else
      let made ← guarded access gs (pins ++ [none])
      return ⟨.choose (.isBlank receiver.code) .null (some made.code), false⟩

def made (s : Spine σ) : Lower σ Lowered := guarded s.plain s.guards []

/-- The code of an access with its guards. -/
def lower (s : Spine σ) : Lower σ Term := s.made.code

/-- The receiver of a safe access over the spine `s`: its temporary, if it has one. -/
def pinned (s : Spine σ) (pins : Pins) : Lower σ Lowered :=
  match pins[s.guards.length]? with
  | some (some t) => return ⟨t, false⟩
  | _ => s.plain pins

def safeGuards (s : Spine σ) (receiver : Expr) : List (Guard σ) :=
  s.guards ++ [⟨s.plain, receiver.needsTemporary⟩]

end Spine

namespace Expr

variable {σ : Type} (host : Host σ)

/-- Whether a call `receiver.name(…)` erases the type of its argument. -/
def isErasure (receiver : Expr) (name : Text) : Bool := receiver.isContext && name == "$any"

def contextCode : Lower σ Lowered := do
  modify fun s => { s with usesContext := true }
  return ⟨host.context, true⟩

/-- The local that a member of `receiver` is, if the receiver is the context. A local does not use
the context, so what was known before about its use is restored. -/
def localOf (receiver : Lowered) (name : Text) (usedBefore : Bool) : Lower σ (Option Lowered) := do
  if receiver.isContext then
    match ← Lower.onHost (host.lookup name) with
    | some found =>
      modify fun s => { s with usesContext := usedBefore }
      return some (found.made host.context)
    | none => return none
  else return none

/-- A property read, given its receiver. -/
def readCode (name : Text) (receiver : Lower σ Lowered) : Lower σ Lowered := do
  let usedBefore := (← get).usesContext
  let r ← receiver
  match ← localOf host r name usedBefore with
  | some made => return made
  | none => return ⟨.prop {} r.code name, false⟩

/-- A method call, given the code of its arguments and its receiver. -/
def methodCode (place : Place) (receiver : Expr) (name : Text) (args : Lower σ (List Term))
    (made : Lower σ Lowered) : Lower σ Term := do
  let args ← args
  if isErasure receiver name then
    match args with
    | [a] => return .erased a
    | _ => throw (.inRange place.span (.anyArguments args.length))
  else
    let usedBefore := (← get).usesContext
    let r ← made
    match ← localOf host r name usedBefore with
    | some f => return .apply f.code args
    | none => return .applyMethod r.code name args

/-- The message value of an assignment to a local. -/
def assignedText : Expr → Lower σ Text
  | e => do
    let t ← Lower.printed e
    match e with
    | read _ _ name => return name
    | _ => return t

/-- The target of an assignment to a member: a property of the receiver, or a local that stands for
a property. -/
def targetCode (place : Place) (name : Text) (value : Expr) (receiver : Lower σ Lowered) :
    Lower σ Term := do
  let usedBefore := (← get).usesContext
  let r ← receiver
  if r.isContext then
    let found ← Lower.onHost (host.lookup name)
    match found.map (Found.made host.context) with
    | some ⟨.prop n t m, _⟩ =>
      modify fun s => { s with usesContext := usedBefore }
      return .prop n t m
    | some _ => throw (.inRange place.span (.readOnly (← assignedText value) name))
    | none => return .prop {} r.code name
  else return .prop {} r.code name

/-- The arguments of an interpolation: texts and values in turn. -/
def interpolationArgs : List Text → List Term → List Term
  | t :: ts, v :: vs => .ofText t :: v :: interpolationArgs ts vs
  | t :: _, [] => [.ofText t]
  | [], _ => []

mutual

/-- The guards and the plain code of an expression. -/
def spine : Expr → Spine σ
  | context _ => ⟨[], fun _ => contextCode host⟩
  | e@(chain ..) => .leaf do throw (.illegal (.notStatement (← Lower.printed e)))
  | conditional _ c y n =>
    .leaf do
      let c ← c.spine.lower
      let y ← y.spine.lower
      let n ← n.spine.lower
      return .choose c y (some n)
  | read _ r name =>
    let s := r.spine
    ⟨s.guards, fun pins => readCode host name (s.plain pins)⟩
  | safeRead _ r name =>
    let s := r.spine
    ⟨s.safeGuards r, fun pins => readCode host name (s.pinned pins)⟩
  | write place r name v =>
    .leaf do
      let target ← targetCode host place name v r.spine.made
      return .set target (← v.spine.lower)
  | index _ o k =>
    let s := o.spine
    ⟨s.guards, fun pins => .fresh do
      let o ← s.plain pins
      return .key {} o.code (← k.spine.lower)⟩
  | indexWrite _ o k v =>
    .leaf do
      let o ← o.spine.lower
      let k ← k.spine.lower
      return .set (.key {} o k) (← v.spine.lower)
  | method place r name args =>
    let s := r.spine
    ⟨s.guards, fun pins => (methodCode host place r name (lowerAll args) (s.plain pins)).fresh⟩
  | safeMethod place r name args =>
    let s := r.spine
    ⟨s.safeGuards r, fun pins => (methodCode host place r name (lowerAll args) (s.pinned pins)).fresh⟩
  | call _ t args =>
    .leaf do
      let args ← lowerAll args
      return .apply (← t.spine.lower) args
  | binary _ o l r =>
    .leaf do
      match sourceOperator? o with
      | none => throw (.illegal (.unsupportedOperator o))
      | some op =>
        let l ← l.spine.lower
        return .operation op l (← r.spine.lower)
  | not _ e => .leaf do return .negate (← e.spine.lower)
  | present _ e => .leaf do return .assertPresent (← e.spine.lower)
  | literal _ v => .leaf do return .ofValue v
  | array .. => .leaf (throw (.illegal .unconvertedArray))
  | map .. => .leaf (throw (.illegal .unconvertedMap))
  | interpolation place ts es =>
    .leaf do
      if ts.length ≠ es.length + 1 then
        throw (.illegal (.interpolationShape es.length ts.length))
      let values ← lowerAll es
      match host.interpolate (.ofNat es.length :: interpolationArgs ts values) with
      | .ok t => return t
      | .error f => throw (f.locateRange place.span)
  | pipe _ _ name _ => .leaf (throw (.illegal (.unconvertedPipe name)))
  | quote place _ text location => .leaf (throw (.inRange place.span (.quote text location)))
  | builtin _ kind args => .leaf do Lower.onHostE (host.builtin kind (← lowerAll args))

/-- The code of expressions from left to right. -/
def lowerAll : List Expr → Lower σ (List Term)
  | [] => return []
  | e :: es => do
    let t ← e.spine.lower
    return t :: (← lowerAll es)

end

def lower (e : Expr) : Lower σ Term := (e.spine host).lower

mutual

/-- The statements of an event handler: one for each item of a chain. -/
def lowerStatements : Expr → Lower σ (List Stmt)
  | chain _ es => lowerAllStatements es
  | e@(context _) => do throw (.illegal (.notExpression (← Lower.printed e)))
  | e@(interpolation ..) => do throw (.illegal (.notExpression (← Lower.printed e)))
  | e => do return [.ofTerm (← e.lower host)]

/-- The statements of expressions one after the other. -/
def lowerAllStatements : List Expr → Lower σ (List Stmt)
  | [] => return []
  | e :: es => do
    let ss ← lowerStatements e
    return ss ++ (← lowerAllStatements es)

end

end Expr

end TemplateCompiler
