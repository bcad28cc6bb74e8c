import TemplateCompiler.Lowering.Binding

/-!
# Instructions

The functions of the runtime that generated templates call. Some come in one version for each
number of arguments, up to a limit, and a last one that takes them in an array.
-/

namespace TemplateCompiler

/-- A function of the runtime. -/
inductive Instruction where
  | namespaceHtml
  | namespaceMath
  | namespaceSvg
  | element
  | elementStart
  | elementEnd
  | containerStart
  | containerEnd
  | elementProperty
  | elementAttr
  | elementClass
  | elementStyle
  | container
  | text
  | textBinding
  | bind
  | interpolation (count : Int)
  | projection
  | projectionDef
  | listener
  | load
  | pipe
  | pipeBind (count : Int)
  | pureFunction (count : Int)
  | reserveSlots
  | query
  | queryRefresh
  | resolveForwardRef
  deriving DecidableEq, Repr

namespace Instruction

/-- The count in the name of an instruction, or `V` outside of the bounds. -/
def arity (lo hi count : Int) : Text := if lo ≤ count ∧ count ≤ hi then Text.ofInt count else "V"

def maxInterpolation : Nat := 8

def maxPureFunction : Nat := 8

def maxPipeBind : Nat := 4

def name : Instruction → Text
  | namespaceHtml => "ɵɵnamespaceHTML"
  | namespaceMath => "ɵɵnamespaceMathML"
  | namespaceSvg => "ɵɵnamespaceSVG"
  | element => "ɵɵelement"
  | elementStart => "ɵɵelementStart"
  | elementEnd => "ɵɵelementEnd"
  | containerStart => "ɵɵelementContainerStart"
  | containerEnd => "ɵɵelementContainerEnd"
  | elementProperty => "ɵɵelementProperty"
  | elementAttr => "ɵɵelementAttribute"
  | elementClass => "ɵɵelementClassProp"
  | elementStyle => "ɵɵelementStyleProp"
  | container => "ɵɵcontainer"
  | text => "ɵɵtext"
  | textBinding => "ɵɵtextBinding"
  | bind => "ɵɵbind"
  | interpolation n => "ɵɵinterpolation" ++ arity 1 maxInterpolation n
  | projection => "ɵɵprojection"
  | projectionDef => "ɵɵprojectionDef"
  | listener => "ɵɵlistener"
  | load => "ɵɵload"
  | pipe => "ɵɵpipe"
  | pipeBind n => "ɵɵpipeBind" ++ arity 1 maxPipeBind n
  | pureFunction n => "ɵɵpureFunction" ++ arity 0 maxPureFunction n
  | reserveSlots => "ɵɵreserveSlots"
  | query => "ɵɵquery"
  | queryRefresh => "ɵɵqueryRefresh"
  | resolveForwardRef => "resolveForwardRef"

def call (i : Instruction) (args : List Term) (span : Option SourceSpan := none) : Term :=
  .apply (.imported coreModule i.name) args span

def stmt (i : Instruction) (args : List Term) (span : Option SourceSpan := none) : Stmt :=
  .ofTerm (i.call args span)

/-- The arguments one by one, or in an array if there are more than `limit`. -/
def spread (limit : Nat) (args : List Term) : List Term :=
  if limit < args.length then [.ofList args] else args

end Instruction

/-! ### Interpolations -/

/-- The texts and values of an interpolation, which are an odd number of at least three; the count
before them is dropped. -/
def interpolationValues (args : List Term) : Except Failure (List Term) :=
  let values := args.drop 1
  if values.length < 3 || values.length % 2 == 0 then
    throw (.of (.interpolationLength values.length))
  else return values

/-- Interpolations of up to `limit` values have instructions of their own; a limit outside of the
possible ones is the largest possible. -/
def boundedInterpolation (limit : Int) (args : List Term) : Except Failure Term := do
  let max : Int := Instruction.maxInterpolation
  let limit := if limit ≤ 0 || max < limit then max else limit
  let values ← interpolationValues args
  let count : Nat := (values.length - 1) / 2
  if count ≤ limit then return (Instruction.interpolation count).call values
  else return (Instruction.interpolation 0).call [.ofList values]

/-- Interpolations always take their values in an array. -/
def variadicInterpolation (args : List Term) : Except Failure Term := do
  return (Instruction.interpolation 0).call [.ofList (← interpolationValues args)]

end TemplateCompiler
