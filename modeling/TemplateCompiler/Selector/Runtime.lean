import TemplateCompiler.Selector.Parser

/-!
# Selectors at run time

A selector in the generated code is one flat list of texts and flags: the element name, which is
empty for any element, attribute names and values in turn, a flag and the class names. The
negations follow, each after flags that say what it starts with.
-/

namespace TemplateCompiler

/-- An entry of a flat selector. -/
inductive RuntimeEntry where
  | text (t : Text)
  | flags (n : Nat)
  deriving DecidableEq, Repr

namespace RuntimeEntry

def notFlag : Nat := 1
def attributeFlag : Nat := 2
def elementFlag : Nat := 4
def classFlag : Nat := 8

end RuntimeEntry

open RuntimeEntry

namespace Compound

/-- Attribute names and values in turn. -/
def flatAttrs (c : Compound) : List RuntimeEntry := c.attrs.flatMap fun (n, v) => [.text n, .text v]

def flatClasses (c : Compound) : List RuntimeEntry := c.classes.map .text

/-- The class names after their flag, if there are any. -/
def flaggedClasses (c : Compound) : List RuntimeEntry :=
  if c.classes.isEmpty then [] else .flags classFlag :: c.flatClasses

def positive (c : Compound) : List RuntimeEntry :=
  .text (if c.element == "*" then [] else c.element) :: c.flatAttrs ++ c.flaggedClasses

/-- The entries of a negation; an empty one has none. -/
def negative (c : Compound) : List RuntimeEntry :=
  if !c.element.isEmpty then
    .flags (notFlag + elementFlag) :: .text c.element :: c.flatAttrs ++ c.flaggedClasses
  else if !c.attrs.isEmpty then
    .flags (notFlag + attributeFlag) :: c.flatAttrs ++ c.flaggedClasses
  else if !c.classes.isEmpty then .flags (notFlag + classFlag) :: c.flatClasses
  else []

end Compound

def Selector.flat (s : Selector) : List RuntimeEntry :=
  s.positive ++ s.nots.flatMap Compound.negative

/-- The flat selectors of a list; the empty text has none. -/
def parseRuntimeSelectors (text : Text) : Except SelectorError (List (List RuntimeEntry)) :=
  if text.isEmpty then return [] else return (← parseSelectors text).map Selector.flat

end TemplateCompiler
