import TemplateCompiler.Selector.Parser

/-!
# Matching selectors

A selector asks for *features*: an element name, classes, attributes with values. A `Trie` keeps
selectors by the features they ask for, one after the other, the last of which ends the path. For
an element `Trie.hits` lists the selectors whose features the element has, in the order in which
they are found. Negations are looked at afterwards.

A list of several selectors is registered as a whole and reported at most once for an element.
-/

namespace TemplateCompiler

/-- Something a selector asks for. -/
inductive Feature where
  | element (name : Text)
  | className (name : Text)
  | attr (name value : Text)
  deriving DecidableEq, Repr

def Compound.features (c : Compound) : List Feature :=
  (if c.element.isEmpty then [] else [.element c.element])
    ++ c.classes.map .className ++ c.attrs.map fun (n, v) => .attr n v

namespace Feature

/-- The features of selectors that a feature of an element answers: itself, and for an attribute
with a value also the attribute alone. -/
def answers : Feature → List Feature
  | attr n v => if v.isEmpty then [attr n v] else [attr n [], attr n v]
  | f => [f]

def wildcard : Feature → Feature
  | element _ => element "*"
  | className _ => className "*"
  | attr n _ => attr n "*"

end Feature

/-- A registered selector. -/
structure Registered (α : Type) where
  selector : Selector
  value : α
  /-- The list it was registered with, if that has several selectors. -/
  group : Option Nat

/-- Values by paths of features. -/
inductive Trie (α : Type) where
  /-- The values whose path ends with a feature, and the paths that go on. -/
  | node (ends : List (Feature × List α)) (more : List (Feature × Trie α))

namespace Trie

variable {α : Type}

def empty : Trie α := node [] []

def addEnd (f : Feature) (a : α) : List (Feature × List α) → List (Feature × List α)
  | [] => [(f, [a])]
  | (g, as) :: rest => if g = f then (g, as ++ [a]) :: rest else (g, as) :: addEnd f a rest

def changeMore (f : Feature) (change : Trie α → Trie α) :
    List (Feature × Trie α) → List (Feature × Trie α)
  | [] => [(f, change empty)]
  | (g, t) :: rest => if g = f then (g, change t) :: rest else (g, t) :: changeMore f change rest

/-- Adds a value under a path. Nothing is kept under the empty path. -/
def insert (a : α) : List Feature → Trie α → Trie α
  | [], t => t
  | [f], node ends more => node (addEnd f a ends) more
  | f :: fs, node ends more => node ends (changeMore f (insert a fs) more)

/-- The values whose path ends with a feature. -/
def endsAt (ends : List (Feature × List α)) (f : Feature) : List α := (ends.lookup f).getD []

/-- The values that end here with an answer to a feature. -/
def endHits (ends : List (Feature × List α)) (f : Feature) : List α :=
  f.answers.flatMap fun g => endsAt ends g ++ endsAt ends f.wildcard

mutual

/-- The values whose path asks for features of a subject, in the order of the subject's features.
Where a path goes on, all features of the subject are looked at again. -/
def hits (subject : List Feature) : Trie α → List α
  | node ends more =>
    subject.flatMap fun f =>
      endHits ends f ++ f.answers.flatMap fun g => hitsBelow subject g more

def hitsBelow (subject : List Feature) (f : Feature) : List (Feature × Trie α) → List α
  | [] => []
  | (g, t) :: rest => if g = f then hits subject t else hitsBelow subject f rest

end

end Trie

def anyHolds (compounds : List Compound) (subject : Compound) : Bool :=
  let trie := compounds.foldl (fun t c => Trie.insert () c.features t) Trie.empty
  !(trie.hits subject.features).isEmpty

/-- Registered selectors. -/
structure Matcher (α : Type) where
  trie : Trie (Registered α) := .empty
  /-- How many lists of several selectors were registered. -/
  groups : Nat := 0
  /-- The lists that the latest match marked as reported. -/
  marks : List Nat := []

/-- What is known after some hits: whether there was a match, the lists marked as reported, and the
reports in order. -/
structure MatchReport (α : Type) where
  matched : Bool := false
  groups : List Nat := []
  reports : List (Selector × α) := []

namespace Matcher

variable {α : Type}

def add (selectors : List Selector) (value : α) (m : Matcher α) : Matcher α :=
  let several := 1 < selectors.length
  let group := if several then some m.groups else none
  { m with
    trie := selectors.foldl (fun t s => t.insert ⟨s, value, group⟩ s.features) m.trie
    groups := if several then m.groups + 1 else m.groups }

/-- Judges a hit: its list must not have been reported, and no negation may hold. The hit of a list
that was reported counts as a match but is not reported again. Unless `reporting` is set no one is
told, and no list is marked. -/
def judge (reporting : Bool) (subject : Compound) (r : MatchReport α) (hit : Registered α) :
    MatchReport α :=
  if hit.group.any r.groups.contains then { r with matched := true }
  else if !hit.selector.nots.isEmpty && anyHolds hit.selector.nots subject then r
  else if !reporting then { r with matched := true }
  else
    { matched := true
      groups := hit.group.toList ++ r.groups
      reports := r.reports ++ [(hit.selector, hit.value)] }

/-- The marks that a match starts with: those of its own lists are taken off. -/
def cleared (m : Matcher α) : List Nat := m.marks.filter (m.groups ≤ ·)

/-- Matches a subject against all registered selectors. -/
def run (subject : Compound) (m : Matcher α) (reporting : Bool := true) : MatchReport α :=
  (m.trie.hits subject.features).foldl (judge reporting subject) { groups := m.cleared }

def marked (subject : Compound) (m : Matcher α) (reporting : Bool := true) : Matcher α :=
  { m with marks := (m.run subject reporting).groups }

/-- The values of the selectors that hold for an element. -/
def values (name : Text) (attributes : List (Text × Text)) (m : Matcher α) : List α :=
  (m.run (.ofElement name attributes)).reports.map (·.2)

end Matcher

end TemplateCompiler
