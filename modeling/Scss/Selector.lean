import Scss.Selector.Compound

/-!
# Selectors

A selector is a chain of compounds. In front of each stands a combinator that says how its element
is reached from the element of the compound before it; the first has one only if the selector
was written with it.
-/

namespace Scss

inductive Combinator where
  | descendant
  | child
  | adjacent
  | sibling
  deriving DecidableEq, Hashable, Repr

/-- The sign of a combinator. -/
def Combinator.sign : Combinator → String
  | descendant => " "
  | child => ">"
  | adjacent => "+"
  | sibling => "~"

/-- A combinator as it is written between two compounds. -/
def Combinator.text : Combinator → String
  | descendant => " "
  | c => " " ++ c.sign ++ " "

/-- A compound and the combinator in front of it. -/
structure Segment where
  combinator : Option Combinator
  compound : Compound
  deriving DecidableEq, Hashable, Repr, Inhabited

structure Selector where
  segments : List Segment
  deriving DecidableEq, Hashable, Repr, Inhabited

namespace Selector

def ofCompound (c : Compound) : Selector := ⟨[⟨none, c⟩]⟩

/-! ## Writing -/

private def firstText (s : Segment) : String :=
  match s.combinator with
  | none => s.compound.text
  | some .descendant => " " ++ s.compound.text
  | some c => c.sign ++ " " ++ s.compound.text

private def laterText (s : Segment) : String :=
  (s.combinator.getD .descendant).text ++ s.compound.text

def text (s : Selector) : String :=
  match s.segments with
  | [] => ""
  | first :: later => firstText first ++ String.join (later.map laterText)

/-- A selector list as it is written. -/
def listText (selectors : List Selector) : String := String.intercalate ", " (selectors.map text)

/-! ## Asking -/

/-- The compound of a selector that is nothing else. -/
def compound? (s : Selector) : Option Compound :=
  match s.segments with
  | [⟨none, c⟩] => some c
  | _ => none

def hasParent (s : Selector) : Bool := s.segments.any (·.compound.hasParent)

def hasPlaceholder (s : Selector) : Bool := s.segments.any (·.compound.hasPlaceholder)

def isContradictory (s : Selector) : Bool := s.segments.any (·.compound.isContradictory)

/-- Whether an element can meet the selector once the placeholders are gone. -/
def canMatch (s : Selector) : Bool := !s.isContradictory && !s.hasPlaceholder

private def subsumesSegments : List Segment → List Segment → Bool
  | [], [] => true
  | a :: as, b :: bs =>
    a.combinator == b.combinator && a.compound.subsumes b.compound && subsumesSegments as bs
  | _, _ => false

/-- Whether two selectors have the same shape, and each compound of `s` asks for nothing that its
counterpart in `t` does not ask for. -/
def subsumes (s t : Selector) : Bool := subsumesSegments s.segments t.segments

end Selector

end Scss
