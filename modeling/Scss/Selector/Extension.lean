import Scss.Position
import Scss.Selector

/-!
# Extending a selector

An `@extend` asks that elements that meet the extending selector count as meeting a target compound.
For a selector it is answered with the selectors that follow: one for each compound that the
target applies to, in which the ancestry of both selectors is woven together.
-/

namespace Scss

/-- A recorded `@extend`: the compound that is extended, the selector of the rule that extends it,
and the selectors of the rule around that one. -/
structure Extension where
  target : Compound
  extending : Selector
  context : List Selector
  optional : Bool
  position : Position
  deriving DecidableEq, Repr

namespace Selector

/-- How many segments of the shared ancestry both chains begin with, at most. -/
def sharedLength (own extending : List Segment) (context : List Selector) : Nat :=
  (context.map fun c =>
    if c.segments.isPrefixOf own && c.segments.isPrefixOf extending then c.segments.length
    else 0).foldl max 0

/-- The segments with a combinator in front of the first. -/
def joined : List Segment → List Segment
  | [] => []
  | first :: later =>
    { first with combinator := some (first.combinator.getD .descendant) } :: later

/-- The ancestry of the extended selector and that of the extending one in one chain. Ancestry that
they share is not repeated. -/
def weave (own extending : List Segment) (context : List Selector) : List Segment :=
  if own.isEmpty then extending
  else if extending.isEmpty || extending.isPrefixOf own then own
  else if own.isPrefixOf extending then extending
  else own ++ joined (extending.drop (sharedLength own extending context))

/-- The selector that follows if the compound behind `own` extends, if the target applies to it.
`behind` are the segments after it. -/
def extendAt (e : Extension) (own : List Segment) (s : Segment) (behind : List Segment) :
    Option Selector := do
  let last ← e.extending.segments.getLast?
  let ancestry := e.extending.segments.dropLast
  let unified ← s.compound.unify? e.target last.compound
  let woven := weave own ancestry e.context
  let combinator :=
    if ancestry.isEmpty || woven.length == own.length then s.combinator else last.combinator
  let combinator := if woven.isEmpty then none else some (combinator.getD .descendant)
  some ⟨woven ++ ⟨combinator, unified⟩ :: behind⟩

/-- Every selector that follows, `own` being the segments in front of those still to come. -/
def extendFrom (e : Extension) (own : List Segment) : List Segment → List Selector
  | [] => []
  | s :: behind => (extendAt e own s behind).toList ++ extendFrom e (own ++ [s]) behind

/-- The selectors other than `s` that follow from an extension of one of its compounds. -/
def extendWith (s : Selector) (e : Extension) : List Selector :=
  (extendFrom e [] s.segments).filter (· != s)

end Selector

end Scss
