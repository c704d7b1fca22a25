import Scss.Failure
import Scss.Selector

/-!
# Selectors inside a rule

A selector written inside a rule is resolved against each selector of the rule. It becomes a
descendant of that selector unless it says with `&` where the selector belongs. At the top level
there is nothing for `&` to stand for, and it is left out.
-/

namespace Scss.Selector

/-- A selector without `&` below a parent. -/
def below (s parent : Selector) : Selector :=
  match s.segments with
  | [] => parent
  | first :: later =>
    ⟨parent.segments ++
      { first with combinator := some (first.combinator.getD .descendant) } :: later⟩

/-- The segments that a segment with `&` becomes. Its own combinator leads to the first of them. -/
def substitute (parent : Selector) (s : Segment) : Except EvaluationFault (List Segment) :=
  if !s.compound.hasParent then .ok [s]
  else
    match parent.segments.getLast? with
    | none => .ok []
    | some last => do
      let compound ← (s.compound.substituteParent last.compound).mapError fun suffix =>
        EvaluationFault.parentSuffix suffix last.compound.text
      match parent.segments.dropLast with
      | [] => .ok [⟨s.combinator.or last.combinator, compound⟩]
      | first :: middle =>
        .ok ({ first with combinator := s.combinator.or first.combinator } :: middle ++
          [⟨last.combinator, compound⟩])

/-- The segments without a space in front of the first. -/
def withoutLeadingSpace : List Segment → List Segment
  | ⟨some .descendant, c⟩ :: later => ⟨none, c⟩ :: later
  | segments => segments

/-- A selector as it is read inside a rule with the selector `parent`. -/
def resolve (s parent : Selector) : Except EvaluationFault Selector :=
  if !s.hasParent then .ok (s.below parent)
  else do
    let pieces ← s.segments.mapM (substitute parent)
    .ok ⟨withoutLeadingSpace pieces.flatten⟩

/-- The segments of a selector without `&`, and without the compounds that were nothing else. `first`
tells whether none has been kept yet. -/
def stripSegments (first : Bool) : List Segment → List Segment
  | [] => []
  | s :: rest =>
    let kept := s.compound.keep fun x => !x.isParent
    if kept.parts.isEmpty then stripSegments first rest
    else
      let combinator := if first then none else some (s.combinator.getD .descendant)
      ⟨combinator, kept⟩ :: stripSegments false rest

/-- The selector without `&`, if anything is left of it. -/
def stripParents? (s : Selector) : Option Selector :=
  match stripSegments true s.segments with
  | [] => none
  | segments => some ⟨segments⟩

end Scss.Selector
