import Mathlib.Data.Set.Defs
import Mathlib.Logic.Relation
import Scss.Proofs.Parts

/-!
# What selectors mean

A document is seen through three things: the parent of each element, the sibling in front of it, and
the simple selectors that it meets. A compound asks an element to meet all of its parts. A selector
asks for a row of elements, one for each compound, in which each is reached from the one before as
the combinator between them says; and the last of the row is the element that matches.

Nothing is asked of the parents and siblings. What is shown for all documents in this sense holds for
trees in particular.
-/

namespace Scss

/-- The elements of a document and how they stand to each other. -/
structure Document (E : Type) where
  parent : E → Option E
  /-- The sibling right in front. -/
  previous : E → Option E

variable {E : Type}

/-- Whether a combinator leads from one element to another. -/
def Document.Related (doc : Document E) : Combinator → E → E → Prop
  | .child, x, y => doc.parent y = some x
  | .descendant, x, y => Relation.TransGen (fun x y => doc.parent y = some x) x y
  | .adjacent, x, y => doc.previous y = some x
  | .sibling, x, y => Relation.TransGen (fun x y => doc.previous y = some x) x y

/-- Whether an element that meets the simple selectors `labels` meets the compound. -/
def Compound.MetBy (labels : Set SimpleSelector) (c : Compound) : Prop := ∀ a ∈ c.parts, a ∈ labels

section

variable (doc : Document E) (labels : E → Set SimpleSelector)

/-- Whether a chain that is read from the element `x` on ends at `y`. A segment that holds no
combinator is a descendant. -/
def Document.Leads : List Segment → E → E → Prop
  | [], x, y => x = y
  | s :: rest, x, y => ∃ z, doc.Related (s.combinator.getD .descendant) x z ∧
      s.compound.MetBy (labels z) ∧ Leads rest z y

/-- **Whether an element matches a selector.** A combinator in front of the first compound has no
element to start from, and is not read. -/
def Selector.Matches (s : Selector) (x : E) : Prop :=
  match s.segments with
  | [] => False
  | first :: later => ∃ y, first.compound.MetBy (labels y) ∧ doc.Leads labels later y x

/-- Whether an element stands where a chain puts what comes behind it, by the combinator in between.
Nothing is asked for if the chain is empty. -/
def Document.Reaches (chain : List Segment) (combinator : Option Combinator) (x : E) : Prop :=
  match chain with
  | [] => True
  | first :: later => ∃ y z, first.compound.MetBy (labels y) ∧ doc.Leads labels later y z ∧
      doc.Related (combinator.getD .descendant) z x

end

variable {doc : Document E} {labels more : E → Set SimpleSelector}

theorem Document.leads_append {as bs : List Segment} {x y : E} :
    doc.Leads labels (as ++ bs) x y ↔ ∃ z, doc.Leads labels as x z ∧ doc.Leads labels bs z y := by
  induction as generalizing x with
  | nil => exact ⟨fun h => ⟨x, rfl, h⟩, fun ⟨z, hz, h⟩ => by cases hz; exact h⟩
  | cons a as ih =>
      simp only [List.cons_append, Leads, ih]
      constructor
      · rintro ⟨w, hw, hmet, z, hz, h⟩
        exact ⟨z, ⟨w, hw, hmet, hz⟩, h⟩
      · rintro ⟨z, ⟨w, hw, hmet, hz⟩, h⟩
        exact ⟨w, hw, hmet, z, hz, h⟩

/-- A selector is matched if some element takes the place of one of its compounds, with the chain in
front of it behind that element and the rest of the chain ahead. -/
theorem Selector.matches_at {front behind : List Segment} {s : Segment} {x : E} :
    Matches doc labels ⟨front ++ s :: behind⟩ x ↔ ∃ y, doc.Reaches labels front s.combinator y ∧
      s.compound.MetBy (labels y) ∧ doc.Leads labels behind y x := by
  cases front with
  | nil => exact ⟨fun ⟨y, hmet, h⟩ => ⟨y, trivial, hmet, h⟩, fun ⟨y, _, hmet, h⟩ => ⟨y, hmet, h⟩⟩
  | cons first later =>
      show (∃ y, _ ∧ doc.Leads labels (later ++ s :: behind) y x) ↔ _
      simp only [Document.leads_append, Document.Leads, Document.Reaches]
      constructor
      · rintro ⟨y, hfirst, w, hw, z, hz, hmet, h⟩
        exact ⟨z, ⟨y, w, hfirst, hw, hz⟩, hmet, h⟩
      · rintro ⟨z, ⟨y, w, hfirst, hw, hz⟩, hmet, h⟩
        exact ⟨y, hfirst, w, hw, z, hz, hmet, h⟩

/-- What a chain leads up to does not depend on whether a space is written out. -/
theorem Document.reaches_congr {front : List Segment} {a b : Option Combinator} {x : E}
    (hab : front = [] ∨ a.getD .descendant = b.getD .descendant) :
    doc.Reaches labels front a x ↔ doc.Reaches labels front b x := by
  cases front with
  | nil => exact Iff.rfl
  | cons first later =>
      have hab := hab.resolve_left (List.cons_ne_nil _ _)
      simp only [Reaches, hab]

/-! ## Elements that meet more match more -/

theorem Document.Leads.mono (hsub : ∀ x, ∀ a ∈ labels x, a ∈ more x) {chain : List Segment} {x y : E}
    (h : doc.Leads labels chain x y) : doc.Leads more chain x y := by
  induction chain generalizing x with
  | nil => exact h
  | cons s rest ih =>
      obtain ⟨z, hrelated, hmet, h⟩ := h
      exact ⟨z, hrelated, fun a ha => hsub z a (hmet a ha), ih h⟩

theorem Selector.Matches.mono (hsub : ∀ x, ∀ a ∈ labels x, a ∈ more x) {s : Selector} {x : E}
    (h : s.Matches doc labels x) : s.Matches doc more x := by
  obtain ⟨_ | ⟨first, later⟩⟩ := s
  · exact h
  · obtain ⟨y, hmet, h⟩ := h
    exact ⟨y, fun a ha => hsub y a (hmet a ha), Document.Leads.mono hsub h⟩

end Scss
