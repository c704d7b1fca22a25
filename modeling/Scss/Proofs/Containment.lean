import Mathlib.Data.Set.Basic
import Scss.Proofs.Document
import Scss.Proofs.Unifying

/-!
# What a compound asks of an element

An element has one name, an id or none, and any number of classes, attributes, pseudo-classes,
pseudo-elements and placeholders. So most parts of a compound are independent of each other: an
element can meet them in any combination. Only two elements or two ids exclude each other.

That one compound subsumes another is decided by looking for its parts in the other one. The theorem
says that this comes to what it is meant to come to: every element that meets the second compound
meets the first. If a part is missing from the second compound, there is an element to show for it,
the one that has what this compound asks for and as little else as possible (`bare`).
-/

namespace Scss

/-- An element as compounds see it. -/
structure Element where
  name : String
  id : Option String
  /-- Its classes, attributes, pseudo-classes, pseudo-elements and placeholders. -/
  marks : Set SimpleSelector

namespace Element

/-- The simple selectors that an element meets. A parent reference is none that can be met. -/
def labels (el : Element) : Set SimpleSelector := fun
  | .element name => name = el.name
  | .universal => True
  | .id name => some name = el.id
  | .parent _ => False
  | mark => mark ∈ el.marks

/-- The element that has what a compound asks for, and nothing else. Its name is free if the compound
does not ask for one. -/
def bare (c : Compound) (otherwise : String) : Element where
  name :=
    match c.elementTest? with
    | some (.element name) => name
    | _ => otherwise
  id := c.ids.head?
  marks := {x | x ∈ c.parts}

end Element

namespace Compound

variable {c d : Compound}

theorem mem_ids {name : String} : name ∈ c.ids ↔ .id name ∈ c.parts := by
  rw [ids, List.mem_filterMap]
  constructor
  · rintro ⟨x, hx, hname⟩
    cases x with
    | id own => exact Option.some.inj hname ▸ hx
    | _ => cases hname
  · exact fun h => ⟨_, h, rfl⟩

/-- At most one id is asked for. -/
def AsksOneId (c : Compound) : Prop :=
  ∀ i j, .id i ∈ c.parts → .id j ∈ c.parts → i = j

theorem isContradictory_eq_false_iff : c.isContradictory = false ↔ c.AsksOneId := by
  simp only [AsksOneId, ← mem_ids, isContradictory]
  cases c.ids with
  | nil => simp
  | cons first others =>
      simp only [List.any_eq_false, bne_iff_ne, ne_eq, not_not]
      constructor
      · intro h i j hi hj
        have hfirst : ∀ k ∈ first :: others, k = first := List.forall_mem_cons.mpr ⟨rfl, h⟩
        rw [hfirst i hi, hfirst j hj]
      · exact fun h i hi => h i first (List.mem_cons_of_mem _ hi) List.mem_cons_self

/-- A compound that is not contradictory is met by its bare element. -/
theorem metBy_bare (hc : c.TestsOnce) (hparent : c.hasParent = false) (hids : c.AsksOneId)
    (otherwise : String) : c.MetBy (Element.bare c otherwise).labels := by
  intro x hx
  cases x with
  | element name =>
      show name = (Element.bare c otherwise).name
      rw [Element.bare, hc.elementFirst name hx]
  | universal => trivial
  | id name =>
      show some name = c.ids.head?
      have hname : name ∈ c.ids := mem_ids.mpr hx
      cases hhead : c.ids with
      | nil => rw [hhead] at hname; exact absurd hname List.not_mem_nil
      | cons first others =>
          have hfirst : .id first ∈ c.parts := mem_ids.mp (hhead ▸ List.mem_cons_self)
          rw [hids name first hx hfirst]
          rfl
  | parent suffix =>
      have hnone := Selector.isParent_of_hasParent_eq_false hparent hx
      cases hnone
  | _ => exact hx

/-- The bare element of a compound meets few things besides: what it does meet is a part of the
compound, or tests the element. -/
theorem mem_parts_of_bare {otherwise : String} {x : SimpleSelector}
    (hx : x ∈ (Element.bare c otherwise).labels) : x ∈ c.parts ∨ x.isElementTest = true := by
  cases x with
  | element name => exact Or.inr rfl
  | universal => exact Or.inr rfl
  | id name =>
      have hname : c.ids.head? = some name := Eq.symm hx
      exact Or.inl (mem_ids.mp (List.mem_of_head? hname))
  | parent suffix => exact absurd hx id
  | _ => exact Or.inl hx

/-- If it meets an element that has not been left free, the compound names it. -/
theorem element_mem_of_bare {otherwise name : String} (hne : name ≠ otherwise)
    (hx : .element name ∈ (Element.bare c otherwise).labels) : .element name ∈ c.parts := by
  have hname : name = (Element.bare c otherwise).name := hx
  rw [Element.bare] at hname
  dsimp only at hname
  split at hname
  next own hown => exact hname ▸ mem_of_elementTest? hown
  · exact absurd hname hne

/--
**Subsuming is containment.**

A compound subsumes another one exactly if every element that meets the other one meets it, provided
that neither tests the element twice, and that the other one holds no parent reference and asks for
one id at most. If it asked for two, no element would meet it.
-/
theorem subsumes_iff_forall_metBy (hc : c.TestsOnce) (hd : d.TestsOnce)
    (hparent : d.hasParent = false) (hids : d.AsksOneId) :
    c.subsumes d = true ↔ ∀ el : Element, d.MetBy el.labels → c.MetBy el.labels := by
  rw [subsumes_eq_true_iff]
  constructor
  · intro h el hmet x hx
    rcases h x hx with ⟨hnone, htest⟩ | hpart
    · -- the compound names no element, so the test is the universal one
      rcases isElementTest_iff.mp htest with rfl | ⟨name, rfl⟩
      · trivial
      · have hnames := namesElement_iff.mpr ⟨name, hc.elementFirst name hx⟩
        rw [hnames] at hnone
        cases hnone
    · exact hmet x hpart
  · intro h x hx
    by_cases htest : x.isElementTest = true
    · rcases isElementTest_iff.mp htest with rfl | ⟨name, rfl⟩
      · -- a universal test is the only test of the element
        refine Or.inl ⟨Bool.eq_false_iff.mpr fun hnames => ?_, rfl⟩
        obtain ⟨name, hname⟩ := namesElement_iff.mp hnames
        cases hc _ (mem_of_elementTest? hname) _ hx rfl rfl
      · -- an element of another name would do, if the other compound left the name free
        have hfresh : name ≠ name ++ "-" := by
          intro heq
          have hlength := congrArg String.length heq
          rw [String.length_append] at hlength
          have hdash : "-".length = 1 := rfl
          omega
        have hmet := metBy_bare hd hparent hids (name ++ "-")
        exact Or.inr (element_mem_of_bare hfresh (h _ hmet _ hx))
    · have hmet := metBy_bare hd hparent hids ""
      exact Or.inr ((mem_parts_of_bare (h _ hmet x hx)).resolve_right htest)

/-- `*.x` subsumes `a.x#y`, and is met by whatever meets it. -/
theorem universalClass_contains :
    (ofList [.universal, .ofClass "x"]).subsumes (ofList [.element "a", .ofClass "x", .id "y"]) = true ∧
      ∀ el : Element, (ofList [.element "a", .ofClass "x", .id "y"]).MetBy el.labels →
        (ofList [.universal, .ofClass "x"]).MetBy el.labels := by
  have hsubsumes : (ofList [.universal, .ofClass "x"]).subsumes
      (ofList [.element "a", .ofClass "x", .id "y"]) = true := by decide
  have hids : (ofList [.element "a", .ofClass "x", .id "y"]).AsksOneId :=
    isContradictory_eq_false_iff.mp (by decide)
  exact ⟨hsubsumes, (subsumes_iff_forall_metBy (by decide) (by decide) (by decide) hids).mp
    hsubsumes⟩

end Compound

end Scss
