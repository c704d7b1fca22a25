import Scss.Proofs.Containment

/-!
# What a unified compound asks for

Where a compound is extended, what is left of it is to be met together with the extending compound.
Unifying writes that as one compound. It leaves out a universal test beside an element, which every
element meets anyway, and it gives up where the two exclude each other: if they name two elements, or
if they ask for two ids. In both cases no element is lost.

That a target names no element is part of the first case. If it does name one, that element is the
compound's own and is replaced with the rest of the target.
-/

namespace Scss.Compound

variable {c target extending u : Compound}

/-- Whether an element meets what is left of a compound when the parts of the target are gone. -/
def LeavesMet (c target : Compound) (el : Element) : Prop :=
  ∀ x ∈ c.parts, x ∉ target.parts → x ∈ el.labels

/-- Leaving out a universal test asks for no less. -/
theorem metBy_kept_iff {el : Element} :
    (c.kept target extending).MetBy el.labels ↔ c.LeavesMet target el := by
  constructor
  · intro h x hx hgone
    by_cases huniversal : x = .universal
    · exact huniversal ▸ trivial
    · exact h x (mem_kept.mpr ⟨hx, hgone, fun _ => huniversal⟩)
  · intro h x hx
    obtain ⟨hx, hgone, -⟩ := mem_kept.mp hx
    exact h x hx hgone

theorem metBy_union_iff {d : Compound} {el : Element} :
    (c.union d).MetBy el.labels ↔ c.MetBy el.labels ∧ d.MetBy el.labels := by
  simp only [MetBy, mem_union, or_imp, forall_and]

/-- What an element meets asks for one id, since the element has no other. -/
theorem asksOneId_of_metBy {el : Element} (h : c.MetBy el.labels) : c.AsksOneId := by
  intro i j hi hj
  have hown : some i = el.id := h _ hi
  have hother : some j = el.id := h _ hj
  exact Option.some.inj (hown.trans hother.symm)

/--
**Unifying is exact**, if the target applies to the compound and tests the element once.

If there is a unified compound, an element meets it exactly if it meets the extending compound and
what is left of the extended one. If there is none, no element meets these two.
-/
theorem unify?_exact (htarget : target.TestsOnce) (happlies : target.subsumes c = true) :
    (∀ u, c.unify? target extending = some u → ∀ el : Element,
        u.MetBy el.labels ↔ extending.MetBy el.labels ∧ c.LeavesMet target el) ∧
      (c.unify? target extending = none → ∀ el : Element,
        ¬ (extending.MetBy el.labels ∧ c.LeavesMet target el)) := by
  constructor
  · intro u hu el
    obtain ⟨-, rfl, -⟩ := exists_of_unify? hu
    rw [metBy_union_iff, metBy_kept_iff, and_comm]
  · rintro hnone el ⟨hextending, hleft⟩
    rcases of_unify?_eq_none happlies hnone with ⟨hunnamed, own, name, hown, hname, hne⟩ | hids
    · -- the target names no element, so the compound's own is left
      have hgone : .element own ∉ target.parts := fun hpart =>
        absurd (namesElement_iff.mpr ⟨own, htarget.elementFirst own hpart⟩) (by simp [hunnamed])
      have hnamed : own = el.name := hleft _ (mem_of_elementTest? hown) hgone
      have hother : name = el.name := hextending _ (mem_of_elementTest? hname)
      exact hne (hnamed.trans hother.symm)
    · have hmet : ((c.kept target extending).union extending).MetBy el.labels :=
        metBy_union_iff.mpr ⟨metBy_kept_iff.mpr hleft, hextending⟩
      rw [isContradictory_eq_false_iff.mpr (asksOneId_of_metBy hmet)] at hids
      cases hids

/-- `a.x.y` extended by `*.x` becomes `a.y#z` where `a#z` extends it, and nothing where `b#z` does. -/
theorem elementExtended_exact :
    (ofList [.universal, .ofClass "x"]).TestsOnce ∧
      (ofList [.universal, .ofClass "x"]).subsumes
        (ofList [.element "a", .ofClass "x", .ofClass "y"]) = true ∧
      (∀ el : Element, (ofList [.element "a", .ofClass "y", .id "z"]).MetBy el.labels ↔
        (ofList [.element "a", .id "z"]).MetBy el.labels ∧
          (ofList [.element "a", .ofClass "x", .ofClass "y"]).LeavesMet
            (ofList [.universal, .ofClass "x"]) el) ∧
      ∀ el : Element, ¬ ((ofList [.element "b", .id "z"]).MetBy el.labels ∧
        (ofList [.element "a", .ofClass "x", .ofClass "y"]).LeavesMet
          (ofList [.universal, .ofClass "x"]) el) := by
  have honce : (ofList [.universal, .ofClass "x"]).TestsOnce := by decide
  have happlies : (ofList [.universal, .ofClass "x"]).subsumes
      (ofList [.element "a", .ofClass "x", .ofClass "y"]) = true := by decide
  exact ⟨honce, happlies, (unify?_exact honce happlies).1 _ (by decide),
    (unify?_exact honce happlies).2 (by decide)⟩

end Scss.Compound
