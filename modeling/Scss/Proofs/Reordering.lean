import Scss.Proofs.Exactness
import Scss.Proofs.Unifying
import Scss.Proofs.Worklist

/-!
# The order of the extensions

Extensions are recorded in the order of the stylesheet, and the queue comes upon the selectors in an
order that depends on it. The closure does not, since it is a least set, and so neither do the limit
and the marks. What depends on the order is which one of several selectors that ask for the same is
kept: the first of them.

So the selectors of a rule are determined up to those that ask for the same, if asking for no more
is an order on the closure. It is one where no compound that is written tests the element twice,
since then every compound of the closure names its element first.
-/

namespace Scss

/-- Two selectors ask for the same. -/
def Selector.Equivalent (s t : Selector) : Prop := s.subsumes t = true ∧ t.subsumes s = true

theorem Selector.equivalent_refl (s : Selector) : s.Equivalent s :=
  ⟨s.subsumes_refl, s.subsumes_refl⟩

/-! ## What is kept -/

/-- Of two lists that hold the same and begin with the same selectors, those kept of one have
counterparts that are kept of the other. -/
theorem SelectorSet.exists_equivalent {front rest rest' : List Selector}
    (hfirst : ∀ s ∈ front ++ rest, s.AllCompounds Compound.ElementFirst)
    (hsame : ∀ s, s ∈ front ++ rest ↔ s ∈ front ++ rest') {s : Selector}
    (hs : s ∈ essential [] front.length (front ++ rest)) :
    ∃ t ∈ essential [] front.length (front ++ rest'), s.Equivalent t := by
  obtain ⟨before, behind, hlist, hstays⟩ := mem_essential.mp hs
  rcases hstays with hspared | hkept
  · -- one of those in front stays in both
    have hfront : s ∈ front := by
      have hget : (front ++ rest)[before.length]? = some s := by
        rw [hlist, List.getElem?_append_right (Nat.le_refl _), Nat.sub_self]
        rfl
      rw [List.getElem?_append_left hspared] at hget
      exact List.mem_of_getElem? hget
    refine ⟨s, ?_, s.equivalent_refl⟩
    rw [essential_append rfl]
    exact List.mem_append_left _ hfront
  -- otherwise something is kept of the other list that asks for no more than `s`
  have htrans : ∀ t ∈ front ++ rest', ∀ u ∈ front ++ rest', ∀ v ∈ front ++ rest',
      t.subsumes u = true → u.subsumes v = true → t.subsumes v = true := fun t ht u hu _ _ =>
    Selector.subsumes_trans (fun _ _ _ _ hd => Compound.subsumes_trans hd)
      (hfirst t ((hsame t).mpr ht)) (hfirst u ((hsame u).mpr hu))
  have hmem : s ∈ front ++ rest' := (hsame s).mp (by rw [hlist]; simp)
  obtain ⟨t, ht, hts⟩ : ∃ t ∈ essential [] front.length (front ++ rest'), t.subsumes s = true :=
    exists_survivor (fun t _ => t.subsumes_refl) htrans hmem
  refine ⟨t, ht, ?_, hts⟩
  -- where `s` stands, `t` is not in front of it; if it is behind, it asks for no less
  rw [List.nil_append, isRedundant_eq_false_iff] at hkept
  have hlisted : t ∈ before ++ s :: behind :=
    hlist ▸ (hsame t).mpr ((essential_sublist _ _ _).subset ht)
  rcases List.mem_append.mp hlisted with ht | ht
  · exact absurd hts (by rw [hkept.1 t ht]; decide)
  rcases List.mem_cons.mp ht with rfl | ht
  · exact t.subsumes_refl
  · exact hkept.2 t ht hts

namespace Extending

/-! ## Both runs -/

theorem Derived.mono {extensions extensions' : List Extension} {written : List Selector}
    (hsub : extensions ⊆ extensions') {s : Selector} (h : Derived extensions written s) :
    Derived extensions' written s := by
  induction h with
  | written hs => exact .written hs
  | extended _ he ht ih => exact .extended ih (hsub he) ht

theorem Derived.allCompounds {P : Compound → Prop}
    (hP : ∀ {c target extending u}, P c → P extending → c.unify? target extending = some u → P u)
    {extensions : List Extension} {written : List Selector}
    (hwritten : ∀ s ∈ written, s.AllCompounds P)
    (hextending : ∀ e ∈ extensions, e.extending.AllCompounds P) {s : Selector}
    (h : Derived extensions written s) : s.AllCompounds P :=
  h.keeps (fun e he _ _ hs => hs.extendWith (hextending e he) fun _ hlast _ _ hc =>
    hP hc (hextending e he _ (List.mem_of_getLast? hlast))) hwritten

theorem markAfter_congr {seen seen' : List Selector} (hsame : ∀ s, s ∈ seen ↔ s ∈ seen')
    (pair : Extension × Bool) : markAfter seen pair = markAfter seen' pair := by
  rw [Bool.eq_iff_iff]
  simp only [markAfter, Bool.or_eq_true, List.any_eq_true, hsame]

section

variable {marked marked' : List (Extension × Bool)} {written : List Selector}

/-- What is kept after one run has counterparts that are kept after the other. -/
theorem exists_equivalent_of_closed
    (hwritten : ∀ s ∈ written, s.AllCompounds Compound.TestsOnce)
    (hextending : ∀ pair ∈ marked, pair.1.extending.AllCompounds Compound.TestsOnce)
    {closed closed' : SelectorSet} {added added' : List Selector}
    (hclosed : ∀ s, s ∈ closed ↔ Derived (marked.map Prod.fst) written s)
    (hsame : ∀ s, s ∈ closed ↔ s ∈ closed')
    (hadded : closed.toList = (SelectorSet.ofList written).toList ++ added)
    (hadded' : closed'.toList = (SelectorSet.ofList written).toList ++ added') :
    let spared := ((SelectorSet.ofList written).toList.filter Selector.canMatch).length
    ∀ s ∈ ((closed.filter Selector.canMatch).eliminate spared).toList,
      ∃ t ∈ ((closed'.filter Selector.canMatch).eliminate spared).toList, s.Equivalent t := by
  intro spared s hs
  have hsplit : ∀ {set : SelectorSet} {more : List Selector},
      set.toList = (SelectorSet.ofList written).toList ++ more →
        (set.filter Selector.canMatch).toList =
          (SelectorSet.ofList written).toList.filter Selector.canMatch ++
            more.filter Selector.canMatch := by
    intro set more h
    rw [← List.filter_append, ← h]
    rfl
  have hfirst : ∀ s ∈ (closed.filter Selector.canMatch).toList,
      s.AllCompounds Compound.ElementFirst := by
    intro s hs
    have hderived := (hclosed s).mp (SelectorSet.mem_filter.mp hs).1
    refine hderived.allCompounds Compound.ElementFirst.unify? ?_ ?_
    · exact fun t ht a ha => (hwritten t ht a ha).elementFirst
    · intro e he a ha
      obtain ⟨pair, hpair, rfl⟩ := List.mem_map.mp he
      exact (hextending pair hpair a ha).elementFirst
  have hmem : ∀ s, s ∈ (closed.filter Selector.canMatch).toList ↔
      s ∈ (closed'.filter Selector.canMatch).toList := fun s => by
    exact SelectorSet.mem_filter.trans ((and_congr_left' (hsame s)).trans
      SelectorSet.mem_filter.symm)
  show ∃ t ∈ SelectorSet.essential [] spared (closed'.filter Selector.canMatch).toList, _
  have hs : s ∈ SelectorSet.essential [] spared (closed.filter Selector.canMatch).toList := hs
  rw [hsplit hadded] at hs hmem hfirst
  rw [hsplit hadded'] at hmem ⊢
  exact SelectorSet.exists_equivalent hfirst hmem hs

/--
**The order of the extensions does not matter.**

Whether extending a rule gives up depends only on which extensions there are, and so do the marks
that they get. The selectors of the result are the same up to such as ask for the same, provided
that no compound that is written tests the element twice.
-/
theorem extendSelectors_reordered (horder : marked.Perm marked')
    (hwritten : ∀ s ∈ written, s.AllCompounds Compound.TestsOnce)
    (hextending : ∀ pair ∈ marked, pair.1.extending.AllCompounds Compound.TestsOnce) :
    (extendSelectors (marked.map Prod.fst) (marked.map Prod.snd) written =
        .error (.limitExceeded .extendedSelectors maxSelectors) ∧
      extendSelectors (marked'.map Prod.fst) (marked'.map Prod.snd) written =
        .error (.limitExceeded .extendedSelectors maxSelectors)) ∨
    ∃ result marks result' marks',
      extendSelectors (marked.map Prod.fst) (marked.map Prod.snd) written =
        .ok (result, marks) ∧
      extendSelectors (marked'.map Prod.fst) (marked'.map Prod.snd) written =
        .ok (result', marks') ∧
      ((marked.map Prod.fst).zip marks).Perm ((marked'.map Prod.fst).zip marks') ∧
      (∀ s ∈ result, ∃ t ∈ result', s.Equivalent t) ∧
      (∀ s ∈ result', ∃ t ∈ result, s.Equivalent t) := by
  have hextensions := horder.map Prod.fst
  have hderived : ∀ s, Derived (marked.map Prod.fst) written s ↔
      Derived (marked'.map Prod.fst) written s := fun s =>
    ⟨.mono hextensions.subset, .mono hextensions.symm.subset⟩
  have hclosure : closure (marked.map Prod.fst) written =
      closure (marked'.map Prod.fst) written := by
    ext s
    exact mem_closure.trans ((hderived s).trans mem_closure.symm)
  have hexceeds : Exceeds (marked.map Prod.fst) written ↔
      Exceeds (marked'.map Prod.fst) written := by
    rw [Exceeds, Exceeds, hclosure]
  rcases extendSelectors_cases marked written with
    ⟨hmany, hrun⟩ | ⟨hfew, closed, added, hclosed, hadded, hrun⟩
  all_goals rcases extendSelectors_cases marked' written with
    ⟨hmany', hrun'⟩ | ⟨hfew', closed', added', hclosed', hadded', hrun'⟩
  · exact Or.inl ⟨hrun, hrun'⟩
  · exact absurd (hexceeds.mp hmany) hfew'
  · exact absurd (hexceeds.mpr hmany') hfew
  have hsame : ∀ s, s ∈ closed ↔ s ∈ closed' := fun s =>
    (hclosed s).trans ((hderived s).trans (hclosed' s).symm)
  have hextending' : ∀ pair ∈ marked', pair.1.extending.AllCompounds Compound.TestsOnce :=
    fun pair hpair => hextending pair (horder.mem_iff.mpr hpair)
  refine Or.inr ⟨_, _, _, _, hrun, hrun', ?_, ?_, ?_⟩
  · rw [List.zip_map', List.zip_map']
    refine (horder.map _).trans (List.Perm.of_eq (List.map_congr_left fun pair _ => ?_))
    rw [markAfter_congr hsame pair]
  · exact exists_equivalent_of_closed hwritten hextending hclosed hsame hadded hadded'
  · exact exists_equivalent_of_closed hwritten hextending' hclosed' (fun s => (hsame s).symm)
      hadded' hadded

/-- The selector of an element that has two classes. -/
def both (first second : String) : Selector :=
  .ofCompound (.ofList [.ofClass first, .ofClass second])

/-- Where `.a` extends `.x` and `.b` extends `.y`, the last selector that `.x.y` gets is `.a.b` in
one order of the extensions and `.b.a` in the other. -/
theorem bothExtended_reordered :
    extendSelectors [.ofClasses "a" "x", .ofClasses "b" "y"] [false, false] [both "x" "y"] =
        .ok ([both "x" "y", both "y" "a", both "x" "b", both "a" "b"], [true, true]) ∧
      extendSelectors [.ofClasses "b" "y", .ofClasses "a" "x"] [false, false] [both "x" "y"] =
        .ok ([both "x" "y", both "x" "b", both "y" "a", both "b" "a"], [true, true]) ∧
      (∀ s ∈ [both "x" "y", both "y" "a", both "x" "b", both "a" "b"],
        ∃ t ∈ [both "x" "y", both "x" "b", both "y" "a", both "b" "a"], s.Equivalent t) := by
  have hrun : extendSelectors [.ofClasses "a" "x", .ofClasses "b" "y"] [false, false]
      [both "x" "y"] =
        .ok ([both "x" "y", both "y" "a", both "x" "b", both "a" "b"], [true, true]) := by cbv
  have hrun' : extendSelectors [.ofClasses "b" "y", .ofClasses "a" "x"] [false, false]
      [both "x" "y"] =
        .ok ([both "x" "y", both "x" "b", both "y" "a", both "b" "a"], [true, true]) := by cbv
  refine ⟨hrun, hrun', ?_⟩
  have horder : [(Extension.ofClasses "a" "x", false), (Extension.ofClasses "b" "y", false)].Perm
      [(Extension.ofClasses "b" "y", false), (Extension.ofClasses "a" "x", false)] := .swap _ _ _
  have hwritten : ∀ s ∈ [both "x" "y"], s.AllCompounds Compound.TestsOnce := by decide
  rcases extendSelectors_reordered horder hwritten (by decide) with
    ⟨hfails, -⟩ | ⟨result, marks, result', marks', h, h', -, hsame, -⟩
  · cases hrun.symm.trans hfails
  · obtain ⟨rfl, rfl⟩ := Prod.mk.inj (Except.ok.inj (hrun.symm.trans h))
    obtain ⟨rfl, rfl⟩ := Prod.mk.inj (Except.ok.inj (hrun'.symm.trans h'))
    exact hsame

end

end Extending

end Scss
