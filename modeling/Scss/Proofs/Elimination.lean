import Mathlib.Data.List.Perm.Subperm
import Scss.Proofs.Unifying
import Scss.Proofs.Worklist

/-!
# What elimination leaves

A selector is judged by all others of the list, also by those that are dropped themselves. Still
nothing is lost and nothing redundant is left. That every dropped selector is outlived by one that
asks for no more was shown for an order (`exists_survivor`), and asking for no more is one where no
compound tests the element twice. That no two selectors are left of which one asks for less than the
other is seen from the one that comes first: it would have been dropped for the other, or else the
two ask for the same and the other would have been dropped for it.

What is left is therefore left again when it is gone through once more.
-/

namespace Scss.SelectorSet

variable {spared : Nat} {rest : List Selector}

/-- The selectors in front are spared, and the others are judged behind them. -/
theorem essential_eq_take_append (before : List Selector) (spared : Nat) (rest : List Selector) :
    essential before spared rest =
      rest.take spared ++ essential (before ++ rest.take spared) 0 (rest.drop spared) := by
  by_cases hlength : spared ≤ rest.length
  · have hfront : (rest.take spared).length = spared := List.length_take_of_le hlength
    conv_lhs => rw [← List.take_append_drop spared rest]
    exact essential_append hfront
  · -- all of them are spared
    have hle : rest.length ≤ spared := by omega
    rw [List.take_of_length_le hle, List.drop_of_length_le hle]
    induction rest generalizing before spared with
    | nil => rfl
    | cons s rest ih =>
        have hspared : spared ≠ 0 := by rw [List.length_cons] at hle; omega
        rw [List.length_cons] at hlength hle
        have hrest := ih (before ++ [s]) (spared - 1) (by omega) (by omega)
        simp only [essential, hspared, decide_false, Bool.false_and, Bool.false_eq_true, if_false]
        rw [hrest]
        simp [essential]

/-- **Of two selectors that are left, none asks for less than one that was judged.** -/
theorem subsumes_eq_false_of_left {s t : Selector} (hs : s ∈ essential [] spared rest)
    (hjudged : s ∉ rest.take spared) (ht : t ∈ essential [] spared rest) (hne : t ≠ s) :
    t.subsumes s = false := by
  obtain ⟨front, behind, hrest, hkept⟩ := mem_essential.mp hs
  obtain ⟨front', behind', hrest', hkept'⟩ := mem_essential.mp ht
  have hlate : spared ≤ front.length := by
    by_contra hearly
    refine hjudged ?_
    rw [hrest, List.take_append, List.mem_append]
    obtain ⟨n, hn⟩ : ∃ n, spared - front.length = n + 1 :=
      ⟨spared - front.length - 1, by omega⟩
    rw [hn, List.take_succ_cons]
    exact Or.inr List.mem_cons_self
  have hkept := hkept.resolve_left (by omega)
  rw [List.nil_append, isRedundant_eq_false_iff] at hkept
  by_contra hsubsumes
  rw [Bool.not_eq_false] at hsubsumes
  -- `t` stands behind `s`, and asks for the same; so it would have been dropped for `s`
  have hfront : t ∉ front := fun h => by
    rw [hkept.1 t h] at hsubsumes
    cases hsubsumes
  have hbehind : t ∈ behind := by
    have hmem : t ∈ front ++ s :: behind := by rw [← hrest, hrest']; simp
    exact ((List.mem_append.mp hmem).resolve_left hfront |> List.mem_cons.mp).resolve_left hne
  have hsame := hkept.2 t hbehind hsubsumes
  rcases List.append_eq_append_iff.mp (hrest.symm.trans hrest') with
    ⟨mid, rfl, hmid⟩ | ⟨mid, rfl, hmid⟩
  · cases mid with
    | nil => exact hne (List.cons.inj hmid).1.symm
    | cons s' mid =>
        obtain ⟨rfl, -⟩ := List.cons.inj hmid
        have hkept' := hkept'.resolve_left (by rw [List.length_append]; omega)
        rw [List.nil_append, isRedundant_eq_false_iff] at hkept'
        have hnone := hkept'.1 s (List.mem_append_right _ List.mem_cons_self)
        rw [hnone] at hsame
        cases hsame
  · cases mid with
    | nil => exact hne (List.cons.inj hmid).1
    | cons t' mid =>
        obtain ⟨rfl, -⟩ := List.cons.inj hmid
        exact hfront (List.mem_append_right _ List.mem_cons_self)

/-- Where no selector that is judged asks for more than another one, all are left. -/
theorem essential_eq_self (hnodup : rest.Nodup)
    (h : ∀ s ∈ rest, s ∉ rest.take spared → ∀ t ∈ rest, t ≠ s → t.subsumes s = false) :
    essential [] spared rest = rest := by
  have hall : rest ⊆ essential [] spared rest := by
    intro s hs
    by_contra hgone
    have hjudged : s ∉ rest.take spared := fun hfront => by
      rw [essential_eq_take_append] at hgone
      exact hgone (List.mem_append_left _ hfront)
    obtain ⟨t, ht, hne, hsubsumes⟩ := exists_subsumes_of_not_mem_essential hnodup hs hgone
    rw [h s hs hjudged t ht hne] at hsubsumes
    cases hsubsumes
  exact (essential_sublist _ _ _).eq_of_length_le (hnodup.subperm hall).length_le

theorem take_essential : (essential [] spared rest).take spared = rest.take spared := by
  rw [essential_eq_take_append]
  by_cases hlength : spared ≤ rest.length
  · exact List.take_left' (List.length_take_of_le hlength)
  · have hle : rest.length ≤ spared := by omega
    rw [List.drop_of_length_le hle, List.take_of_length_le hle, essential, List.append_nil]
    exact List.take_of_length_le hle

/-- Sets that were made of the same list are the same. -/
theorem ofNodup_congr {selectors selectors' : List Selector} {h : selectors.Nodup}
    {h' : selectors'.Nodup} (heq : selectors = selectors') :
    ofNodup selectors h = ofNodup selectors' h' := by
  subst heq
  rfl

/--
**Elimination loses nothing and leaves nothing redundant**, provided that no compound tests the
element twice.

What is left keeps its order, and the selectors that are spared are left. Each selector that is
dropped is subsumed by one that is left. None of those that are left, unless it was spared, is
subsumed by another one. And going through what is left changes nothing.
-/
theorem eliminate_settles (set : SelectorSet) (spared : Nat)
    (honce : ∀ s ∈ set, s.AllCompounds Compound.TestsOnce) :
    (set.eliminate spared).toList.Sublist set.toList ∧
      set.toList.take spared <+: (set.eliminate spared).toList ∧
      (∀ s ∈ set, s ∉ set.eliminate spared → ∃ t ∈ set.eliminate spared, t.subsumes s = true) ∧
      (∀ s ∈ set.eliminate spared, s ∉ set.toList.take spared →
        ∀ t ∈ set.eliminate spared, t ≠ s → t.subsumes s = false) ∧
      (set.eliminate spared).eliminate spared = set.eliminate spared := by
  have hsettled : ∀ s ∈ set.eliminate spared, s ∉ set.toList.take spared →
      ∀ t ∈ set.eliminate spared, t ≠ s → t.subsumes s = false :=
    fun _ hs hjudged _ ht hne => subsumes_eq_false_of_left hs hjudged ht hne
  refine ⟨essential_sublist _ _ _, ?_, fun s hs _ => ?_, hsettled, ?_⟩
  · show _ <+: essential [] spared set.toList
    rw [essential_eq_take_append]
    exact List.prefix_append _ _
  · have htrans : ∀ t ∈ set.toList, ∀ u ∈ set.toList, ∀ v ∈ set.toList,
        t.subsumes u = true → u.subsumes v = true → t.subsumes v = true := fun t ht u hu _ _ =>
      Selector.subsumes_trans (fun _ _ _ _ hd => Compound.subsumes_trans hd.elementFirst)
        (honce t ht) (honce u hu)
    exact exists_survivor (fun t _ => t.subsumes_refl) htrans hs
  · refine ofNodup_congr (essential_eq_self (set.eliminate spared).nodup fun s hs hjudged => ?_)
    refine hsettled s hs fun hfront => hjudged ?_
    show s ∈ (essential [] spared set.toList).take spared
    rwa [take_essential]

/-- `.x.y, .x, .x.z`. -/
def refinedClass : SelectorSet :=
  .ofList [.ofCompound (.ofList [.ofClass "x", .ofClass "y"]), .ofClass "x",
    .ofCompound (.ofList [.ofClass "x", .ofClass "z"])]

/-- If the first selector of `.x.y, .x, .x.z` is spared, `.x.y, .x` is left; and `.x` subsumes what
is gone. -/
theorem refinedClass_settles :
    (refinedClass.eliminate 1).toList =
        [.ofCompound (.ofList [.ofClass "x", .ofClass "y"]), .ofClass "x"] ∧
      (∀ s ∈ refinedClass, s ∉ refinedClass.eliminate 1 →
        ∃ t ∈ refinedClass.eliminate 1, t.subsumes s = true) ∧
      (refinedClass.eliminate 1).eliminate 1 = refinedClass.eliminate 1 := by
  have honce : ∀ s ∈ refinedClass.toList, s.AllCompounds Compound.TestsOnce := by decide
  obtain ⟨-, -, hlost, -, hagain⟩ := eliminate_settles refinedClass 1 honce
  exact ⟨by decide, hlost, hagain⟩

end Scss.SelectorSet
