import Scss.Selector.Set

/-!
# Redundant selectors

A selector is dropped if one in front of it asks for no more or one behind it asks for less. Both
may be dropped themselves in favour of a third, so it has to be seen that the chain ends, at a
selector that stays.

It ends at a selector for which nothing in the list asks for less, the first of these if there are
several that ask for the same. Such a one exists below every selector since the list is finite, and
neither half of the test applies to it.
-/

namespace Scss.SelectorSet

theorem isRedundant_eq_false_iff {before behind : List Selector} {s : Selector} :
    isRedundant before s behind = false ↔ (∀ t ∈ before, t.subsumes s = false) ∧
      ∀ t ∈ behind, t.subsumes s = true → s.subsumes t = true := by
  simp only [isRedundant, Bool.or_eq_false_iff, List.any_eq_false, Bool.and_eq_true,
    Bool.not_eq_true', not_and, Bool.not_eq_true, Bool.not_eq_false]

/-- What stays is spared, or not redundant where it stands. -/
theorem mem_essential {before rest : List Selector} {spared : Nat} {s : Selector} :
    s ∈ essential before spared rest ↔ ∃ front behind, rest = front ++ s :: behind ∧
      (front.length < spared ∨ isRedundant (before ++ front) s behind = false) := by
  induction rest generalizing before spared with
  | nil => simp [essential]
  | cons t rest ih =>
      -- `s` is the first selector, or it stays among those behind it
      have hsplit : s ∈ essential before spared (t :: rest) ↔
          (s = t ∧ (0 < spared ∨ isRedundant before t rest = false)) ∨
            s ∈ essential (before ++ [t]) (spared - 1) rest := by
        rw [essential]
        by_cases hspared : spared = 0
        · by_cases hred : isRedundant before t rest = true
          · simp [hspared, hred]
          · simp [hspared, Bool.eq_false_iff.mpr hred]
        · have hpos : 0 < spared := by omega
          simp [hspared, hpos]
      rw [hsplit, ih]
      constructor
      · rintro (⟨rfl, h⟩ | ⟨front, behind, rfl, h⟩)
        · exact ⟨[], rest, rfl, by rwa [List.append_nil]⟩
        · refine ⟨t :: front, behind, rfl, ?_⟩
          rw [List.append_cons, List.length_cons]
          exact h.imp_left fun h => by omega
      · rintro ⟨front, behind, heq, h⟩
        cases front with
        | nil =>
            obtain ⟨rfl, rfl⟩ := List.cons.inj heq
            rw [List.append_nil] at h
            exact Or.inl ⟨rfl, h⟩
        | cons _ front =>
            obtain ⟨rfl, rfl⟩ := List.cons.inj heq
            rw [List.append_cons, List.length_cons] at h
            exact Or.inr ⟨front, behind, rfl, h.imp_left fun h => by omega⟩

section Order

variable {rest : List Selector} (hrefl : ∀ s ∈ rest, s.subsumes s = true)
  (htrans : ∀ s ∈ rest, ∀ t ∈ rest, ∀ u ∈ rest,
    s.subsumes t = true → t.subsumes u = true → s.subsumes u = true)

include hrefl htrans

/-- Below every selector there is one for which none asks for less. -/
theorem exists_least {s : Selector} (hs : s ∈ rest) : ∃ t ∈ rest, t.subsumes s = true ∧
    ∀ u ∈ rest, u.subsumes t = true → t.subsumes u = true := by
  -- on the number of selectors that ask for no more
  induction hn : (rest.filter (·.subsumes s)).length using Nat.strongRecOn generalizing s with
  | _ n ih =>
    by_cases hleast : ∀ u ∈ rest, u.subsumes s = true → s.subsumes u = true
    · exact ⟨s, hs, hrefl s hs, hleast⟩
    · simp only [Classical.not_forall] at hleast
      obtain ⟨u, hu, hus, hsu⟩ := hleast
      have hsub : rest.filter (·.subsumes u) =
          (rest.filter (·.subsumes s)).filter (·.subsumes u) := by
        rw [List.filter_filter]
        refine List.filter_congr fun v hv => ?_
        rw [Bool.eq_iff_iff, Bool.and_eq_true]
        exact ⟨fun h => ⟨h, htrans v hv u hu s hs h hus⟩, fun h => h.1⟩
      have hlt : (rest.filter (·.subsumes u)).length < n := by
        rw [hsub, ← hn, List.length_filter_lt_length_iff_exists]
        exact ⟨s, List.mem_filter.mpr ⟨hs, hrefl s hs⟩, hsu⟩
      obtain ⟨t, ht, htu, hleast⟩ := ih _ hlt hu rfl
      exact ⟨t, ht, htrans t ht u hu s hs htu hus, hleast⟩

/-- **Every selector is outlived by one that asks for no more**, provided that asking for no more is
an order on the list. -/
theorem exists_survivor {spared : Nat} {s : Selector} (hs : s ∈ rest) :
    ∃ t ∈ essential [] spared rest, t.subsumes s = true := by
  classical
  let least : Selector → Prop := fun t =>
    t.subsumes s = true ∧ ∀ u ∈ rest, u.subsumes t = true → t.subsumes u = true
  obtain ⟨t₀, ht₀, hleast₀⟩ := exists_least hrefl htrans hs
  -- of the least ones the first is taken
  obtain ⟨t, ht⟩ : ∃ t, rest.find? (fun t => decide (least t)) = some t :=
    Option.isSome_iff_exists.mp (List.find?_isSome.mpr ⟨t₀, ht₀, decide_eq_true hleast₀⟩)
  obtain ⟨htleast, front, behind, hrest, hfirst⟩ := List.find?_eq_some_iff_append.mp ht
  obtain ⟨hts, hmin⟩ := of_decide_eq_true htleast
  have hmemt : t ∈ rest := by rw [hrest]; simp
  refine ⟨t, mem_essential.mpr ⟨front, behind, hrest, Or.inr ?_⟩, hts⟩
  rw [List.nil_append, isRedundant_eq_false_iff]
  constructor
  · intro u hu
    have hmemu : u ∈ rest := by rw [hrest]; exact List.mem_append_left _ hu
    rw [Bool.eq_false_iff]
    intro hut
    -- then `u` would be least as well, and it comes earlier
    refine absurd (hfirst u hu) ?_
    rw [Bool.not_eq_true', Bool.not_eq_false, decide_eq_true_iff]
    refine ⟨htrans u hmemu t hmemt s hs hut hts, fun v hv hvu => ?_⟩
    have htv := hmin v hv (htrans v hv u hmemu t hmemt hvu hut)
    exact htrans u hmemu t hmemt v hv hut htv
  · intro u hu
    refine hmin u ?_
    rw [hrest]
    exact List.mem_append_right _ (List.mem_cons_of_mem _ hu)

end Order

end Scss.SelectorSet
