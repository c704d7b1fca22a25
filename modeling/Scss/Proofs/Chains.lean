import Scss.Proofs.WellFormed
import Scss.Selector.Reader

/-!
# Selectors are chains

The type of selectors has room for some that nothing is written for: one without segments or with an
empty compound, one with a mere space in front of it, and one with no combinator between two
compounds. None of these is ever read, and nesting, stripping and extending make none of selectors
that are chains.
-/

namespace Scss

namespace Selector

/-! ## Chains -/

/-- Segments that are written one behind the other: there are some, none has an empty compound, each
but the first has a combinator, and that of the first is none of a mere space. -/
structure IsChain (segments : List Segment) : Prop where
  nonempty : segments ≠ []
  full : ∀ s ∈ segments, s.compound.parts ≠ []
  joined : ∀ s ∈ segments.tail, s.combinator.isSome = true
  front : ∀ s ∈ segments.head?, s.combinator ≠ some .descendant

instance (segments : List Segment) : Decidable (IsChain segments) :=
  decidable_of_iff
    ((segments ≠ [] ∧ ∀ s ∈ segments, s.compound.parts ≠ []) ∧
      (∀ s ∈ segments.tail, s.combinator.isSome = true) ∧
      ∀ s ∈ segments.head?, s.combinator ≠ some .descendant)
    ⟨fun h => ⟨h.1.1, h.1.2, h.2.1, h.2.2⟩, fun h => ⟨⟨h.nonempty, h.full⟩, h.joined, h.front⟩⟩

variable {front behind segments : List Segment} {s : Segment}

/-- A chain is well formed, and in front of it is no mere space. -/
theorem isChain_iff : IsChain segments ↔
    IsWellFormed segments ∧ ∀ s ∈ segments.head?, s.combinator ≠ some .descendant :=
  ⟨fun h => ⟨⟨h.nonempty, h.full, h.joined⟩, h.front⟩,
    fun h => ⟨h.1.nonempty, h.1.full, h.1.joined, h.2⟩⟩

theorem IsChain.isWellFormed (h : IsChain segments) : IsWellFormed segments := (isChain_iff.mp h).1

theorem isChain_cons (hcombinator : s.combinator ≠ some .descendant) (hs : s.compound.parts ≠ [])
    (h : FollowsChain behind) : IsChain (s :: behind) :=
  isChain_iff.mpr ⟨isWellFormed_cons_iff.mpr ⟨hs, h⟩, by simpa using hcombinator⟩

theorem IsChain.append (h : IsChain front) (h' : FollowsChain behind) :
    IsChain (front ++ behind) := by
  refine isChain_iff.mpr ⟨h.isWellFormed.append h', ?_⟩
  rw [List.head?_append_of_ne_nil _ h.nonempty]
  exact h.front

/-- What stands in front of a segment of a chain is a chain, if it is anything. -/
theorem IsChain.left (h : IsChain (front ++ behind)) (hfront : front ≠ []) : IsChain front := by
  refine isChain_iff.mpr ⟨h.isWellFormed.left hfront, ?_⟩
  rw [← List.head?_append_of_ne_nil front hfront]
  exact h.front

/-! ## Reading -/

theorem parts_ne_nil_of_readCompound {cs behind : List Char} {c : Compound}
    (h : readCompound cs = .ok (c, behind)) : c.parts ≠ [] := by
  obtain ⟨⟨parts, rest⟩, -, h⟩ := bind_eq_ok_iff.mp h
  dsimp only at h
  split at h
  · cases h
  next hparts =>
    obtain ⟨rfl, -⟩ := Prod.mk.inj (Except.ok.inj h)
    exact Compound.parts_ofList_ne_nil (by simpa using hparts)

theorem isChain_of_readSegments {fuel : Nat} {segments : List Segment} {pending : Option Combinator}
    {cs : List Char} {r : List Segment} (hsegments : segments = [] ∨ IsChain segments)
    (h : readSegments fuel segments pending cs = .ok r) : IsChain r := by
  fun_induction readSegments fuel segments pending cs with
  | case1 | case4 | case5 => cases h
  | case2 fuel segments pending c rest combinator _ _ ih => exact ih hsegments h
  | case3 fuel segments pending c rest _ ih =>
      obtain ⟨⟨compound, behind⟩, hcompound, h⟩ := bind_eq_ok_iff.mp h
      refine ih compound behind (Or.inr ?_) h
      have hfull := parts_ne_nil_of_readCompound hcompound
      rcases hsegments with rfl | hsegments
      · refine isChain_cons (fun heq => ?_) hfull followsChain_nil
        -- the filter leaves no mere space in front of the first segment
        have := (Option.filter_eq_some_iff.mp heq).2
        exact absurd this (by decide)
      · refine hsegments.append (followsChain_cons ?_ hfull followsChain_nil)
        rw [List.isEmpty_eq_false_iff.mpr hsegments.nonempty]
        rfl
  | case6 fuel segments pending _ _ hne =>
      obtain rfl := Except.ok.inj h
      exact hsegments.resolve_left (by simpa using hne)

theorem ofChars_eq_ok_iff {cs : List Char} {s : Selector} : ofChars cs = .ok s ↔
    readSegments (cs.length + 1) [] none (Text.dropBlanks cs) = .ok s.segments := by
  unfold ofChars
  cases readSegments (cs.length + 1) [] none (Text.dropBlanks cs) with
  | error fault => exact ⟨nofun, nofun⟩
  | ok segments =>
      show Except.ok (Selector.mk segments) = Except.ok s ↔ Except.ok segments = Except.ok s.segments
      rw [Except.ok.injEq, Except.ok.injEq]
      exact ⟨fun h => congrArg Selector.segments h, fun h => congrArg Selector.mk h⟩

/-- Each selector of a list is read from one of its pieces, trimmed. -/
theorem exists_ofChars_of_readList {text : String} {position : Position} {selectors : List Selector}
    (h : readList text position = .ok selectors) : ∀ s ∈ selectors,
      ∃ piece ∈ splitList none 0 text.toList,
        ofChars (Text.dropBlanksEnd (Text.dropBlanks piece)) = .ok s := by
  intro s hs
  obtain ⟨piece, hmem, hpiece⟩ := exists_of_mem_forall₂ (mapM_eq_ok_iff.mp h) hs
  refine ⟨piece, hmem, ?_⟩
  dsimp only at hpiece
  split at hpiece
  · cases hpiece
  · cases hread : ofChars (Text.dropBlanksEnd (Text.dropBlanks piece)) with
    | error fault => rw [hread] at hpiece; cases hpiece
    | ok t =>
        rw [hread] at hpiece
        rw [Except.ok.inj hpiece]

/-- **What is read as a selector is a chain.** -/
theorem isChain_of_readList {text : String} {position : Position} {selectors : List Selector}
    (h : readList text position = .ok selectors) : ∀ s ∈ selectors, IsChain s.segments := by
  intro s hs
  obtain ⟨piece, -, hpiece⟩ := exists_ofChars_of_readList h s hs
  exact isChain_of_readSegments (Or.inl rfl) (ofChars_eq_ok_iff.mp hpiece)

/-! ## Nesting -/

theorem isChain_below {s parent : Selector} (hs : IsChain s.segments)
    (hparent : IsChain parent.segments) : IsChain (s.below parent).segments := by
  unfold below
  split
  · exact hparent
  next first later hsegments =>
    refine hparent.append ?_
    rw [hsegments] at hs
    exact hs.isWellFormed.follows 0

/-- **Nesting makes chains of chains.** -/
theorem isChain_resolve {s parent t : Selector} (hs : IsChain s.segments)
    (hparent : IsChain parent.segments) (h : s.resolve parent = .ok t) : IsChain t.segments := by
  have hformed := isWellFormed_resolve hs.isWellFormed hparent.isWellFormed h
  unfold resolve at h
  split at h
  · obtain rfl := Except.ok.inj h
    exact isChain_below hs hparent
  · obtain ⟨pieces, -, h⟩ := bind_eq_ok_iff.mp h
    obtain rfl := Except.ok.inj h
    refine isChain_iff.mpr ⟨hformed, fun first hfirst heq => ?_⟩
    -- a space in front has been taken away
    unfold withoutLeadingSpace at hfirst
    split at hfirst
    · obtain rfl := Option.some.inj hfirst
      cases heq
    next hother =>
      obtain ⟨later, hlater⟩ := List.head?_eq_some_iff.mp hfirst
      obtain ⟨combinator, compound⟩ := first
      obtain rfl : combinator = some .descendant := heq
      exact hother compound later hlater

theorem isChain_stripParents? {s t : Selector} (h : s.stripParents? = some t) :
    IsChain t.segments := by
  obtain ⟨compound, later, hsegments, hfull, hlater⟩ := exists_of_stripParents? h
  exact hsegments ▸ isChain_cons nofun hfull hlater

/-! ## Extending -/

theorem isChain_weave {own extending : List Segment} (context : List Selector)
    (hown : own = [] ∨ IsChain own) (hextending : extending = [] ∨ IsChain extending) :
    weave own extending context = [] ∨ IsChain (weave own extending context) := by
  unfold weave
  split
  · exact hextending
  next hne =>
    have hown := hown.resolve_left (by simpa using hne)
    split
    · exact Or.inr hown
    split
    · exact hextending
    · refine Or.inr (hown.append ?_)
      rcases hextending with rfl | hextending
      · rw [List.drop_nil]
        exact followsChain_nil
      · exact hextending.isWellFormed.follows _

/-- **Extending makes chains of chains.** -/
theorem isChain_extendWith {s t : Selector} {e : Extension} (hs : IsChain s.segments)
    (he : IsChain e.extending.segments) (h : t ∈ s.extendWith e) : IsChain t.segments := by
  refine isChain_iff.mpr ⟨isWellFormed_extendWith hs.isWellFormed he.isWellFormed h, ?_⟩
  obtain ⟨-, own, at', behind, hsplit, hat⟩ := mem_extendWith.mp h
  simp only [extendAt, Option.bind_eq_bind, Option.bind_eq_some_iff] at hat
  obtain ⟨last, hlast, unified, -, ht⟩ := hat
  obtain rfl := Option.some.inj ht
  obtain ⟨ancestry, hancestry⟩ := List.getLast?_eq_some_iff.mp hlast
  rw [hsplit] at hs
  rw [hancestry] at he
  rw [hancestry, List.dropLast_concat]
  have hwoven := isChain_weave e.context (or_iff_not_imp_left.mpr hs.left)
    (or_iff_not_imp_left.mpr he.left)
  generalize weave own ancestry e.context = woven at hwoven ⊢
  rcases hwoven with rfl | hwoven
  · rintro first ⟨⟩
    simp
  · rw [List.head?_append_of_ne_nil _ hwoven.nonempty]
    exact hwoven.front

end Selector

end Scss
