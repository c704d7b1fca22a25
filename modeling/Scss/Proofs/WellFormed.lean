import Scss.Proofs.Unifying

/-!
# Selectors stay well formed

A selector is a list of segments, and the type of such lists has room for some that nothing is written for:
one without segments, one with an empty compound, and one with no combinator between two compounds.
Nesting, stripping and extending put lists of segments together from parts of others. What they put
behind a segment always has a combinator (`FollowsChain`), so they make well-formed selectors of
well-formed ones; and nesting and stripping leave no `&`.

That no compound holds a part twice does not have to be said here, as it is said by the type of compounds.
-/

namespace Scss

namespace Compound

variable {c d : Compound}

theorem parts_ofList_ne_nil {xs : List SimpleSelector} (h : xs ≠ []) : (ofList xs).parts ≠ [] := by
  obtain ⟨x, hx⟩ := List.exists_mem_of_ne_nil xs h
  exact List.ne_nil_of_mem (mem_ofList.mpr hx)

theorem parts_union_ne_nil (h : d.parts ≠ []) : (c.union d).parts ≠ [] := by
  obtain ⟨x, hx⟩ := List.exists_mem_of_ne_nil _ h
  exact List.ne_nil_of_mem (mem_union.mpr (Or.inr hx))

theorem parts_unify?_ne_nil {target extending u : Compound} (h : extending.parts ≠ [])
    (hu : c.unify? target extending = some u) : u.parts ≠ [] := by
  obtain ⟨-, rfl, -⟩ := exists_of_unify? hu
  exact parts_union_ne_nil h

theorem parts_substituteParent_ne_nil {parent r : Compound} (hc : c.parts ≠ [])
    (hparent : parent.parts ≠ []) (h : c.substituteParent parent = .ok r) : r.parts ≠ [] := by
  obtain ⟨pieces, hpieces, hr⟩ := bind_eq_ok_iff.mp h
  obtain rfl := Except.ok.inj hr
  have hforall := mapM_eq_ok_iff.mp hpieces
  cases hparts : c.parts with
  | nil => exact absurd hparts hc
  | cons part rest =>
      rw [hparts] at hforall
      cases hforall with
      | @cons _ piece _ pieces heq _ =>
          -- something stands in for every part
          have hpiece : piece ≠ [] := by
            cases part with
            | parent suffix =>
                cases suffix with
                | none => exact Except.ok.inj heq ▸ hparent
                | some suffix =>
                    dsimp only at heq
                    split at heq
                    · exact Except.ok.inj heq ▸ List.concat_ne_nil _ _
                    · cases heq
            | _ => exact Except.ok.inj heq ▸ List.cons_ne_nil _ _
          refine parts_ofList_ne_nil fun hnil => hpiece ?_
          exact (List.append_eq_nil_iff.mp hnil).1

end Compound

namespace Selector

/-! ## Segments behind each other -/

/-- Segments that are written one behind the other: there are some, none has an empty compound, and each
but the first has a combinator. -/
structure IsWellFormed (segments : List Segment) : Prop where
  nonempty : segments ≠ []
  full : ∀ s ∈ segments, s.compound.parts ≠ []
  joined : ∀ s ∈ segments.tail, s.combinator.isSome = true

instance (segments : List Segment) : Decidable (IsWellFormed segments) :=
  decidable_of_iff
    (segments ≠ [] ∧ (∀ s ∈ segments, s.compound.parts ≠ []) ∧
      ∀ s ∈ segments.tail, s.combinator.isSome = true)
    ⟨fun h => ⟨h.1, h.2.1, h.2.2⟩, fun h => ⟨h.nonempty, h.full, h.joined⟩⟩

/-- Segments that can follow others. -/
structure FollowsChain (segments : List Segment) : Prop where
  full : ∀ s ∈ segments, s.compound.parts ≠ []
  joined : ∀ s ∈ segments, s.combinator.isSome = true

variable {front behind segments : List Segment} {s : Segment}

theorem followsChain_cons (hcombinator : s.combinator.isSome = true) (hs : s.compound.parts ≠ [])
    (h : FollowsChain behind) : FollowsChain (s :: behind) :=
  ⟨List.forall_mem_cons.mpr ⟨hs, h.full⟩, List.forall_mem_cons.mpr ⟨hcombinator, h.joined⟩⟩

theorem followsChain_nil : FollowsChain [] :=
  ⟨fun _ h => absurd h List.not_mem_nil, fun _ h => absurd h List.not_mem_nil⟩

theorem FollowsChain.sublist (h : FollowsChain segments) (hsub : front.Sublist segments) :
    FollowsChain front :=
  ⟨fun s hs => h.full s (hsub.subset hs), fun s hs => h.joined s (hsub.subset hs)⟩

theorem FollowsChain.append (h : FollowsChain front) (h' : FollowsChain behind) :
    FollowsChain (front ++ behind) :=
  ⟨List.forall_mem_append.mpr ⟨h.full, h'.full⟩, List.forall_mem_append.mpr ⟨h.joined, h'.joined⟩⟩

theorem isWellFormed_cons_iff :
    IsWellFormed (s :: behind) ↔ s.compound.parts ≠ [] ∧ FollowsChain behind := by
  constructor
  · intro h
    obtain ⟨hs, hbehind⟩ := List.forall_mem_cons.mp h.full
    exact ⟨hs, hbehind, h.joined⟩
  · rintro ⟨hs, hbehind⟩
    exact ⟨List.cons_ne_nil _ _, List.forall_mem_cons.mpr ⟨hs, hbehind.full⟩, hbehind.joined⟩

namespace IsWellFormed

theorem append (h : IsWellFormed front) (h' : FollowsChain behind) :
    IsWellFormed (front ++ behind) := by
  cases front with
  | nil => exact absurd rfl h.nonempty
  | cons first later =>
      obtain ⟨hfirst, hlater⟩ := isWellFormed_cons_iff.mp h
      exact isWellFormed_cons_iff.mpr ⟨hfirst, hlater.append h'⟩

/-- What stands in front of a segment is well formed, if it is anything. -/
theorem left (h : IsWellFormed (front ++ behind)) (hfront : front ≠ []) : IsWellFormed front := by
  cases front with
  | nil => exact absurd rfl hfront
  | cons first later =>
      obtain ⟨hfirst, hlater⟩ := isWellFormed_cons_iff.mp h
      exact isWellFormed_cons_iff.mpr ⟨hfirst, hlater.sublist (List.sublist_append_left _ _)⟩

theorem right (h : IsWellFormed (front ++ s :: behind)) : FollowsChain behind := by
  cases front with
  | nil => exact (isWellFormed_cons_iff.mp h).2
  | cons first later =>
      refine (isWellFormed_cons_iff.mp h).2.sublist ?_
      exact (List.sublist_cons_self s behind).trans (List.sublist_append_right _ _)

/-- With a combinator in front of it, what is left of well-formed segments follows others. -/
theorem follows (h : IsWellFormed segments) (count : Nat) :
    FollowsChain (Selector.joined (segments.drop count)) := by
  cases segments with
  | nil => exact absurd rfl h.nonempty
  | cons head rest =>
      cases hdrop : (head :: rest).drop count with
      | nil => exact followsChain_nil
      | cons first later =>
          have hfirst : first ∈ head :: rest := List.mem_of_mem_drop (hdrop ▸ List.mem_cons_self)
          have hlater : (head :: rest).drop (count + 1) = later := by
            rw [← List.tail_drop, hdrop, List.tail_cons]
          rw [List.drop_succ_cons] at hlater
          have hrest := (isWellFormed_cons_iff.mp h).2.sublist (List.drop_sublist count rest)
          exact followsChain_cons rfl (h.full first hfirst) (hlater ▸ hrest)

end IsWellFormed

/-! ## Nesting -/

variable {s t parent : Selector}

theorem isWellFormed_below (hs : IsWellFormed s.segments) (hparent : IsWellFormed parent.segments) :
    IsWellFormed (s.below parent).segments := by
  unfold below
  split
  · exact hparent
  next first later hsegments =>
    refine hparent.append ?_
    rw [hsegments] at hs
    exact hs.follows 0

/-- What a segment becomes is well formed, and goes on with a combinator if the segment did. -/
theorem isWellFormed_of_substitute {own : Segment} {pieces : List Segment}
    (hown : own.compound.parts ≠ []) (hparent : IsWellFormed parent.segments)
    (h : substitute parent own = .ok pieces) : IsWellFormed pieces ∧
      (own.combinator.isSome = true → FollowsChain pieces) := by
  suffices hfirst : ∃ first later, pieces = first :: later ∧ first.compound.parts ≠ [] ∧
      FollowsChain later ∧ (own.combinator.isSome = true → first.combinator.isSome = true) by
    obtain ⟨first, later, rfl, hfirst, hlater, hcombinator⟩ := hfirst
    exact ⟨isWellFormed_cons_iff.mpr ⟨hfirst, hlater⟩, fun hsome =>
      followsChain_cons (hcombinator hsome) hfirst hlater⟩
  by_cases hhas : own.compound.hasParent = true
  · obtain ⟨front, last, hsegments⟩ :=
      (List.eq_nil_or_concat' parent.segments).resolve_left hparent.nonempty
    obtain ⟨compound, hcompound, rfl⟩ := (substitute_eq_ok_iff hhas hsegments).mp h
    rw [hsegments] at hparent
    have hlast := hparent.full last (List.mem_append_right _ (List.mem_singleton_self _))
    have hfull : compound.parts ≠ [] := Compound.parts_substituteParent_ne_nil hown hlast hcompound
    cases front with
    | nil => exact ⟨_, [], rfl, hfull, followsChain_nil, fun hsome => by simp [Segment.behind, hsome]⟩
    | cons first middle =>
        obtain ⟨hfirst, hrest⟩ := isWellFormed_cons_iff.mp hparent
        have hlast := hrest.joined last (List.mem_append_right _ (List.mem_singleton_self _))
        refine ⟨first.behind own.combinator, middle ++ [⟨last.combinator, compound⟩], rfl, hfirst, ?_,
          fun hsome => by simp [Segment.behind, hsome]⟩
        exact (hrest.sublist (List.sublist_append_left _ _)).append
          (followsChain_cons hlast hfull followsChain_nil)
  · obtain rfl := Except.ok.inj (substitute_of_noParent (by simpa using hhas) ▸ h)
    exact ⟨own, [], rfl, hown, followsChain_nil, id⟩

theorem followsChain_of_substitutes {pieces : List (List Segment)}
    (hparent : IsWellFormed parent.segments)
    (h : List.Forall₂ (fun s piece => substitute parent s = .ok piece) segments pieces)
    (hsegments : FollowsChain segments) : FollowsChain pieces.flatten := by
  induction h with
  | nil => exact followsChain_nil
  | @cons own piece rest pieces hpiece _ ih =>
      have hfollows := (isWellFormed_of_substitute (hsegments.full own List.mem_cons_self) hparent
        hpiece).2 (hsegments.joined own List.mem_cons_self)
      rw [List.flatten_cons]
      exact hfollows.append (ih (hsegments.sublist (List.sublist_cons_self _ _)))

theorem isWellFormed_withoutLeadingSpace (h : IsWellFormed segments) :
    IsWellFormed (withoutLeadingSpace segments) := by
  unfold withoutLeadingSpace
  split
  next compound later =>
    obtain ⟨hfull, hlater⟩ := isWellFormed_cons_iff.mp h
    exact isWellFormed_cons_iff.mpr ⟨hfull, hlater⟩
  · exact h

/-- **Nesting makes well-formed selectors of well-formed ones.** -/
theorem isWellFormed_resolve (hs : IsWellFormed s.segments) (hparent : IsWellFormed parent.segments)
    (h : s.resolve parent = .ok t) : IsWellFormed t.segments := by
  unfold resolve at h
  split at h
  · obtain rfl := Except.ok.inj h
    exact isWellFormed_below hs hparent
  obtain ⟨pieces, hpieces, h⟩ := bind_eq_ok_iff.mp h
  obtain rfl := Except.ok.inj h
  cases hsegments : s.segments with
  | nil => exact absurd hsegments hs.nonempty
  | cons own rest =>
      rw [hsegments] at hs hpieces
      obtain ⟨hown, hrest⟩ := isWellFormed_cons_iff.mp hs
      cases mapM_eq_ok_iff.mp hpieces with
      | @cons _ piece _ pieces hpiece hothers =>
          have hfirst := (isWellFormed_of_substitute hown hparent hpiece).1
          exact isWellFormed_withoutLeadingSpace
            (hfirst.append (followsChain_of_substitutes hparent hothers hrest))

/-! ## Stripping -/

/-- Behind a segment that is kept, every other one gets a combinator. -/
theorem followsChain_stripSegments (segments : List Segment) :
    FollowsChain (stripSegments false segments) := by
  induction segments with
  | nil => exact followsChain_nil
  | cons own rest ih =>
      rw [stripSegments]
      dsimp only
      split
      · exact ih
      next hkept => exact followsChain_cons rfl (by simpa using hkept) ih

/-- The first segment that is kept stands alone or in front of such. -/
theorem stripSegments_cases (segments : List Segment) : stripSegments true segments = [] ∨
    ∃ compound later, stripSegments true segments = ⟨none, compound⟩ :: later ∧
      compound.parts ≠ [] ∧ FollowsChain later := by
  induction segments with
  | nil => exact Or.inl rfl
  | cons own rest ih =>
      rw [stripSegments]
      dsimp only
      split
      · exact ih
      next hkept =>
        exact Or.inr ⟨_, _, rfl, by simpa using hkept, followsChain_stripSegments rest⟩

theorem exists_of_stripParents? (h : s.stripParents? = some t) : ∃ compound later,
    t.segments = ⟨none, compound⟩ :: later ∧ compound.parts ≠ [] ∧ FollowsChain later := by
  unfold stripParents? at h
  split at h
  · cases h
  next hne =>
    obtain rfl := Option.some.inj h
    exact (stripSegments_cases s.segments).resolve_left hne

theorem isWellFormed_stripParents? (h : s.stripParents? = some t) : IsWellFormed t.segments := by
  obtain ⟨compound, later, hsegments, hfull, hlater⟩ := exists_of_stripParents? h
  exact hsegments ▸ isWellFormed_cons_iff.mpr ⟨hfull, hlater⟩

/-! ## Extending -/

theorem isWellFormed_weave {own extending : List Segment} (context : List Selector)
    (hown : own = [] ∨ IsWellFormed own) (hextending : extending = [] ∨ IsWellFormed extending) :
    weave own extending context = [] ∨ IsWellFormed (weave own extending context) := by
  unfold weave
  split
  · exact hextending
  next hne =>
    have hown := hown.resolve_left (by simpa using hne)
    split
    · exact Or.inr hown
    split
    · exact hextending
    · refine Or.inr (hown.append ?_)
      rcases hextending with rfl | hextending
      · rw [List.drop_nil]
        exact followsChain_nil
      · exact hextending.follows _

/-- **Extending makes well-formed selectors of well-formed ones.** -/
theorem isWellFormed_extendWith {e : Extension} (hs : IsWellFormed s.segments)
    (he : IsWellFormed e.extending.segments) (h : t ∈ s.extendWith e) : IsWellFormed t.segments := by
  obtain ⟨-, own, at', behind, hsplit, hat⟩ := mem_extendWith.mp h
  simp only [extendAt, Option.bind_eq_bind, Option.bind_eq_some_iff] at hat
  obtain ⟨last, hlast, unified, hunified, ht⟩ := hat
  obtain rfl := Option.some.inj ht
  rw [hsplit] at hs
  have hfull : unified.parts ≠ [] :=
    Compound.parts_unify?_ne_nil (he.full last (List.mem_of_getLast? hlast)) hunified
  obtain ⟨ancestry, hancestry⟩ := List.getLast?_eq_some_iff.mp hlast
  rw [hancestry] at he
  rw [hancestry, List.dropLast_concat]
  have hwoven := isWellFormed_weave e.context (or_iff_not_imp_left.mpr hs.left)
    (or_iff_not_imp_left.mpr he.left)
  generalize weave own ancestry e.context = woven at hwoven ⊢
  rcases hwoven with rfl | hwoven
  · exact isWellFormed_cons_iff.mpr ⟨hfull, hs.right⟩
  · refine hwoven.append (followsChain_cons ?_ hfull hs.right)
    rw [List.isEmpty_eq_false_iff.mpr hwoven.nonempty]
    rfl

/-- **Selectors stay well formed, and `&` is gone when it has been replaced.** What a well-formed selector
becomes inside a rule is well formed, and so is what is left of it at the top level; no `&` is left in
either, if there was none in the selector of the rule. Whatever follows from it by an extension is well
formed, if the extending selector is; nothing is asked of the target and of the selectors around. -/
theorem stays_wellFormed {s parent : Selector} {e : Extension} (hs : IsWellFormed s.segments)
    (hparent : IsWellFormed parent.segments) (hfree : parent.hasParent = false)
    (he : IsWellFormed e.extending.segments) :
    (∀ t, s.resolve parent = .ok t → IsWellFormed t.segments ∧ t.hasParent = false) ∧
      (∀ t, s.stripParents? = some t → IsWellFormed t.segments ∧ t.hasParent = false) ∧
      ∀ t ∈ s.extendWith e, IsWellFormed t.segments :=
  ⟨fun _ ht => ⟨isWellFormed_resolve hs hparent ht, resolve_noParent ht hfree⟩,
    fun _ ht => ⟨isWellFormed_stripParents? ht, stripParents?_noParent ht⟩,
    fun _ ht => isWellFormed_extendWith hs he ht⟩

/-- `.c ~ &-d > .x`. -/
def besideParent : Selector := ⟨[⟨none, .ofClass "c"⟩, ⟨some .sibling, .ofList [.parent (some "-d")]⟩,
  ⟨some .child, .ofClass "x"⟩]⟩

/-- `> .a + .p`. -/
def childAndNext : Selector := ⟨[⟨some .child, .ofClass "a"⟩, ⟨some .adjacent, .ofClass "p"⟩]⟩

/-- `@extend .x` in `.q > .y`, which stands in a rule for `.q`. -/
def extendsChild : Extension where
  target := .ofClass "x"
  extending := ⟨[⟨none, .ofClass "q"⟩, ⟨some .child, .ofClass "y"⟩]⟩
  context := [.ofClass "q"]
  optional := false
  position := default

theorem besideParent_stays :
    (∃ t, besideParent.resolve childAndNext = .ok t ∧ t.text = ".c ~ .a + .p-d > .x" ∧
      IsWellFormed t.segments ∧ t.hasParent = false) ∧
    (∃ t, besideParent.stripParents? = some t ∧ t.text = ".c > .x" ∧
      IsWellFormed t.segments ∧ t.hasParent = false) ∧
    ∃ t ∈ besideParent.extendWith extendsChild, t.text = ".c ~ &-d .q > .y" ∧
      IsWellFormed t.segments := by
  obtain ⟨hresolve, hstrip, hextend⟩ := @stays_wellFormed besideParent childAndNext extendsChild
    (by decide) (by decide) (by decide) (by decide)
  refine ⟨⟨_, rfl, by decide +kernel, hresolve _ rfl⟩, ⟨_, rfl, by decide +kernel, hstrip _ rfl⟩, ?_⟩
  have hmem : ∃ t ∈ besideParent.extendWith extendsChild, t.text = ".c ~ &-d .q > .y" := by
    decide +kernel
  obtain ⟨t, ht, htext⟩ := hmem
  exact ⟨t, ht, htext, hextend t ht⟩

end Selector

end Scss
