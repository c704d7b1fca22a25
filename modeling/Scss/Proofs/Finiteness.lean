import Mathlib.Algebra.Order.BigOperators.Group.Finset
import Mathlib.Data.Fintype.List
import Mathlib.Data.Set.Finite.List
import Scss.Proofs.Reordering
import Scss.Proofs.Weaving

/-!
# Which closures are finite

The closure of a selector list need not be finite. Weaving leaves out an ancestry that is there
already, but it looks for it only at the beginning. Where an extending selector ends in its own
target, as in `.a .x` extending `.x`, the extension applies to what it has brought, and brings its
ancestry once more: `.p .x`, `.p .a .x`, `.p .a .a .x`, and so on until the limit stops it.

A closure is finite if every extension pays for what it brings. Let simple selectors have weights,
and let a chain weigh one for each segment besides. An extension pays (`Pays`) if the extending
selector weighs no more than what the target takes away. Then nothing weighs more than what was
written, so nothing is longer than that, and there are only finitely many chains of a length over
the simple selectors at hand.

There are such weights if chains only descend: each simple selector has a rank, and what a chain
brings is of a lower rank than what it replaces (`Descends`). Extending selectors that are a
compound bring no segments, and are left out of this if none of their parts is extended by a chain.
-/

namespace Scss

variable {weight : SimpleSelector → Nat}

/-! ## What a compound weighs -/

namespace Compound

variable {c target extending u : Compound} {x : SimpleSelector}

/-- What the parts weigh together. -/
def weigh (weight : SimpleSelector → Nat) (c : Compound) : Nat :=
  ∑ x ∈ c.parts.toFinset, weight x

/-- A part of a target that no compound is without to which the target applies. A universal test is
not asked for, and neither are tests of the element behind one. -/
def Requires (target : Compound) (x : SimpleSelector) : Prop :=
  x ∈ target.parts ∧ (x.isElementTest = true → target.namesElement = true)

theorem Requires.mem (hx : target.Requires x) (h : target.subsumes c = true) : x ∈ c.parts := by
  rcases subsumes_eq_true_iff.mp h x hx.1 with ⟨hnone, htest⟩ | hmem
  · rw [hx.2 htest] at hnone
    cases hnone
  · exact hmem

/-- Unifying adds no more than the extending compound. -/
theorem weigh_le_of_unify? (h : c.unify? target extending = some u) :
    u.weigh weight ≤
      (∑ x ∈ c.parts.toFinset \ target.parts.toFinset, weight x) + extending.weigh weight := by
  obtain ⟨-, rfl, -⟩ := exists_of_unify? h
  have hsub : ((c.kept target extending).union extending).parts.toFinset ⊆
      (c.parts.toFinset \ target.parts.toFinset) ∪ extending.parts.toFinset := by
    intro x hx
    rw [Finset.mem_union, Finset.mem_sdiff, List.mem_toFinset, List.mem_toFinset, List.mem_toFinset]
    refine (mem_union.mp (List.mem_toFinset.mp hx)).imp_left fun hx => ?_
    exact ⟨(mem_kept.mp hx).1, (mem_kept.mp hx).2.1⟩
  calc ((c.kept target extending).union extending).weigh weight
      ≤ ∑ x ∈ (c.parts.toFinset \ target.parts.toFinset) ∪ extending.parts.toFinset, weight x :=
        Finset.sum_le_sum_of_subset hsub
    _ ≤ _ := by
        rw [weigh, ← Finset.sum_union_inter]
        exact Nat.le_add_right _ _

/-- What remains without the target weighs less than the compound by any part that the target
requires. -/
theorem weigh_difference_add (hx : target.Requires x) (h : target.subsumes c = true) :
    (∑ y ∈ c.parts.toFinset \ target.parts.toFinset, weight y) + weight x ≤ c.weigh weight := by
  have hmem : x ∈ c.parts.toFinset := List.mem_toFinset.mpr (hx.mem h)
  rw [weigh, ← Finset.sum_erase_add _ _ hmem]
  refine Nat.add_le_add_right (Finset.sum_le_sum_of_subset fun y hy => ?_) _
  obtain ⟨hy, hgone⟩ := Finset.mem_sdiff.mp hy
  refine Finset.mem_erase.mpr ⟨?_, hy⟩
  rintro rfl
  exact hgone (List.mem_toFinset.mpr hx.1)

theorem weigh_difference_le :
    ∑ y ∈ c.parts.toFinset \ target.parts.toFinset, weight y ≤ c.weigh weight :=
  Finset.sum_le_sum_of_subset Finset.sdiff_subset

end Compound

/-! ## What a chain weighs -/

/-- What a chain weighs: one for each segment, and what the compounds weigh. -/
def weighAll (weight : SimpleSelector → Nat) (chain : List Segment) : Nat :=
  (chain.map fun a => 1 + a.compound.weigh weight).sum

theorem weighAll_append (as bs : List Segment) :
    weighAll weight (as ++ bs) = weighAll weight as + weighAll weight bs := by
  rw [weighAll, List.map_append, List.sum_append]
  rfl

theorem weighAll_cons (a : Segment) (as : List Segment) :
    weighAll weight (a :: as) = 1 + a.compound.weigh weight + weighAll weight as := by
  rw [weighAll, List.map_cons, List.sum_cons]
  rfl

theorem length_le_weighAll (chain : List Segment) : chain.length ≤ weighAll weight chain := by
  induction chain with
  | nil => exact Nat.zero_le _
  | cons a as ih =>
      rw [weighAll_cons, List.length_cons]
      omega

theorem weighAll_drop_le (n : Nat) (chain : List Segment) :
    weighAll weight (chain.drop n) ≤ weighAll weight chain := by
  conv_rhs => rw [← List.take_append_drop n chain, weighAll_append]
  exact Nat.le_add_left _ _

theorem weighAll_joined (chain : List Segment) :
    weighAll weight (Selector.joined chain) = weighAll weight chain := by
  cases chain <;> rfl

/-- Weaving adds no more than the extending ancestry. -/
theorem weighAll_weave_le (own extending : List Segment) (context : List Selector) :
    weighAll weight (Selector.weave own extending context) ≤
      weighAll weight own + weighAll weight extending := by
  unfold Selector.weave
  split
  · exact Nat.le_add_left _ _
  split
  · exact Nat.le_add_right _ _
  split
  · exact Nat.le_add_left _ _
  rw [weighAll_append, weighAll_joined]
  exact Nat.add_le_add_left (weighAll_drop_le _ _) _

/-- A chain in which no simple selector weighs more than `most`. -/
theorem weighAll_le {chain : List Segment} {most : Nat}
    (h : ∀ x ∈ Selector.simplesOf chain, weight x ≤ most) :
    weighAll weight chain ≤ chain.length + (Selector.simplesOf chain).length * most := by
  induction chain with
  | nil => exact Nat.zero_le _
  | cons a as ih =>
      rw [Selector.simplesOf_cons] at h ⊢
      have hrest := ih fun x hx => h x (List.mem_append_right _ hx)
      have hfirst : a.compound.weigh weight ≤ a.compound.parts.length * most := by
        rw [Compound.weigh, ← List.toFinset_card_of_nodup a.compound.nodup]
        refine Finset.sum_le_card_nsmul _ _ _ fun x hx => ?_
        exact h x (List.mem_append_left _ (List.mem_toFinset.mp hx))
      rw [weighAll_cons, List.length_cons, List.length_append, Nat.add_mul]
      omega

/-! ## Extensions that pay -/

/-- The extending selector is a compound that weighs nothing, or weighs no more than a part that the
target takes away. -/
def Extension.Pays (weight : SimpleSelector → Nat) (e : Extension) : Prop :=
  weighAll weight e.extending.segments ≤ 1 ∨
    ∃ x, e.target.Requires x ∧ weighAll weight e.extending.segments ≤ 1 + weight x

/-- **What follows by an extension that pays weighs no more.** -/
theorem weighAll_extendWith_le {s t : Selector} {e : Extension} (hpays : e.Pays weight)
    (h : t ∈ s.extendWith e) : weighAll weight t.segments ≤ weighAll weight s.segments := by
  obtain ⟨-, own, at', behind, hsplit, hat⟩ := Selector.mem_extendWith.mp h
  obtain ⟨last, unified, combinator, hlast, hunified, rfl, -⟩ := Selector.exists_of_extendAt hat
  have hextending : weighAll weight e.extending.segments =
      weighAll weight e.extending.segments.dropLast + (1 + last.compound.weigh weight) := by
    conv_lhs => rw [← List.dropLast_append_getLast? last hlast, weighAll_append, weighAll_cons]
    rfl
  have hwoven : weighAll weight (Selector.weave own e.extending.segments.dropLast e.context) ≤
      weighAll weight own + weighAll weight e.extending.segments.dropLast :=
    weighAll_weave_le _ _ _
  have hadded : unified.weigh weight ≤
      (∑ x ∈ at'.compound.parts.toFinset \ e.target.parts.toFinset, weight x) +
        last.compound.weigh weight := Compound.weigh_le_of_unify? hunified
  -- what the compound loses is at least what the extending selector brings
  have hpaid : (∑ x ∈ at'.compound.parts.toFinset \ e.target.parts.toFinset, weight x) +
      weighAll weight e.extending.segments ≤ 1 + at'.compound.weigh weight := by
    rcases hpays with hlight | ⟨x, hx, hpays⟩
    · have hrest : ∑ x ∈ at'.compound.parts.toFinset \ e.target.parts.toFinset, weight x ≤
          at'.compound.weigh weight := Compound.weigh_difference_le
      omega
    · have hrest : (∑ x ∈ at'.compound.parts.toFinset \ e.target.parts.toFinset, weight x) +
          weight x ≤ at'.compound.weigh weight :=
        Compound.weigh_difference_add hx (Compound.exists_of_unify? hunified).1
      omega
  rw [hsplit, weighAll_append, weighAll_append, weighAll_cons, weighAll_cons]
  dsimp only
  omega

/-! ## Finitely many chains -/

theorem Compound.finite_of_parts {simples : Set SimpleSelector} (h : simples.Finite) :
    {c : Compound | ∀ x ∈ c.parts, x ∈ simples}.Finite := by
  have := h.to_subtype
  have := Fintype.ofFinite simples
  -- each is the image of a list of simple selectors without repetition
  let build : {l : List simples // l.Nodup} → Compound := fun l =>
    ⟨l.1.map Subtype.val, l.2.map Subtype.val_injective⟩
  refine (Set.finite_range build).subset fun c hc => ?_
  have hc : ∀ x ∈ c.parts, x ∈ simples := hc
  obtain ⟨l, hl⟩ : c.parts ∈ Set.range (List.map (Subtype.val : simples → SimpleSelector)) := by
    rw [Set.range_list_map_coe]
    exact hc
  obtain ⟨parts, nodup⟩ := c
  dsimp only at hl
  subst hl
  exact ⟨⟨l, nodup.of_map Subtype.val⟩, rfl⟩

theorem Segment.finite_of_parts {simples : Set SimpleSelector} (h : simples.Finite) :
    {a : Segment | ∀ x ∈ a.compound.parts, x ∈ simples}.Finite := by
  have hcombinators : (Set.univ : Set (Option Combinator)).Finite := by
    refine Set.Finite.subset (Set.toFinite
      {none, some .descendant, some .child, some .adjacent, some .sibling}) fun combinator _ => ?_
    rcases combinator with _ | _ | _ | _ | _ <;> simp
  refine (hcombinators.image2 Segment.mk (Compound.finite_of_parts h)).subset fun a ha => ?_
  exact ⟨a.combinator, trivial, a.compound, ha, rfl⟩

/-- There are finitely many selectors of a length over finitely many simple selectors. -/
theorem Selector.finite_of_simples {simples : Set SimpleSelector} (h : simples.Finite)
    (longest : Nat) :
    {s : Selector | s.segments.length ≤ longest ∧ ∀ x ∈ s.simples, x ∈ simples}.Finite := by
  let allowed : Set Segment := {a | ∀ x ∈ a.compound.parts, x ∈ simples}
  have := (Segment.finite_of_parts h).to_subtype
  have hchains := List.finite_length_le allowed longest
  refine (hchains.image fun chain => ⟨chain.map Subtype.val⟩).subset fun s hs => ?_
  obtain ⟨hlength, hsimples⟩ := hs
  have hallowed : ∀ a ∈ s.segments, a ∈ allowed := fun a ha x hx =>
    hsimples x (mem_simplesOf.mpr ⟨a, ha, hx⟩)
  obtain ⟨chain, hchain⟩ : s.segments ∈ Set.range (List.map (Subtype.val : allowed → Segment)) := by
    rw [Set.range_list_map_coe]
    exact hallowed
  refine ⟨chain, ?_, congrArg Selector.mk hchain⟩
  rwa [← hchain, List.length_map] at hlength

namespace Extending

variable {extensions : List Extension} {written : List Selector}

/-- The simple selectors of a closure are there from the start. -/
theorem Derived.mem_simples {s : Selector} (h : Derived extensions written s)
    {x : SimpleSelector} (hx : x ∈ s.simples) :
    x ∈ (written ++ extensions.map Extension.extending).flatMap Selector.simples := by
  induction h with
  | written hs => exact List.mem_flatMap.mpr ⟨_, List.mem_append_left _ hs, hx⟩
  | extended _ he ht ih =>
      rcases Selector.mem_simples_extendWith ht hx with hx | hx
      · exact ih hx
      · refine List.mem_flatMap.mpr ⟨_, List.mem_append_right _ ?_, hx⟩
        exact List.mem_map_of_mem he

/-- A closure is finite if every extension pays for what it brings. -/
theorem closure_finite_of_pays (hpays : ∀ e ∈ extensions, e.Pays weight) :
    (closure extensions written).Finite := by
  let heaviest := (written.map fun s => weighAll weight s.segments).sum
  have hweigh : ∀ s, Derived extensions written s → weighAll weight s.segments ≤ heaviest := by
    intro s hs
    induction hs with
    | written hs => exact List.le_sum_of_mem (List.mem_map_of_mem hs)
    | extended _ he ht ih => exact (weighAll_extendWith_le (hpays _ he) ht).trans ih
  have hfinite := (List.finite_toSet
    ((written ++ extensions.map Extension.extending).flatMap Selector.simples))
  refine (Selector.finite_of_simples hfinite heaviest).subset fun s hs => ?_
  have hs := mem_closure.mp hs
  exact ⟨(length_le_weighAll _).trans (hweigh s hs), fun x hx => hs.mem_simples hx⟩

end Extending

/-! ## Chains that descend -/

/-- The extending selector is a compound of the lowest rank, or all of it has a lower rank than a
part that the target takes away. -/
def Extension.Descends (rank : SimpleSelector → Nat) (e : Extension) : Prop :=
  (e.extending.segments.length ≤ 1 ∧ ∀ y ∈ e.extending.simples, rank y = 0) ∨
    ∃ x, e.target.Requires x ∧ 0 < rank x ∧ ∀ y ∈ e.extending.simples, rank y < rank x

/-- An extension that descends pays, if weights grow fast enough with the rank. -/
theorem Extension.Descends.pays {rank : SimpleSelector → Nat} {e : Extension} {base : Nat}
    (h : e.Descends rank) (hbase : 0 < base)
    (hsize : e.extending.segments.length + e.extending.simples.length ≤ base) :
    e.Pays fun x => base ^ rank x - 1 := by
  rcases h with ⟨hlength, hlowest⟩ | ⟨x, hx, hrank, hlower⟩
  · have hnothing : ∀ y ∈ e.extending.simples, base ^ rank y - 1 ≤ 0 := by
      intro y hy
      rw [hlowest y hy, Nat.pow_zero]
    refine Or.inl ((weighAll_le hnothing).trans ?_)
    rwa [Nat.mul_zero, Nat.add_zero]
  · obtain ⟨lower, hlower'⟩ : ∃ lower, rank x = lower + 1 := ⟨rank x - 1, by omega⟩
    have hmost : ∀ y ∈ e.extending.simples, base ^ rank y - 1 ≤ base ^ lower - 1 := by
      intro y hy
      have hle : rank y ≤ lower := by have := hlower y hy; omega
      exact Nat.sub_le_sub_right (Nat.pow_le_pow_right hbase hle) 1
    have hpow : 0 < base ^ lower := Nat.pow_pos hbase
    refine Or.inr ⟨x, hx, (weighAll_le hmost).trans ?_⟩
    calc e.extending.segments.length + e.extending.simples.length * (base ^ lower - 1)
        ≤ e.extending.segments.length * base ^ lower +
            e.extending.simples.length * base ^ lower :=
          Nat.add_le_add (Nat.le_mul_of_pos_right _ hpow)
            (Nat.mul_le_mul_left _ (Nat.sub_le _ _))
      _ = (e.extending.segments.length + e.extending.simples.length) * base ^ lower :=
          (Nat.add_mul _ _ _).symm
      _ ≤ base * base ^ lower := Nat.mul_le_mul_right _ hsize
      _ = base ^ rank x := by rw [hlower', Nat.pow_succ']
      _ ≤ 1 + (base ^ rank x - 1) := by omega

namespace Extending

variable {extensions : List Extension} {written : List Selector}

/--
**The closure is finite if chains descend.**

Let each simple selector have a rank, such that whatever an extending selector holds is of a lower
rank than a part of the target that is replaced by it. Compounds that extend may also be of the
lowest rank, whatever they extend. Then only finitely many selectors follow.
-/
theorem closure_finite_of_descends {rank : SimpleSelector → Nat}
    (hdescends : ∀ e ∈ extensions, e.Descends rank) : (closure extensions written).Finite := by
  let size : Extension → Nat := fun e => e.extending.segments.length + e.extending.simples.length
  have hsize : ∀ e ∈ extensions, size e ≤ (extensions.map size).sum + 1 := fun e he =>
    (List.le_sum_of_mem (List.mem_map_of_mem he)).trans (Nat.le_succ _)
  exact closure_finite_of_pays fun e he => (hdescends e he).pays (Nat.succ_pos _) (hsize e he)

/-- A class extended by elements of one class that are anywhere inside another. -/
def extendedInside (target outer inner : String) : Extension where
  target := .ofClass target
  extending := Page.inside outer inner
  context := []
  optional := false
  position := default

/-- Where `.a .x` extends `.y`, finitely many selectors follow from `.p .y`: of `.y` alone the rank
has to be more than that of what extends it. -/
theorem insideOther_closure_finite :
    (extendedInside "y" "a" "x").Descends (fun x => if x = .ofClass "y" then 1 else 0) ∧
      (closure [extendedInside "y" "a" "x"] [Page.inside "p" "y"]).Finite := by
  have hdescends : (extendedInside "y" "a" "x").Descends
      (fun x => if x = .ofClass "y" then 1 else 0) :=
    Or.inr ⟨.ofClass "y", ⟨List.mem_singleton.mpr rfl, nofun⟩, by decide, by decide⟩
  have hall : ∀ e ∈ [extendedInside "y" "a" "x"],
      e.Descends (fun x => if x = .ofClass "y" then 1 else 0) := by
    intro e he
    obtain rfl := List.mem_singleton.mp he
    exact hdescends
  exact ⟨hdescends, closure_finite_of_descends hall⟩

/-! ## Chains that come back to their target -/

/-- The chain `.p .a … .a`, with `n` times `.a`. -/
def repeating (outer repeated : String) (n : Nat) : List Segment :=
  ⟨none, .ofClass outer⟩ :: List.replicate n ⟨some .descendant, .ofClass repeated⟩

/-- An element of a class somewhere inside a chain. -/
def insideAll (chain : List Segment) (inner : String) : Selector :=
  ⟨chain ++ [⟨some .descendant, .ofClass inner⟩]⟩

/-- Where `.a .x` extends `.x`, one more `.a` can always be put in front of an `.x` that is inside
something else. -/
theorem insideAll_extendWith {outer repeated : String} (h : outer ≠ repeated) (inner : String)
    (n : Nat) : insideAll (repeating outer repeated (n + 1)) inner ∈
      (insideAll (repeating outer repeated n) inner).extendWith
        (extendedInside inner repeated inner) := by
  have hlonger : repeating outer repeated (n + 1) =
      repeating outer repeated n ++ [⟨some .descendant, .ofClass repeated⟩] := by
    rw [repeating, List.replicate_succ']
    rfl
  have hapart : Compound.ofClass repeated ≠ Compound.ofClass outer := by
    simpa [Compound.ofClass] using Ne.symm h
  have hunified : (Compound.ofClass inner).unify? (.ofClass inner) (.ofClass inner) =
      some (.ofClass inner) := by
    simp [Compound.unify?, Compound.ofClass, Compound.subsumes, Compound.namesElement,
      Compound.elementTest?, Compound.difference, Compound.union, Compound.addNew,
      Compound.inOrder, Compound.ofRank, Compound.isContradictory, Compound.ids,
      SimpleSelector.isElementTest, SimpleSelector.rank]
  -- the chain begins with another class, so weaving does not see that the ancestry is there
  have hwoven : Selector.weave (repeating outer repeated n) [⟨none, .ofClass repeated⟩] [] =
      repeating outer repeated (n + 1) := by
    rw [hlonger]
    simp [Selector.weave, repeating, hapart, hapart.symm, Selector.sharedLength, Selector.joined]
  refine Selector.mem_extendWith.mpr ⟨?_, repeating outer repeated n,
    ⟨some .descendant, .ofClass inner⟩, [], rfl, ?_⟩
  · intro heq
    have hlengths := congrArg (fun s => s.segments.length) heq
    simp [insideAll, repeating] at hlengths
  · have hnonempty : repeating outer repeated (n + 1) ≠ [] := List.cons_ne_nil _ _
    simp [Selector.extendAt, extendedInside, Page.inside, hunified, hwoven, hnonempty, insideAll]

/-- The extensions of `.x` by `.a .x` and by `.b .x`. -/
def comingBack : List Extension := [extendedInside "x" "a" "x", extendedInside "x" "b" "x"]

/-- Infinitely many selectors follow from `.p .x` if `.a .x` and `.b .x` extend `.x`: `.p .a .x`,
`.p .a .a .x` and so on. So a rule of a single selector is given up. -/
theorem comingBack_closure_infinite :
    (closure comingBack [Page.inside "p" "x"]).Infinite ∧
      extendSelectors comingBack [false, false] [Page.inside "p" "x"] =
        .error (.limitExceeded .extendedSelectors maxSelectors) := by
  have hderived : ∀ n, Derived comingBack [Page.inside "p" "x"]
      (insideAll (repeating "p" "a" n) "x") := by
    intro n
    induction n with
    | zero => exact .written List.mem_cons_self
    | succ n ih => exact .extended ih List.mem_cons_self (insideAll_extendWith (by decide) "x" n)
  have hinfinite : (closure comingBack [Page.inside "p" "x"]).Infinite := by
    refine Set.infinite_of_injective_forall_mem (f := fun n => insideAll (repeating "p" "a" n) "x")
      ?_ fun n => mem_closure.mpr (hderived n)
    intro m n heq
    have hlengths := congrArg (fun s => s.segments.length) heq
    simpa [insideAll, repeating] using hlengths
  have hexceeds : Exceeds comingBack [Page.inside "p" "x"] := by
    rw [Exceeds, hinfinite.encard_eq]
    exact ⟨ENat.natCast_lt_top _, (List.finite_toSet _).encard_lt_top⟩
  refine ⟨hinfinite, ?_⟩
  rcases extendSelectors_cases (comingBack.map fun e => (e, false)) [Page.inside "p" "x"] with
    ⟨-, hfails⟩ | ⟨hfew, -⟩
  · exact hfails
  · exact absurd hexceeds hfew

end Extending

end Scss
