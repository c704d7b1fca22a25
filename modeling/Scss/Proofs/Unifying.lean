import Scss.Proofs.Parts

/-!
# Unified compounds

Where a compound is extended, the parts of the target give way to those of the extending compound.
What is kept of it (`kept`) is determined part by part, except that an element takes the place of a
universal test.

The tests of the element have to be looked at more closely. A universal test counts for nothing, and
where it stands in front of an element it hides it, so that asking for no more is not transitive. In
compounds with one test of the element it hides none, and although a compound may get a second test
by extending (`a` extended by `*` becomes `a*`), the element still comes first (`ElementFirst`).
-/

namespace Scss

namespace Compound

/-! ## The test of the element -/

/-- At most one part tests the element. -/
def TestsOnce (c : Compound) : Prop :=
  ∀ x ∈ c.parts, ∀ y ∈ c.parts, x.isElementTest = true → y.isElementTest = true → x = y

/-- If an element is named, that is the first test of the element. So there are not two of them. -/
def ElementFirst (c : Compound) : Prop :=
  ∀ name, .element name ∈ c.parts → c.elementTest? = some (.element name)

instance (c : Compound) : Decidable c.TestsOnce := by
  unfold TestsOnce
  infer_instance

variable {c d e target extending u : Compound}

theorem isElementTest_iff {x : SimpleSelector} :
    x.isElementTest = true ↔ x = .universal ∨ ∃ name, x = .element name := by
  cases x <;> simp [SimpleSelector.isElementTest]

theorem TestsOnce.elementFirst (hc : c.TestsOnce) : c.ElementFirst := by
  intro name hname
  obtain ⟨x, hx⟩ : ∃ x, c.elementTest? = some x :=
    Option.isSome_iff_exists.mp (List.find?_isSome.mpr ⟨_, hname, rfl⟩)
  rw [hx, hc x (List.mem_of_find?_eq_some hx) _ hname (List.find?_some hx) rfl]

theorem namesElement_iff :
    c.namesElement = true ↔ ∃ name, c.elementTest? = some (.element name) := by
  rw [namesElement]
  cases h : c.elementTest? with
  | none => exact ⟨nofun, nofun⟩
  | some x =>
      cases x with
      | element name => exact ⟨fun _ => ⟨name, rfl⟩, fun _ => rfl⟩
      | _ => exact ⟨nofun, fun ⟨_, h⟩ => nomatch h⟩

/-- A named element is a part. -/
theorem mem_of_elementTest? {x : SimpleSelector} (h : c.elementTest? = some x) : x ∈ c.parts :=
  List.mem_of_find?_eq_some h

theorem subsumes_eq_true_iff : c.subsumes d = true ↔
    ∀ x ∈ c.parts, (c.namesElement = false ∧ x.isElementTest = true) ∨ x ∈ d.parts := by
  simp only [subsumes, List.all_eq_true, Bool.or_eq_true, Bool.and_eq_true, Bool.not_eq_true',
    decide_eq_true_eq]

/-- Asking for no more is transitive where the compound between names its element first. -/
theorem subsumes_trans (hd : d.ElementFirst) (hcd : c.subsumes d = true)
    (hde : d.subsumes e = true) : c.subsumes e = true := by
  rw [subsumes_eq_true_iff] at hcd hde ⊢
  intro x hx
  rcases hcd x hx with hany | hxd
  · exact Or.inl hany
  rcases hde x hxd with ⟨hnone, htest⟩ | hxe
  · -- if `c` named an element, `d` would have it as a part, and so would name it
    refine Or.inl ⟨Bool.eq_false_iff.mpr fun hnames => ?_, htest⟩
    obtain ⟨name, hname⟩ := namesElement_iff.mp hnames
    have hpart : .element name ∈ d.parts := by
      refine (hcd _ (mem_of_elementTest? hname)).resolve_left fun h => ?_
      rw [hnames] at h
      exact absurd h.1 (by decide)
    have hnames : d.namesElement = true := namesElement_iff.mpr ⟨name, hd name hpart⟩
    rw [hnames] at hnone
    cases hnone
  · exact Or.inr hxe

/-! ## Unifying -/

theorem rank_of_isElementTest {x : SimpleSelector} (h : x.isElementTest = true) : x.rank = 0 := by
  cases x <;> first | rfl | cases h

theorem find?_foldl_addNew (test : SimpleSelector → Bool) (xs ys : List SimpleSelector) :
    (ys.foldl addNew xs).find? test = (xs.find? test).or (ys.find? test) := by
  induction ys generalizing xs with
  | nil => exact Option.or_none.symm
  | cons y ys ih =>
      rw [List.foldl_cons, ih, addNew]
      split
      next hy =>
        -- `y` is not added, and if it passes the test then so does one of `xs`
        cases hxs : xs.find? test with
        | some x => rfl
        | none =>
            have hfails := List.find?_eq_none.mp hxs y hy
            rw [List.find?_cons_of_neg hfails]
      · rw [List.find?_append, Option.or_assoc]
        congr 1
        cases htest : test y <;> simp [htest]

/-- Writing the parts in order does not change which test of the element comes first. -/
theorem find?_inOrder (xs : List SimpleSelector) :
    (inOrder xs).find? SimpleSelector.isElementTest = xs.find? SimpleSelector.isElementTest := by
  have hlater : ∀ r, r ≠ 0 → (ofRank r xs).find? SimpleSelector.isElementTest = none := by
    intro r hr
    refine List.find?_eq_none.mpr fun x hx htest => hr ?_
    rw [← (mem_ofRank.mp hx).2, rank_of_isElementTest htest]
  have hfirst : (ofRank 0 xs).find? SimpleSelector.isElementTest =
      xs.find? SimpleSelector.isElementTest := by
    rw [ofRank, List.find?_filter]
    congr 1
    funext x
    cases htest : x.isElementTest with
    | false => simp
    | true => simp [rank_of_isElementTest htest]
  simp only [inOrder, List.find?_append, hfirst, hlater 1 (by decide), hlater 2 (by decide),
    hlater 3 (by decide), Option.or_none]

theorem elementTest?_union : (c.union d).elementTest? = c.elementTest?.or d.elementTest? := by
  show (inOrder (d.parts.foldl addNew c.parts)).find? _ = _
  rw [find?_inOrder, find?_foldl_addNew]
  rfl

/-- The parts that are kept name their element first as well. -/
theorem ElementFirst.keep (hc : c.ElementFirst) (test : SimpleSelector → Bool) :
    (c.keep test).ElementFirst := by
  intro name hname
  obtain ⟨hpart, htest⟩ := List.mem_filter.mp hname
  obtain ⟨hself, before, behind, hparts, hnone⟩ := List.find?_eq_some_iff_append.mp (hc name hpart)
  refine List.find?_eq_some_iff_append.mpr ⟨hself, before.filter test, behind.filter test, ?_, ?_⟩
  · show c.parts.filter test = _
    rw [hparts, List.filter_append, List.filter_cons_of_pos htest]
  · exact fun x hx => hnone x (List.mem_filter.mp hx).1

/-- What unifying keeps of a compound: the parts that are not in the target, and no universal test
if the extending compound names an element. -/
def kept (c target extending : Compound) : Compound :=
  c.keep fun x => x ∉ target.parts ∧ (extending.namesElement = true → x ≠ .universal)

theorem mem_kept {x : SimpleSelector} : x ∈ (c.kept target extending).parts ↔
    x ∈ c.parts ∧ x ∉ target.parts ∧ (extending.namesElement = true → x ≠ .universal) :=
  List.mem_filter.trans (and_congr Iff.rfl decide_eq_true_iff)

/-- What is kept is what unifying leaves of the compound. -/
theorem kept_eq (c target extending : Compound) : c.kept target extending =
    if (if extending.namesElement then extending.elementTest? else none).isSome then
      (c.difference target).keep (· != .universal)
    else c.difference target := by
  cases hnames : extending.namesElement with
  | false => simp [kept, keep, difference, hnames]
  | true =>
      obtain ⟨name, hname⟩ := namesElement_iff.mp hnames
      simp [kept, keep, difference, hnames, hname, List.filter_filter, Bool.and_comm, bne,
        beq_eq_decide]

/-- A compound unifies if the target applies to it. Of two named elements one is then in the target,
or they are the same. -/
theorem exists_of_unify? (h : c.unify? target extending = some u) :
    target.subsumes c = true ∧ u = (c.kept target extending).union extending ∧
      ∀ own name, c.elementTest? = some (.element own) →
        extending.elementTest? = some (.element name) → target.namesElement = false →
          own = name := by
  simp only [unify?, Option.ite_none_left_eq_some, Option.some.injEq] at h
  obtain ⟨hsub, hclash, -, rfl⟩ := h
  refine ⟨by simpa using hsub, by rw [kept_eq], ?_⟩
  · intro own name hown hname htarget
    have hnames : extending.namesElement = true := namesElement_iff.mpr ⟨name, hname⟩
    simp only [hnames, htarget, hown, hname, Bool.not_false, Bool.true_and, if_true, bne_iff_ne,
      ne_eq, not_not, SimpleSelector.element.injEq] at hclash
    exact hclash.symm

/-- A compound to which the target applies does not unify only if two elements would be named or two
ids asked for. -/
theorem of_unify?_eq_none (hsub : target.subsumes c = true) (h : c.unify? target extending = none) :
    (target.namesElement = false ∧ ∃ own name, c.elementTest? = some (.element own) ∧
        extending.elementTest? = some (.element name) ∧ own ≠ name) ∨
      ((c.kept target extending).union extending).isContradictory = true := by
  refine or_iff_not_imp_right.mpr fun hids => ?_
  simp only [unify?, hsub, Bool.not_true, Bool.false_eq_true, if_false, ← kept_eq, hids] at h
  split at h
  next wanted own hwanted hown =>
    obtain ⟨hnames, hwanted⟩ := Option.ite_none_right_eq_some.mp hwanted
    obtain ⟨name, hname⟩ := namesElement_iff.mp hnames
    obtain rfl := Option.some.inj (hname.symm.trans hwanted)
    simp only [ite_eq_left_iff, reduceCtorEq, imp_false, not_not, Bool.and_eq_true,
      Bool.not_eq_true', bne_iff_ne, ne_eq, SimpleSelector.element.injEq] at h
    exact ⟨h.1, own, name, hown, hname, fun heq => h.2 heq.symm⟩
  · simp at h

/-- **Unifying keeps the element first.** -/
theorem ElementFirst.unify? (hc : c.ElementFirst) (hextending : extending.ElementFirst)
    (h : c.unify? target extending = some u) : u.ElementFirst := by
  obtain ⟨hsub, rfl, hsame⟩ := exists_of_unify? h
  have hkept : (c.kept target extending).ElementFirst := hc.keep _
  intro name hname
  rw [elementTest?_union]
  rcases mem_union.mp hname with hname | hname
  · rw [hkept name hname]
    rfl
  have hfirst := hextending name hname
  have hnames := namesElement_iff.mpr ⟨name, hfirst⟩
  rw [hfirst]
  -- if the rest has a test of the element as well, it is the same one
  cases hrest : (c.kept target extending).elementTest? with
  | none => rfl
  | some x =>
      obtain ⟨hx, hgone, hany⟩ := mem_kept.mp (mem_of_elementTest? hrest)
      have htest : x.isElementTest = true := List.find?_some hrest
      cases x with
      | element own =>
          have hown := hc own hx
          cases htarget : target.namesElement with
          | false => rw [hsame own name hown hfirst htarget]; rfl
          | true =>
              -- the element of the target is that of the compound, and so it is gone
              obtain ⟨wanted, hwanted⟩ := namesElement_iff.mp htarget
              have hpart : .element wanted ∈ c.parts := by
                have hasked := subsumes_eq_true_iff.mp hsub _ (mem_of_elementTest? hwanted)
                rw [htarget] at hasked
                exact hasked.resolve_left fun h => absurd h.1 (by decide)
              have heq := (hc wanted hpart).symm.trans hown
              exact absurd (Option.some.inj heq ▸ mem_of_elementTest? hwanted) hgone
      | universal => exact absurd rfl (hany hnames)
      | _ => cases htest

/-- **Unifying keeps that the element is tested once**, unless a universal test is brought in. -/
theorem TestsOnce.unify? (hc : c.TestsOnce) (hextending : extending.TestsOnce)
    (hany : .universal ∉ extending.parts) (h : c.unify? target extending = some u) :
    u.TestsOnce := by
  have hfirst := hc.elementFirst.unify? hextending.elementFirst h
  obtain ⟨-, rfl, -⟩ := exists_of_unify? h
  -- a universal test was kept, so no element is brought in, and none was beside it
  have halone : ∀ name, .element name ∈ ((c.kept target extending).union extending).parts →
      .universal ∉ ((c.kept target extending).union extending).parts := by
    intro name hname huniversal
    have hkept := (mem_union.mp huniversal).resolve_right hany
    obtain ⟨huniversal, -, hnone⟩ := mem_kept.mp hkept
    rcases mem_union.mp hname with hname | hname
    · cases hc _ (mem_kept.mp hname).1 _ huniversal rfl rfl
    · exact hnone (namesElement_iff.mpr ⟨name, hextending.elementFirst name hname⟩) rfl
  intro x hx y hy htestx htesty
  rcases isElementTest_iff.mp htestx with rfl | ⟨n, rfl⟩ <;>
    rcases isElementTest_iff.mp htesty with rfl | ⟨m, rfl⟩
  · rfl
  · exact absurd hx (halone m hy)
  · exact absurd hy (halone n hx)
  · exact Option.some.inj ((hfirst n hx).symm.trans (hfirst m hy))

end Compound

/-! ## The compounds of a selector -/

namespace Selector

/-- All compounds have a property. -/
def AllCompounds (P : Compound → Prop) (s : Selector) : Prop := ∀ a ∈ s.segments, P a.compound

instance {P : Compound → Prop} [DecidablePred P] (s : Selector) : Decidable (s.AllCompounds P) := by
  unfold AllCompounds
  infer_instance

theorem exists_of_mem_weave {own extending : List Segment} {context : List Selector} {a : Segment}
    (h : a ∈ weave own extending context) :
    ∃ b, (b ∈ own ∨ b ∈ extending) ∧ b.compound = a.compound := by
  unfold weave at h
  split at h
  · exact ⟨a, Or.inr h, rfl⟩
  split at h
  · exact ⟨a, Or.inl h, rfl⟩
  split at h
  · exact ⟨a, Or.inr h, rfl⟩
  rcases List.mem_append.mp h with h | h
  · exact ⟨a, Or.inl h, rfl⟩
  -- in front of the first segment that is brought in there is a combinator now
  cases hdrop : extending.drop (sharedLength own extending context) with
  | nil => rw [hdrop] at h; exact absurd h List.not_mem_nil
  | cons first later =>
      have hmem : ∀ b ∈ first :: later, b ∈ extending := fun b hb =>
        List.mem_of_mem_drop (hdrop ▸ hb)
      rw [hdrop] at h
      rcases List.mem_cons.mp h with rfl | h
      · exact ⟨first, Or.inr (hmem first List.mem_cons_self), rfl⟩
      · exact ⟨a, Or.inr (hmem a (List.mem_cons_of_mem _ h)), rfl⟩

/-- What unifying with the last compound of the extending selector keeps, extending does. -/
theorem AllCompounds.extendWith {P : Compound → Prop} {s t : Selector} {e : Extension}
    (hs : s.AllCompounds P) (he : e.extending.AllCompounds P)
    (hP : ∀ last ∈ e.extending.segments.getLast?, ∀ {c u : Compound}, P c →
      c.unify? e.target last.compound = some u → P u)
    (h : t ∈ s.extendWith e) : t.AllCompounds P := by
  obtain ⟨-, own, at', behind, hsplit, hat⟩ := mem_extendWith.mp h
  simp only [extendAt, Option.bind_eq_bind, Option.bind_eq_some_iff] at hat
  obtain ⟨last, hlast, unified, hunified, ht⟩ := hat
  obtain rfl := Option.some.inj ht
  have hmem : ∀ a ∈ own ++ at' :: behind, P a.compound := hsplit ▸ hs
  intro a ha
  rcases List.mem_append.mp ha with ha | ha
  · obtain ⟨b, hb | hb, hcompound⟩ := exists_of_mem_weave ha
    · exact hcompound ▸ hmem b (List.mem_append_left _ hb)
    · exact hcompound ▸ he b (List.dropLast_subset _ hb)
  rcases List.mem_cons.mp ha with rfl | ha
  · exact hP last hlast (hmem at' (by simp)) hunified
  · exact hmem a (List.mem_append_right _ (List.mem_cons_of_mem _ ha))

end Selector

end Scss
