import Scss.Proofs.Elimination
import Scss.Proofs.Reordering
import Scss.Proofs.Testing

/-!
# Applying the extensions again

A rule has got all selectors that follow from what was written, less those that can match nothing and
those that ask for more than another one does. When the extensions are applied to it once more, some
of the latter follow again. They are dropped again: what is there already is spared now, and stands
in front of them, and one of it asks for no more. For each of them that was shown when it was dropped
the first time.

So a tree to which the extensions have been applied is left as it is (`Fixed`). Rules have selectors
left and media have rules left, or they would have gone the first time.
-/

namespace Scss

open Compile

theorem SelectorSet.toList_ofList_of_nodup {selectors : List Selector} (h : selectors.Nodup) :
    (ofList selectors).toList = selectors := by
  rw [toList_ofList]
  induction selectors with
  | nil => rfl
  | cons s rest ih =>
      obtain ⟨hs, hrest⟩ := List.nodup_cons.mp h
      have hothers : (rest.filter fun t => !t == s) = rest :=
        List.filter_eq_self.mpr fun t ht => by
          simpa using fun heq : t = s => hs (heq ▸ ht)
      rw [List.eraseDups_cons, hothers, ih hrest]

/-- Where selectors in front ask for no more than those that are judged, none of these is left. -/
theorem SelectorSet.essential_eq_nil {before rest : List Selector}
    (h : ∀ s ∈ rest, ∃ t ∈ before, t.subsumes s = true) : essential before 0 rest = [] := by
  refine List.eq_nil_iff_forall_not_mem.mpr fun s hs => ?_
  obtain ⟨front, behind, hrest, hkept⟩ := mem_essential.mp hs
  have hkept := isRedundant_eq_false_iff.mp (hkept.resolve_left (Nat.not_lt_zero _))
  obtain ⟨t, ht, hsubsumes⟩ := h s (by rw [hrest]; simp)
  rw [hkept.1 t (List.mem_append_left _ ht)] at hsubsumes
  cases hsubsumes

namespace Extending

/-! ## The selectors of a rule -/

/-- No compound of the selectors tests the element twice, and there are no more of them than a rule
may have. -/
structure Moderate (written : List Selector) : Prop where
  once : ∀ s ∈ written, s.AllCompounds Compound.TestsOnce
  few : written.length ≤ maxSelectors

theorem Derived.elementFirst {extensions : List Extension} {written : List Selector}
    (hwritten : ∀ s ∈ written, s.AllCompounds Compound.TestsOnce)
    (hextending : ∀ e ∈ extensions, e.extending.AllCompounds Compound.TestsOnce) {s : Selector}
    (h : Derived extensions written s) : s.AllCompounds Compound.ElementFirst :=
  h.allCompounds Compound.ElementFirst.unify?
    (fun t ht => (hwritten t ht).mono fun _ => Compound.TestsOnce.elementFirst)
    (fun e he => (hextending e he).mono fun _ => Compound.TestsOnce.elementFirst)

/-- What follows from selectors that follow has followed already. -/
theorem Derived.trans {extensions : List Extension} {written between : List Selector}
    (hbetween : ∀ s ∈ between, Derived extensions written s) {s : Selector}
    (h : Derived extensions between s) : Derived extensions written s := by
  induction h with
  | written hs => exact hbetween _ hs
  | extended _ he ht ih => exact .extended ih he ht

/-- A rule that has not too many selectors does not get too many by being extended from some of those
that follow. -/
theorem not_exceeds_of_derived {extensions : List Extension} {written between : List Selector}
    (hfew : written.length ≤ maxSelectors) (h : ¬ Exceeds extensions written)
    (hbetween : ∀ s ∈ between, Derived extensions written s) : ¬ Exceeds extensions between := by
  have hsub : closure extensions between ⊆ closure extensions written := fun s hs =>
    mem_closure.mpr ((mem_closure.mp hs).trans hbetween)
  have hwritten : {s | s ∈ written}.encard ≤ maxSelectors := by
    have hcoe : {s | s ∈ written} = ((written.toFinset : Finset Selector) : Set Selector) := by
      ext s
      exact List.mem_toFinset.symm
    rw [hcoe, Set.encard_coe_eq_coe_finsetCard]
    exact_mod_cast (List.toFinset_card_le written).trans hfew
  rintro ⟨hlimit, -⟩
  have hlimit' := lt_of_lt_of_le hlimit (Set.encard_le_encard hsub)
  exact h ⟨hlimit', lt_of_le_of_lt hwritten hlimit'⟩

section

variable {extensions : List Extension}
  (hextending : ∀ e ∈ extensions, e.extending.AllCompounds Compound.TestsOnce)
include hextending

/-- **The selectors that a rule has got are those that it gets from them.** -/
theorem extendSelectors_again {matched matched' marks : List Bool} {written result : List Selector}
    (hwritten : Moderate written) (hmatched : matched.length = extensions.length)
    (hmarks : marks.length = extensions.length)
    (h : extendSelectors extensions matched written = .ok (result, matched')) :
    ∃ marks', extendSelectors extensions marks result = .ok (result, marks') ∧
      marks'.length = extensions.length := by
  -- the first run
  have hzip : ∀ marks : List Bool, marks.length = extensions.length →
      (extensions.zip marks).map Prod.fst = extensions ∧
        (extensions.zip marks).map Prod.snd = marks := fun marks hmarks =>
    ⟨List.map_fst_zip (Nat.le_of_eq hmarks.symm), List.map_snd_zip (Nat.le_of_eq hmarks)⟩
  have hfirst := extendSelectors_cases (extensions.zip matched) written
  rw [(hzip matched hmatched).1, (hzip matched hmatched).2] at hfirst
  obtain ⟨hfew, closed, -, hclosed, -, hrun⟩ := hfirst.resolve_left fun hfails => by
    cases h.symm.trans hfails.2
  obtain ⟨hresult, -⟩ := Prod.mk.inj (Except.ok.inj (h.symm.trans hrun))
  obtain ⟨hsound, hnodup, -⟩ := extendSelectors_sound hmatched h
  have hderived : ∀ s ∈ result, Derived extensions written s := fun s hs => (hsound s hs).1
  -- the second run
  have hsecond := extendSelectors_cases (extensions.zip marks) result
  rw [(hzip marks hmarks).1, (hzip marks hmarks).2] at hsecond
  obtain ⟨-, closed', added, hclosed', hadded, hrun'⟩ := hsecond.resolve_left fun hfails =>
    absurd hfails.1 (not_exceeds_of_derived hwritten.few hfew hderived)
  refine ⟨_, hrun'.trans (congrArg Except.ok (Prod.ext ?_ rfl)), ?_⟩
  swap
  · rw [List.length_map, List.length_zip, hmarks, Nat.min_self]
  have hstart : (SelectorSet.ofList result).toList.filter Selector.canMatch = result := by
    rw [SelectorSet.toList_ofList_of_nodup hnodup]
    exact List.filter_eq_self.mpr fun s hs => (hsound s hs).2
  have hsplit : (closed'.filter Selector.canMatch).toList =
      result ++ added.filter Selector.canMatch := by
    conv_rhs => rw [← hstart]
    rw [← List.filter_append, ← hadded]
    rfl
  rw [hstart]
  show SelectorSet.essential [] result.length (closed'.filter Selector.canMatch).toList = result
  rw [hsplit, SelectorSet.essential_append rfl, List.nil_append, SelectorSet.essential_eq_nil,
    List.append_nil]
  -- what has come anew was there in the first run
  intro s hs
  obtain ⟨hs, hmatch⟩ := List.mem_filter.mp hs
  have hnew : s ∈ closed' := by
    show s ∈ closed'.toList
    rw [hadded]
    exact List.mem_append_right _ hs
  have hold : s ∈ (closed.filter Selector.canMatch).toList :=
    SelectorSet.mem_filter.mpr ⟨(hclosed s).mpr (((hclosed' s).mp hnew).trans hderived), hmatch⟩
  have horder : ∀ t ∈ (closed.filter Selector.canMatch).toList,
      t.AllCompounds Compound.ElementFirst := fun t ht =>
    ((hclosed t).mp (SelectorSet.mem_filter.mp ht).1).elementFirst hwritten.once hextending
  rw [hresult]
  refine SelectorSet.exists_survivor (fun t _ => t.subsumes_refl) (fun t ht u hu _ _ => ?_) hold
  exact Selector.subsumes_trans (fun _ _ _ _ hd => Compound.subsumes_trans hd) (horder t ht)
    (horder u hu)

end

/-! ## The tree -/

section

variable {extensions : List Extension}

/-- The pass goes from statement to statement and hands on the marks. -/
theorem extendNodes_append {front nodes front' nodes' : List Node} {marks marks₁ marks₂ : List Bool}
    (hfront : extendNodes extensions marks front = .ok (front', marks₁))
    (hnodes : extendNodes extensions marks₁ nodes = .ok (nodes', marks₂)) :
    extendNodes extensions marks (front ++ nodes) = .ok (front' ++ nodes', marks₂) := by
  induction front generalizing front' marks with
  | nil =>
      obtain ⟨rfl, rfl⟩ := Prod.mk.inj (Except.ok.inj hfront)
      exact hnodes
  | cons node rest ih =>
      rw [extendNodes] at hfront
      obtain ⟨⟨first, marks'⟩, hnode, hfront⟩ := bind_eq_ok_iff.mp hfront
      obtain ⟨⟨others, marks''⟩, hrest, hfront⟩ := bind_eq_ok_iff.mp hfront
      obtain ⟨rfl, rfl⟩ := Prod.mk.inj (Except.ok.inj hfront)
      rw [List.cons_append, extendNodes, bind_eq_ok_iff]
      refine ⟨(first, marks'), hnode, bind_eq_ok_iff.mpr ⟨(others ++ nodes', marks₂), ih hrest, ?_⟩⟩
      rw [List.append_assoc]
      rfl

/-- Applying the extensions leaves the statements as they are, whatever marks the extensions have. -/
def Fixed (extensions : List Extension) (nodes : List Node) : Prop :=
  ∀ marks : List Bool, marks.length = extensions.length →
    ∃ marks', extendNodes extensions marks nodes = .ok (nodes, marks') ∧
      marks'.length = extensions.length

namespace Fixed

theorem nil : Fixed extensions [] := fun marks hmarks => ⟨marks, rfl, hmarks⟩

theorem append {front nodes : List Node} (hfront : Fixed extensions front)
    (hnodes : Fixed extensions nodes) : Fixed extensions (front ++ nodes) := by
  intro marks hmarks
  obtain ⟨marks₁, hrun, hlength⟩ := hfront marks hmarks
  obtain ⟨marks₂, hrun', hlength'⟩ := hnodes marks₁ hlength
  exact ⟨marks₂, extendNodes_append hrun hrun', hlength'⟩

/-- A statement is left as it is if the pass makes it of itself. -/
theorem single {position : Position} {statement : Statement}
    (h : ∀ marks : List Bool, marks.length = extensions.length →
      ∃ marks', extendStatement extensions marks statement = .ok ([statement], marks') ∧
        marks'.length = extensions.length) :
    Fixed extensions [.mk position statement] := by
  intro marks hmarks
  obtain ⟨marks', hrun, hlength⟩ := h marks hmarks
  refine ⟨marks', ?_, hlength⟩
  rw [extendNodes, extendNode, hrun]
  rfl

end Fixed

/-- The selectors of a rule, if it is one, are moderate. -/
def ModerateRule : Statement → Prop
  | .rule (.parsed written) _ => Moderate written
  | .rule (.interpolated _) _ => False
  | _ => True

/-- What the pass leaves of statements is fixed if that holds of each of them. -/
theorem fixed_of_forall {nodes : List Node}
    (hnodes : ∀ n ∈ nodes, ∀ {marks r}, marks.length = extensions.length →
      extendNode extensions marks n = .ok r → Fixed extensions r.1 ∧ r.2.length = extensions.length)
    {marks : List Bool} {r : List Node × List Bool} (hmarks : marks.length = extensions.length)
    (h : extendNodes extensions marks nodes = .ok r) :
    Fixed extensions r.1 ∧ r.2.length = extensions.length := by
  exact extendNodes_induction (Q := fun _ left => Fixed extensions left) .nil .append hnodes hmarks h

/-- **What the pass makes of a statement it leaves as it is.** -/
theorem extendNode_fixed
    (hextending : ∀ e ∈ extensions, e.extending.AllCompounds Compound.TestsOnce) {node : Node}
    (hnode : node.All ModerateRule) {marks : List Bool} {r : List Node × List Bool}
    (hmarks : marks.length = extensions.length) (h : extendNode extensions marks node = .ok r) :
    Fixed extensions r.1 ∧ r.2.length = extensions.length := by
  induction hnode generalizing marks r with
  | @mk position statement own inside ih =>
      obtain ⟨nodes, marks₁⟩ := r
      obtain ⟨left, hleft, rfl⟩ := extendNode_eq_ok_iff.mp h
      -- most statements are left as they are
      have hsame : (∀ marks, extendStatement extensions marks statement = .ok ([statement], marks)) →
          Fixed extensions (left.map (Node.mk position)) ∧ marks₁.length = extensions.length := by
        intro heq
        obtain ⟨rfl, rfl⟩ := Prod.mk.inj (Except.ok.inj ((heq marks).symm.trans hleft))
        exact ⟨.single fun marks hmarks => ⟨marks, heq marks, hmarks⟩, hmarks⟩
      cases statement with
      | rule source body =>
          cases source with
          | interpolated text => exact absurd own id
          | parsed written =>
              obtain ⟨result, hresult, rfl⟩ := extendStatement_rule_eq_ok_iff.mp hleft
              have hlength := (extendSelectors_sound hmarks hresult).2.2
              by_cases hnone : result.isEmpty = true
              · rw [if_pos hnone]
                exact ⟨.nil, hlength⟩
              · rw [if_neg hnone]
                refine ⟨.single fun marks' hmarks' => ?_, hlength⟩
                obtain ⟨marks₃, hagain, hlength'⟩ :=
                  extendSelectors_again hextending own hmarks hmarks' hresult
                refine ⟨marks₃, extendStatement_rule_eq_ok_iff.mpr ⟨result, hagain, ?_⟩, hlength'⟩
                rw [if_neg hnone]
      | media query body =>
          obtain ⟨rest, hrest, rfl⟩ := extendStatement_media_eq_ok_iff.mp hleft
          obtain ⟨hfixed, hlength⟩ := fixed_of_forall (ih body List.mem_cons_self) hmarks hrest
          by_cases hnone : rest.isEmpty = true
          · rw [if_pos hnone]
            exact ⟨.nil, hlength⟩
          · rw [if_neg hnone]
            refine ⟨.single fun marks' hmarks' => ?_, hlength⟩
            obtain ⟨marks₃, hagain, hlength'⟩ := hfixed marks' hmarks'
            refine ⟨marks₃, extendStatement_media_eq_ok_iff.mpr ⟨rest, hagain, ?_⟩, hlength'⟩
            rw [if_neg hnone]
      | atRule name prelude content =>
          cases content with
          | none => exact hsame fun _ => rfl
          | some body =>
              obtain ⟨rest, hrest, rfl⟩ := extendStatement_atRule_eq_ok_iff.mp hleft
              obtain ⟨hfixed, hlength⟩ := fixed_of_forall (ih body List.mem_cons_self) hmarks hrest
              refine ⟨.single fun marks' hmarks' => ?_, hlength⟩
              obtain ⟨marks₃, hagain, hlength'⟩ := hfixed marks' hmarks'
              exact ⟨marks₃, extendStatement_atRule_eq_ok_iff.mpr ⟨rest, hagain, rfl⟩, hlength'⟩
      | _ => exact hsame fun _ => rfl

end

theorem warnUnmatched_succeeds (pairs : List (Extension × Bool)) (c : Context) :
    ∃ c', (pairs.forM fun (e, applied) =>
      if applied || e.optional then pure () else Compile.warn e.position (unmatchedWarning e)).outcome
        c = (.ok (), c') := by
  induction pairs generalizing c with
  | nil => exact ⟨c, rfl⟩
  | cons pair rest ih =>
      obtain ⟨e, applied⟩ := pair
      obtain ⟨c₁, hfirst⟩ : ∃ c₁, (if applied || e.optional then pure ()
          else Compile.warn e.position (unmatchedWarning e) : Compile Unit).outcome c =
            (.ok (), c₁) := by
        split <;> exact ⟨_, rfl⟩
      obtain ⟨c', hrest⟩ := ih c₁
      exact ⟨c', (outcome_bind_ok hfirst).trans hrest⟩

/--
**Applying the extensions again changes nothing.**

If the pass succeeds for a tree, it succeeds for the tree that it leaves, in any context that has the
same extensions, and leaves it as it is: the same rules with the same selectors in the same order, the
same media and at-rules. The rules of the tree may have no more selectors than the limit allows, and
neither their compounds nor those of the extending selectors may test the element twice.
-/
theorem run_again {nodes printed : List Node} {c c' d : Context}
    (hnodes : ∀ n ∈ nodes, n.All ModerateRule)
    (hextending : ∀ e ∈ c.extensions, e.extending.AllCompounds Compound.TestsOnce)
    (hsame : d.extensions = c.extensions)
    (h : (Extending.run nodes).outcome c = (.ok printed, c')) :
    ∃ d', (Extending.run printed).outcome d = (.ok printed, d') := by
  rw [Extending.run, outcome_get_bind] at h
  dsimp only at h
  split at h
  · cases h
  next rewritten marks hrewritten =>
    obtain ⟨_, _, -, h⟩ := bind_eq_ok h
    obtain rfl := Except.ok.inj (congrArg Prod.fst h)
    have hlength : (c.extensions.map fun _ => false).length = c.extensions.length :=
      List.length_map _
    obtain ⟨hfixed, -⟩ := fixed_of_forall
      (fun n hn _ _ => extendNode_fixed hextending (hnodes n hn)) hlength hrewritten
    obtain ⟨marks', hagain, -⟩ := hfixed _ hlength
    rw [Extending.run, outcome_get_bind]
    dsimp only
    rw [hsame, hagain]
    dsimp only
    -- the warnings that follow cannot fail
    obtain ⟨d', hwarned⟩ := warnUnmatched_succeeds (c.extensions.zip marks') d
    exact ⟨d', by rw [outcome_bind_ok hwarned]; rfl⟩

/-- A rule `.x` in a directive, and a rule that can match nothing. -/
def classInMedia : List Node :=
  [.mk default (.media (.literal "print") [.mk default (.rule (.parsed [.ofClass "x"]) [])]),
    .mk default (.rule (.parsed [.ofCompound ⟨[.placeholder "p"], by simp⟩]) [])]

/-- Where `.a` extends `.x`, the first of them becomes `.x, .a`, and the other one goes. -/
theorem classInMedia_again : ∃ c c' printed d',
    c.extensions = [.ofClasses "a" "x"] ∧ (∀ n ∈ classInMedia, n.All ModerateRule) ∧
    (Extending.run classInMedia).outcome c = (.ok printed, c') ∧
    printed = [.mk default (.media (.literal "print")
      [.mk default (.rule (.parsed [.ofClass "x", .ofClass "a"]) [])])] ∧
    (Extending.run printed).outcome c = (.ok printed, d') := by
  let c := Context.isolated.addExtension (.ofClasses "a" "x")
  have hrun : (Extending.run classInMedia).outcome c = (.ok [.mk default (.media (.literal "print")
      [.mk default (.rule (.parsed [.ofClass "x", .ofClass "a"]) [])])], c) := by
    cbv
  have hrule : ∀ selectors : List Selector, Moderate selectors →
      Node.All ModerateRule (.mk default (.rule (.parsed selectors) [])) := fun selectors h =>
    .mk h fun body hbody n hn => by
      obtain rfl := List.mem_singleton.mp hbody
      exact absurd hn List.not_mem_nil
  have hnodes : ∀ n ∈ classInMedia, n.All ModerateRule := by
    refine List.forall_mem_cons.mpr ⟨.mk trivial fun body hbody n hn => ?_,
      List.forall_mem_singleton.mpr (hrule _ ⟨by decide, by decide⟩)⟩
    obtain rfl := List.mem_singleton.mp hbody
    obtain rfl := List.mem_singleton.mp hn
    exact hrule _ ⟨by decide, by decide⟩
  obtain ⟨d', hagain⟩ := run_again hnodes (by decide) rfl hrun
  exact ⟨c, c, _, d', rfl, hnodes, hrun, rfl, hagain⟩

end Extending

end Scss
