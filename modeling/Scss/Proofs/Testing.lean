import Scss.Proofs.RuleSelectors
import Scss.Proofs.Unifying

/-!
# Compounds that test the element once

A compound such as `a*` or `ab.x` with two tests of the element is none that CSS has. A stylesheet is
read with compounds that have one test at most, and compiling puts compounds together in two ways: an
`&` is replaced by a compound of the rule around, and where a compound is extended, parts of it give
way to those of the extending compound.

An `&` brings in the test of the parent, so it counts as a test itself (`HeadOnce`). Then resolving
selectors leaves compounds with one test (`TestsOnce`), and so does extending if no extending
compound has a universal test: `a.x` extended by `*.y` becomes `a*.y`. But even then no compound gets
the names of two elements, and the element comes first (`ElementFirst`).
-/

namespace Scss

/-! ## Compounds -/

namespace Compound

/-- At most one part tests the element or is an `&`, which stands for one that may. -/
def HeadOnce (c : Compound) : Prop :=
  ∀ x ∈ c.parts, ∀ y ∈ c.parts, (x.isElementTest || x.isParent) = true →
    (y.isElementTest || y.isParent) = true → x = y

instance (c : Compound) : Decidable c.HeadOnce := by
  unfold HeadOnce
  infer_instance

variable {c parent r : Compound}

theorem HeadOnce.testsOnce (hc : c.HeadOnce) : c.TestsOnce := by
  intro x hx y hy htestx htesty
  exact hc x hx y hy (by rw [htestx]; rfl) (by rw [htesty]; rfl)

theorem TestsOnce.keep (hc : c.TestsOnce) (test : SimpleSelector → Bool) :
    (c.keep test).TestsOnce :=
  fun x hx y hy => hc x (List.mem_filter.mp hx).1 y (List.mem_filter.mp hy).1

/-- With a suffix, the name of an element is still one, and nothing else becomes one. -/
theorem isElementTest_withSuffix? {x y : SimpleSelector} {suffix : String}
    (h : x.withSuffix? suffix = some y) : y.isElementTest = x.isElementTest := by
  cases x <;> simp only [SimpleSelector.withSuffix?, Option.some.injEq, reduceCtorEq] at h <;>
    rw [← h] <;> rfl

/-- What stands in for an `&` has no more tests of the element than the parent. -/
theorem TestsOnce.replacement? (hparent : parent.TestsOnce) {suffix : Option String}
    {parts : List SimpleSelector} (h : parent.replacement? suffix = some parts) :
    ∀ x ∈ parts, ∀ y ∈ parts, x.isElementTest = true → y.isElementTest = true → x = y := by
  cases suffix with
  | none =>
      obtain rfl := Option.some.inj h
      exact hparent
  | some suffix =>
      obtain ⟨front, last, last', hfront, hsuffix, rfl⟩ := replacement?_some_iff.mp h
      have hmem : ∀ {x}, x ∈ front ∨ x = last → x ∈ parent.parts := fun hx => by
        rw [hfront, List.mem_append, List.mem_singleton]
        exact hx
      -- a test in front would be the last part of the parent, which is there only once
      have hother : ∀ x ∈ front, x.isElementTest = true → last'.isElementTest = true → False := by
        intro x hx htest htest'
        rw [isElementTest_withSuffix? hsuffix] at htest'
        obtain rfl := hparent x (hmem (Or.inl hx)) last (hmem (Or.inr rfl)) htest htest'
        have hnodup := parent.nodup
        rw [hfront, List.nodup_append] at hnodup
        exact hnodup.2.2 x hx x (List.mem_singleton_self x) rfl
      intro x hx y hy htestx htesty
      rw [List.mem_append, List.mem_singleton] at hx hy
      rcases hx with hx | rfl <;> rcases hy with hy | rfl
      · exact hparent x (hmem (Or.inl hx)) y (hmem (Or.inl hy)) htestx htesty
      · exact (hother x hx htestx htesty).elim
      · exact (hother y hy htesty htestx).elim
      · rfl

/-- **Replacing an `&` leaves one test of the element**, if there was none beside it. -/
theorem HeadOnce.substituteParent (hc : c.HeadOnce) (hparent : parent.TestsOnce)
    (hown : c.hasParent = true) (h : c.substituteParent parent = .ok r) : r.TestsOnce := by
  obtain ⟨head, hhead, hisparent⟩ := List.any_eq_true.mp hown
  -- every test has come with the one `&` of the compound
  have hcame : ∀ x ∈ r.parts, x.isElementTest = true → ∃ suffix parts, head = .parent suffix ∧
      parent.replacement? suffix = some parts ∧ x ∈ parts := by
    intro x hx htest
    rcases mem_of_substituteParent h hx with ⟨hx, hfree⟩ | ⟨suffix, parts, hsuffix, hparts, hx⟩
    · have heq := hc x hx head hhead (by rw [htest]; rfl) (by rw [hisparent, Bool.or_true])
      rw [heq, hisparent] at hfree
      cases hfree
    · exact ⟨suffix, parts, hc head hhead _ hsuffix (by rw [hisparent, Bool.or_true]) rfl, hparts, hx⟩
  intro x hx y hy htestx htesty
  obtain ⟨suffix, parts, hsuffix, hparts, hx⟩ := hcame x hx htestx
  obtain ⟨suffix', parts', hsuffix', hparts', hy⟩ := hcame y hy htesty
  obtain rfl := SimpleSelector.parent.inj (hsuffix.symm.trans hsuffix')
  obtain rfl := Option.some.inj (hparts.symm.trans hparts')
  exact hparent.replacement? hparts x hx y hy htestx htesty

end Compound

/-! ## Selectors -/

namespace Selector

theorem AllCompounds.mono {P Q : Compound → Prop} {s : Selector} (hs : s.AllCompounds P)
    (h : ∀ c, P c → Q c) : s.AllCompounds Q :=
  fun a ha => h a.compound (hs a ha)

/-- Segments that are below others keep their compounds. -/
theorem AllCompounds.below {P : Compound → Prop} {s parent : Selector} (hs : s.AllCompounds P)
    (hparent : parent.AllCompounds P) : (s.below parent).AllCompounds P := by
  unfold Selector.below
  split
  · exact hparent
  next first later hsegments =>
    intro a ha
    have hmem : ∀ b ∈ first :: later, P b.compound := hsegments ▸ hs
    rcases List.mem_append.mp ha with ha | ha
    · exact hparent a ha
    · rcases List.mem_cons.mp ha with rfl | ha
      · exact hmem first List.mem_cons_self
      · exact hmem a (List.mem_cons_of_mem first ha)

theorem testsOnce_of_substitute {parent : Selector} {s : Segment} {segments : List Segment}
    (hs : s.compound.HeadOnce) (hparent : parent.AllCompounds Compound.TestsOnce)
    (h : substitute parent s = .ok segments) : ∀ a ∈ segments, a.compound.TestsOnce := by
  by_cases hown : s.compound.hasParent = true
  · rcases List.eq_nil_or_concat' parent.segments with hnil | ⟨front, last, hsegments⟩
    · rw [substitute, if_neg (by simp [hown]), hnil] at h
      obtain rfl := Except.ok.inj h
      exact fun _ ha => absurd ha List.not_mem_nil
    obtain ⟨compound, hcompound, rfl⟩ := (substitute_eq_ok_iff hown hsegments).mp h
    rw [AllCompounds, hsegments] at hparent
    obtain ⟨hfront, hlast⟩ := List.forall_mem_append.mp hparent
    have hmerged := hs.substituteParent (hlast last (List.mem_singleton_self _)) hown hcompound
    have hall : ∀ a ∈ front ++ [⟨last.combinator, compound⟩], a.compound.TestsOnce :=
      List.forall_mem_append.mpr ⟨hfront, List.forall_mem_singleton.mpr hmerged⟩
    generalize front ++ [⟨last.combinator, compound⟩] = segments at hall
    cases segments with
    | nil => exact hall
    | cons first later => exact List.forall_mem_cons.mpr (List.forall_mem_cons.mp hall)
  · obtain rfl := Except.ok.inj (substitute_of_noParent (by simpa using hown) ▸ h)
    exact List.forall_mem_singleton.mpr hs.testsOnce

/-- **Nesting leaves compounds with one test of the element.** -/
theorem testsOnce_of_resolve {s parent t : Selector} (hs : s.AllCompounds Compound.HeadOnce)
    (hparent : parent.AllCompounds Compound.TestsOnce) (h : s.resolve parent = .ok t) :
    t.AllCompounds Compound.TestsOnce := by
  unfold resolve at h
  split at h
  · obtain rfl := Except.ok.inj h
    exact (hs.mono fun _ => Compound.HeadOnce.testsOnce).below hparent
  · obtain ⟨pieces, hpieces, h⟩ := bind_eq_ok_iff.mp h
    obtain rfl := Except.ok.inj h
    have hall : ∀ a ∈ pieces.flatten, a.compound.TestsOnce := by
      intro a ha
      obtain ⟨piece, hpiece, ha⟩ := List.mem_flatten.mp ha
      obtain ⟨own, hown, hsub⟩ := exists_of_mem_forall₂ (mapM_eq_ok_iff.mp hpieces) hpiece
      exact testsOnce_of_substitute (hs own hown) hparent hsub a ha
    show ∀ a ∈ withoutLeadingSpace pieces.flatten, a.compound.TestsOnce
    unfold withoutLeadingSpace
    split
    next c later hflatten =>
      intro a ha
      rcases List.mem_cons.mp ha with rfl | ha
      · exact hall ⟨some .descendant, c⟩ (hflatten ▸ List.mem_cons_self)
      · exact hall a (hflatten ▸ List.mem_cons_of_mem _ ha)
    · exact hall

theorem testsOnce_of_mem_stripSegments {segments : List Segment}
    (h : ∀ a ∈ segments, a.compound.TestsOnce) :
    ∀ {first : Bool}, ∀ a ∈ stripSegments first segments, a.compound.TestsOnce := by
  induction segments with
  | nil => exact fun _ ha => absurd ha List.not_mem_nil
  | cons s rest ih =>
      intro first a ha
      have hrest := fun b hb => h b (List.mem_cons_of_mem s hb)
      rw [stripSegments] at ha
      dsimp only at ha
      split at ha
      · exact ih hrest a ha
      · rcases List.mem_cons.mp ha with rfl | ha
        · exact (h s List.mem_cons_self).keep _
        · exact ih hrest a ha

end Selector

/-- A rule that is written with compounds that have one test of the element, an `&` counted in, gets
such compounds. -/
theorem Selector.nests_testsOnce : Selector.Nests (·.AllCompounds Compound.HeadOnce)
    (·.AllCompounds Compound.TestsOnce) where
  own hs := hs.mono fun _ => Compound.HeadOnce.testsOnce
  strip {s t} hs h := by
    unfold Selector.stripParents? at h
    split at h
    · cases h
    · obtain rfl := Option.some.inj h
      exact Selector.testsOnce_of_mem_stripSegments hs
  resolve hs hparent h := Selector.testsOnce_of_resolve hs hparent h

/-! ## What is read -/

open Compile Context Evaluation Flatten

/-- The selectors of a rule are read with compounds that have one test of the element, an `&` counted
in. Selectors with expressions in them are read when the rule is expanded; whatever they are read as,
this holds of it. -/
def Statement.ReadsOnce : Statement → Prop
  | .rule source _ => ∀ call position c own c',
      (sourceSelectors call position source).outcome c = (.ok own, c') →
        ∀ s ∈ own, s.AllCompounds Compound.HeadOnce
  | _ => True

/-- All compounds of all selectors have one test of the element. -/
abbrev AllOnce (selectors : List Selector) : Prop :=
  ∀ s ∈ selectors, s.AllCompounds Compound.TestsOnce

/-- If the scope belongs to a rule, that rule's compounds have one test of the element. -/
def Frame.ParentOnce (f : Frame) : Prop :=
  ∀ selectors outer, f.parent = some (.rule selectors outer) → AllOnce selectors

/-- All code of the context reads compounds with one test of the element, and the selectors that the
context keeps have such compounds. -/
structure Context.IsOnce (c : Context) : Prop where
  code : c.AllCode Statement.ReadsOnce
  parents : ∀ f ∈ c.scopes.frames, f.ParentOnce
  extensions : ∀ e ∈ c.extensions, e.extending.AllCompounds Compound.TestsOnce

theorem Context.isOnce_iff {c : Context} : c.IsOnce ↔
    c.RulesHold Statement.ReadsOnce (·.AllCompounds Compound.TestsOnce) :=
  ⟨fun h => ⟨h.code, h.parents, h.extensions⟩, fun h => ⟨h.code, h.parents, h.extensions⟩⟩

/-! ## Both passes -/

/--
**No compound gets the names of two elements.**

Let all code of a stylesheet be read with compounds that have one test of the element at most, an `&`
counted in, and let the context keep only selectors with such compounds. If the stylesheet compiles,
then in every compound of every rule that is left the element, if one is named, comes first; so there
are not two. If moreover no extending compound has a universal test, then every such compound has one
test of the element at most.
-/
theorem Stylesheet.compile_tests_once {s css : Stylesheet} {c c' : Context}
    (hs : ∀ n ∈ s.body, n.All Statement.ReadsOnce) (hc : c.IsOnce)
    (h : s.compile.outcome c = (.ok css, c')) :
    (∀ n ∈ css.body, n.All (Statement.RulesAre (·.AllCompounds Compound.ElementFirst))) ∧
      ((∀ e ∈ c'.extensions, ∀ last ∈ e.extending.segments.getLast?,
          .universal ∉ last.compound.parts) →
        ∀ n ∈ css.body, n.All (Statement.RulesAre (·.AllCompounds Compound.TestsOnce))) := by
  rw [s.outcome_compile] at h
  obtain ⟨flat, d, hflat, h⟩ := bind_eq_ok h
  obtain ⟨printed, d', hprinted, h⟩ := bind_eq_ok h
  obtain ⟨hcss, rfl⟩ := Prod.mk.inj h
  obtain rfl := Except.ok.inj hcss
  have hentered : (c.enterRoot s.uri).IsOnce :=
    ⟨⟨hc.code.frames, hc.code.contents, hc.code.stylesheets⟩, hc.parents, hc.extensions⟩
  obtain ⟨-, hd, hrules⟩ := Flatten.run_rules Selector.nests_testsOnce (fun hs => hs) hs _
    (isOnce_iff.mp hentered)
  rw [hflat] at hd hrules
  have hrules := hrules flat rfl
  constructor
  · refine Extending.run_all (fun e he s t hs ht => ?_) rfl
      (fun n hn => (hrules n hn).mono fun _ => Statement.RulesAre.mono fun _ hs =>
        hs.mono fun _ => Compound.TestsOnce.elementFirst) hprinted
    have hextending := (hd.extensions e he).mono fun _ => Compound.TestsOnce.elementFirst
    refine hs.extendWith hextending (fun last hlast c u hc hu => ?_) ht
    exact hc.unify? (hextending last (List.mem_of_getLast? hlast)) hu
  · intro hany
    have hsame : d'.extensions = d.extensions := by
      have hleft := Extending.run_keeps_extensions flat d
      rwa [hprinted] at hleft
    refine Extending.run_all (fun e he s t hs ht => ?_) rfl hrules hprinted
    have hextending := hd.extensions e he
    refine hs.extendWith hextending (fun last hlast c u hc hu => ?_) ht
    exact hc.unify? (hextending last (List.mem_of_getLast? hlast)) (hany e (hsame ▸ he) last hlast) hu

/-! ## Universal tests -/

theorem Statement.readsOnce_parsed {own : List Selector}
    (h : ∀ s ∈ own, s.AllCompounds Compound.HeadOnce) (body : List Node) :
    (Statement.rule (.parsed own) body).ReadsOnce := by
  intro call position c selectors c' hread
  obtain rfl := Except.ok.inj (congrArg Prod.fst hread)
  exact h

/-- A rule with a comment in it, and another that extends its class. -/
def classExtended (extended extending : Compound) : Stylesheet := ⟨"", none, [
  .mk default (.rule (.parsed [.ofCompound extended]) [.mk default (.comment "extended")]),
  .mk default (.rule (.parsed [.ofCompound extending])
    [.mk default (.extend (.parsed [.ofClass "x"]) false)])]⟩

theorem classExtended_readsOnce (extended extending : Compound) (hextended : extended.HeadOnce)
    (hextending : extending.HeadOnce) :
    ∀ n ∈ (classExtended extended extending).body, n.All Statement.ReadsOnce := by
  have hrule : ∀ (compound : Compound) (body : List Node), compound.HeadOnce →
      (∀ n ∈ body, n.statement.bodies = [] ∧ n.statement.ReadsOnce) →
        Node.All Statement.ReadsOnce (.mk default (.rule (.parsed [.ofCompound compound]) body)) := by
    intro compound body hcompound hbody
    refine .mk (Statement.readsOnce_parsed (fun s hs a ha => ?_) body) fun inner hinner n hn => ?_
    · obtain rfl := List.mem_singleton.mp hs
      obtain rfl := List.mem_singleton.mp ha
      exact hcompound
    · obtain rfl := List.mem_singleton.mp hinner
      obtain ⟨position, statement⟩ := n
      obtain ⟨hnone, hreads⟩ := hbody _ hn
      refine .mk hreads fun deeper hdeeper => ?_
      have hnone : statement.bodies = [] := hnone
      rw [hnone] at hdeeper
      exact absurd hdeeper List.not_mem_nil
  refine List.forall_mem_cons.mpr ⟨hrule _ _ hextended ?_, List.forall_mem_cons.mpr
    ⟨hrule _ _ hextending ?_, fun _ h => absurd h List.not_mem_nil⟩⟩
  · exact List.forall_mem_cons.mpr ⟨⟨rfl, trivial⟩, fun _ h => absurd h List.not_mem_nil⟩
  · exact List.forall_mem_cons.mpr ⟨⟨rfl, trivial⟩, fun _ h => absurd h List.not_mem_nil⟩

theorem Context.isOnce_isolated : Context.isolated.IsOnce :=
  isOnce_iff.mpr (rulesHold_new _ _ _ fun hfound _ => nomatch hfound)

/-- The selectors of a rule, once they are known. -/
def Node.ruleSelectors (n : Node) : List Selector :=
  match n.statement with
  | .rule (.parsed selectors) _ => selectors
  | _ => []

theorem Node.ruleSelectors_of_all {P : Selector → Prop} {n : Node}
    (h : n.All (Statement.RulesAre P)) : ∀ s ∈ n.ruleSelectors, P s := by
  cases h with
  | @mk position statement own inside =>
      unfold Node.ruleSelectors
      split
      next selectors body heq =>
        have heq : statement = .rule (.parsed selectors) body := heq
        subst heq
        exact own
      · exact fun _ hs => absurd hs List.not_mem_nil

/-- What extending makes of a rule in a new context, if both passes succeed. -/
theorem classExtended_compile (extended extending : Compound) (result : List Selector)
    (h : ∀ site : Site, ∃ flat c₁ printed c₂,
      (flattenNodes site (classExtended extended extending).body).outcome
        (Context.isolated.enterRoot "") = (.ok flat, c₁) ∧
      (∀ n ∈ flat, n.statement.isDeclaration = false) ∧
      (Extending.run flat).outcome c₁ = (.ok printed, c₂) ∧
      c₂.extensions.map Extension.extending = [.ofCompound extending] ∧
      printed.map Node.ruleSelectors = [result]) :
    ∃ css c', (classExtended extended extending).compile.outcome .isolated = (.ok css, c') ∧
      c'.extensions.map Extension.extending = [.ofCompound extending] ∧
      css.body.map Node.ruleSelectors = [result] := by
  obtain ⟨printed, c', hcompile, hextending, hresult⟩ := Stylesheet.exists_compile h
  exact ⟨_, c', hcompile, hextending, hresult⟩

/-- `b.y`, which names an element. -/
def namedOther : Compound := ⟨[.element "b", .ofClass "y"], by simp⟩

/-- `*.x` extended by `b.y` becomes `*.x, b.y`. -/
theorem universalExtended_tests_once : ∃ css c',
    (classExtended ⟨[.universal, .ofClass "x"], by simp⟩ namedOther).compile.outcome .isolated =
      (.ok css, c') ∧
    css.body.map Node.ruleSelectors = [[.ofCompound ⟨[.universal, .ofClass "x"], by simp⟩,
      .ofCompound namedOther]] ∧
    (∀ n ∈ css.body, n.All (Statement.RulesAre (·.AllCompounds Compound.ElementFirst))) ∧
    ∀ n ∈ css.body, n.All (Statement.RulesAre (·.AllCompounds Compound.TestsOnce)) := by
  obtain ⟨css, c', h, hextending, hresult⟩ := classExtended_compile
    ⟨[.universal, .ofClass "x"], by simp⟩ namedOther
    [.ofCompound ⟨[.universal, .ofClass "x"], by simp⟩, .ofCompound namedOther]
    fun site => ⟨_, _, _, _, rfl, by decide, by cbv, by decide, by decide⟩
  have hreads := classExtended_readsOnce ⟨[.universal, .ofClass "x"], by simp⟩ namedOther
    (by decide) (by decide)
  obtain ⟨hfirst, honce⟩ := Stylesheet.compile_tests_once hreads Context.isOnce_isolated h
  refine ⟨css, c', h, hresult, hfirst, honce fun e he last hlast => ?_⟩
  have hmem := List.mem_map_of_mem (f := Extension.extending) he
  rw [hextending, List.mem_singleton] at hmem
  rw [hmem] at hlast
  obtain rfl := Option.some.inj hlast
  decide

/-- `a.x` extended by `*.y` becomes `a.x, a*.y`, although every compound has been read with one test
of the element. -/
theorem elementExtended_tests_twice : ∃ extended extending : Compound,
    (∀ n ∈ (classExtended extended extending).body, n.All Statement.ReadsOnce) ∧
    Context.isolated.IsOnce ∧
    ∃ css c', (classExtended extended extending).compile.outcome .isolated = (.ok css, c') ∧
      ¬∀ n ∈ css.body, n.All (Statement.RulesAre (·.AllCompounds Compound.TestsOnce)) := by
  refine ⟨⟨[.element "a", .ofClass "x"], by simp⟩, ⟨[.universal, .ofClass "y"], by simp⟩,
    classExtended_readsOnce _ _ (by decide) (by decide), Context.isOnce_isolated, ?_⟩
  obtain ⟨css, c', h, -, hresult⟩ := classExtended_compile
    ⟨[.element "a", .ofClass "x"], by simp⟩ ⟨[.universal, .ofClass "y"], by simp⟩
    [.ofCompound ⟨[.element "a", .ofClass "x"], by simp⟩,
      .ofCompound ⟨[.element "a", .universal, .ofClass "y"], by simp⟩]
    fun site => ⟨_, _, _, _, rfl, by decide, by cbv, by decide, by decide⟩
  refine ⟨css, c', h, fun hall => ?_⟩
  obtain ⟨n, hn, hselectors⟩ : ∃ n ∈ css.body, n.ruleSelectors = _ := by
    have hmem := hresult ▸ List.mem_singleton_self _
    exact List.mem_map.mp hmem
  have htwice := Node.ruleSelectors_of_all (hall n hn)
    (.ofCompound ⟨[.element "a", .universal, .ofClass "y"], by simp⟩) (by rw [hselectors]; simp)
  exact absurd htwice (by decide)

end Scss
