import Mathlib
import Scss.Proofs.Closure
import Scss.Proofs.Document
import Scss.Proofs.Redundancy

/-!
# Extending is exact

An extension promises that whatever meets the extending compound counts as meeting the target. Read
as a rule about documents, this lets an element gain simple selectors from those that it has, over
and over (`Saturated`). The compiler does not know the document. It works on the selectors instead,
and adds the ones that follow. Both come to the same: the selectors that come out are met, in the
document as it is, by the elements that meet the written ones in the saturated document.

That nothing too much is matched goes by induction on how a selector was derived. In each step a
target was replaced, at one place, by an extending compound from which an element gains the target.

That nothing is missed goes by induction on how an element gained a simple selector (`replaced`). If
it is the element's own there is nothing to do. Otherwise there is an extension that puts its
extending compound in the place of the simple selector, and each part of that was gained earlier.
One care is needed: a selector does not follow from itself. If the extending compound holds the
simple selector that it is to replace, extending may change nothing. But then the simple selector
was itself gained earlier.
-/

namespace Scss

/-! ## Compounds of classes and placeholders -/

/-- Classes and placeholders, which an element can have any number of at once. -/
def SimpleSelector.isMark : SimpleSelector → Bool
  | ofClass _ | placeholder _ => true
  | _ => false

namespace Compound

variable {c d extending target : Compound}

/-- Whether a compound asks for classes and placeholders only. -/
def IsMarks (c : Compound) : Prop := ∀ a ∈ c.parts, a.isMark = true

theorem ofClass_isMarks (name : String) : (ofClass name).IsMarks := by
  intro a ha
  obtain rfl := List.mem_singleton.mp ha
  rfl

theorem elementTest?_of_marks (hc : c.IsMarks) : c.elementTest? = none := by
  refine List.find?_eq_none.mpr fun a ha => ?_
  have hmark := hc a ha
  cases a <;> simp_all [SimpleSelector.isMark, SimpleSelector.isElementTest]

theorem namesElement_of_marks (hc : c.IsMarks) : c.namesElement = false := by
  rw [namesElement, elementTest?_of_marks hc]
  rfl

theorem not_contradictory_of_marks (hc : c.IsMarks) : c.isContradictory = false := by
  have hids : c.ids = [] := by
    refine List.filterMap_eq_nil_iff.mpr fun a ha => ?_
    have hmark := hc a ha
    cases a <;> simp_all [SimpleSelector.isMark]
  rw [isContradictory, hids]

/-- Such a compound subsumes those that hold all of its parts. -/
theorem subsumes_iff_of_marks (hc : c.IsMarks) :
    c.subsumes d = true ↔ ∀ a ∈ c.parts, a ∈ d.parts := by
  simp only [subsumes, List.all_eq_true, Bool.or_eq_true, Bool.and_eq_true, decide_eq_true_iff]
  refine forall₂_congr fun a ha => or_iff_right fun htest => ?_
  have hmark := hc a ha
  have htest := htest.2
  cases a <;> simp_all [SimpleSelector.isMark, SimpleSelector.isElementTest]

/-- **What unifying does to classes and placeholders**: it puts the extending compound in the place
of the target, wherever that applies. -/
theorem unify?_eq_some_iff_of_marks {u : Compound} (hc : c.IsMarks) (htarget : target.IsMarks)
    (hextending : extending.IsMarks) : c.unify? target extending = some u ↔
      (∀ a ∈ target.parts, a ∈ c.parts) ∧ u = (c.difference target).union extending := by
  have hmarks : ((c.difference target).union extending).IsMarks := by
    intro a ha
    rcases mem_union.mp ha with ha | ha
    · exact hc a (mem_difference.mp ha).1
    · exact hextending a ha
  have hunify : c.unify? target extending =
      if target.subsumes c then some ((c.difference target).union extending) else none := by
    unfold unify?
    cases target.subsumes c <;> simp [namesElement_of_marks hextending, elementTest?_of_marks hc,
      not_contradictory_of_marks hmarks]
  rw [hunify, ← subsumes_iff_of_marks htarget, Option.ite_none_right_eq_some, Option.some.injEq]
  exact and_congr_right fun _ => eq_comm

end Compound

/-- Whether a selector asks for classes and placeholders only. -/
def Selector.IsMarks (s : Selector) : Prop := ∀ a ∈ s.simples, a.isMark = true

/-- Whether an extension lets one class or placeholder follow from others: its target is a single
one, and its extending selector a single compound of them. -/
structure Extension.IsMarks (e : Extension) : Prop where
  target : ∃ a, e.target.parts = [a] ∧ a.isMark = true
  extending : ∃ c, e.extending = .ofCompound c ∧ c.IsMarks

theorem Selector.ofClass_isMarks (name : String) : (ofClass name).IsMarks := by
  intro a ha
  obtain ⟨segment, hsegment, ha⟩ := mem_simplesOf.mp ha
  obtain rfl := List.mem_singleton.mp hsegment
  exact Compound.ofClass_isMarks name a ha

/-- The extension by which the elements of a class gain another one. -/
def Extension.ofClasses (extending target : String) : Extension :=
  ⟨.ofClass target, .ofClass extending, [], false, default⟩

theorem Extension.ofClasses_isMarks (extending target : String) :
    (ofClasses extending target).IsMarks :=
  ⟨⟨_, rfl, rfl⟩, _, rfl, Compound.ofClass_isMarks extending⟩

theorem Selector.IsMarks.compound {s : Selector} (hs : s.IsMarks) {segment : Segment}
    (h : segment ∈ s.segments) : segment.compound.IsMarks :=
  fun _ ha => hs _ (mem_simplesOf.mpr ⟨segment, h, ha⟩)

theorem Extension.IsMarks.extending_simples {e : Extension} (he : e.IsMarks) :
    e.extending.IsMarks := by
  obtain ⟨c, hc, hmarks⟩ := he.extending
  intro a ha
  rw [hc, Selector.simples, Selector.mem_simplesOf] at ha
  obtain ⟨segment, hsegment, ha⟩ := ha
  obtain rfl := List.mem_singleton.mp hsegment
  exact hmarks a ha

/-! ## A step of extending -/

namespace Selector

/-- What a segment becomes when its compound extends and no ancestry is woven in. -/
def extended (front : List Segment) (e : Extension) (extender : Compound) (s : Segment) : Segment :=
  ⟨if front.isEmpty then none else some (s.combinator.getD .descendant),
    (s.compound.difference e.target).union extender⟩

/-- **A step by a compound extender** replaces the target in one compound. -/
theorem mem_extendWith_of_marks {s t : Selector} {e : Extension} {extender : Compound}
    (hs : s.IsMarks) (he : e.IsMarks) (hextender : e.extending = .ofCompound extender) :
    t ∈ s.extendWith e ↔ t ≠ s ∧ ∃ front own behind, s.segments = front ++ own :: behind ∧
      (∀ a ∈ e.target.parts, a ∈ own.compound.parts) ∧
      t = ⟨front ++ extended front e extender own :: behind⟩ := by
  obtain ⟨a, htarget, ha⟩ := he.target
  -- with marks alone, whether two compounds go together is a question of what parts they have
  have htargetMarks : e.target.IsMarks := by
    intro b hb
    rw [htarget] at hb
    exact List.mem_singleton.mp hb ▸ ha
  have hextenderMarks : extender.IsMarks := by
    intro b hb
    refine he.extending_simples b ?_
    rw [hextender]
    exact mem_simplesOf.mpr ⟨_, List.mem_cons_self, hb⟩
  rw [mem_extendWith]
  refine and_congr_right fun _ => exists₃_congr fun front own behind => ?_
  refine and_congr_right fun hsplit => ?_
  have hown : own.compound.IsMarks := hs.compound (by rw [hsplit]; simp)
  -- a context of a single compound adds nothing in front
  have hweave : weave front [] e.context = front := by
    cases front <;> rfl
  simp only [extendAt, hextender, ofCompound, List.getLast?_singleton, List.dropLast_singleton,
    hweave, Option.bind_eq_bind, Option.bind_some, Option.bind_eq_some_iff,
    Compound.unify?_eq_some_iff_of_marks hown htargetMarks hextenderMarks, List.isEmpty_nil,
    Bool.true_or, if_true, Option.some.injEq, extended]
  constructor
  · rintro ⟨u, ⟨hsub, rfl⟩, rfl⟩
    exact ⟨hsub, rfl⟩
  · rintro ⟨hsub, rfl⟩
    exact ⟨_, ⟨hsub, rfl⟩, rfl⟩

end Selector

/-! ## What elements gain -/

namespace Extending

/-- The least set that contains `own`, and the target of each extension whose extending compound it
contains. -/
inductive Saturated (extensions : List Extension) (own : Set SimpleSelector) :
    SimpleSelector → Prop where
  | own {a : SimpleSelector} (ha : a ∈ own) : Saturated extensions own a
  | extended {e : Extension} {extender : Compound} {a : SimpleSelector} (he : e ∈ extensions)
      (hextender : e.extending = .ofCompound extender)
      (hall : ∀ b ∈ extender.parts, Saturated extensions own b) (ha : a ∈ e.target.parts) :
      Saturated extensions own a

/-- What every element meets once it has gained all that it can. -/
def saturate {E : Type} (extensions : List Extension) (own : E → Set SimpleSelector) (x : E) :
    Set SimpleSelector := {a | Saturated extensions (own x) a}

variable {E : Type} {doc : Document E} {own : E → Set SimpleSelector}
  {extensions : List Extension} {written : List Selector}

theorem Derived.isMarks (hwritten : ∀ s ∈ written, s.IsMarks)
    (hextensions : ∀ e ∈ extensions, e.IsMarks) {s : Selector}
    (hs : Derived extensions written s) : s.IsMarks := by
  induction hs with
  | written hs => exact hwritten _ hs
  | extended _ he ht ih =>
      intro a ha
      rcases Selector.mem_simples_extendWith ht ha with ha | ha
      · exact ih a ha
      · exact (hextensions _ he).extending_simples a ha

/-- A step brings nothing that an element with all its gains does not match already. -/
theorem matches_of_mem_extendWith {s t : Selector} {e : Extension} {x : E} (hs : s.IsMarks)
    (he : e ∈ extensions) (hmarks : e.IsMarks) (ht : t ∈ s.extendWith e)
    (hx : t.Matches doc (saturate extensions own) x) :
    s.Matches doc (saturate extensions own) x := by
  obtain ⟨extender, hextender, -⟩ := hmarks.extending
  obtain ⟨-, front, at', behind, hsplit, -, rfl⟩ :=
    (Selector.mem_extendWith_of_marks hs hmarks hextender).mp ht
  obtain ⟨y, hreaches, hmet, hleads⟩ := Selector.matches_at.mp hx
  have hs : s = ⟨front ++ at' :: behind⟩ := by rw [← hsplit]
  rw [hs, Selector.matches_at]
  refine ⟨y, ?_, ?_, hleads⟩
  · refine (Document.reaches_congr ?_).mp hreaches
    cases front with
    | nil => exact Or.inl rfl
    | cons _ _ => exact Or.inr rfl
  · intro a ha
    by_cases hgone : a ∈ e.target.parts
    · exact .extended he hextender (fun b hb => hmet b (Compound.mem_union.mpr (Or.inr hb))) hgone
    · exact hmet a (Compound.mem_union.mpr (Or.inl (Compound.mem_difference.mpr ⟨ha, hgone⟩)))

/-- **Nothing too much is matched**: an element that meets a selector in the set, with all its
gains, meets a written one. -/
theorem Derived.sound (hwritten : ∀ s ∈ written, s.IsMarks)
    (hextensions : ∀ e ∈ extensions, e.IsMarks) {s : Selector} {x : E}
    (hs : Derived extensions written s) (hx : s.Matches doc (saturate extensions own) x) :
    ∃ t ∈ written, t.Matches doc (saturate extensions own) x := by
  induction hs with
  | written hs => exact ⟨_, hs, hx⟩
  | extended hs he ht ih =>
      have hmarks := hs.isMarks hwritten hextensions
      exact ih (matches_of_mem_extendWith hmarks he (hextensions _ he) ht hx)

/-! ## Nothing is missed -/

/-- Whether a segment may stand for another behind a chain: the combinators lead to the same
elements. -/
def Interchangeable (front : List Segment) (s t : Segment) : Prop :=
  front = [] ∨ s.combinator.getD .descendant = t.combinator.getD .descendant

theorem Interchangeable.trans {front : List Segment} {s t u : Segment}
    (hst : Interchangeable front s t) (htu : Interchangeable front t u) :
    Interchangeable front s u := by
  rcases hst with h | h
  · exact Or.inl h
  · exact htu.imp_right h.trans

/-- Whether some simple selectors can be replaced at a place: from a selector with any segment there
another one follows whose segment does not ask for them, and asks for nothing new that is not in
`labels`. -/
def Replaceable (extensions : List Extension) (written : List Selector)
    (labels : Set SimpleSelector) (front behind : List Segment) (gone : List SimpleSelector) :
    Prop :=
  ∀ s : Segment, Derived extensions written ⟨front ++ s :: behind⟩ →
    ∃ t : Segment, Derived extensions written ⟨front ++ t :: behind⟩ ∧
      Interchangeable front t s ∧
      ∀ b ∈ t.compound.parts, b ∈ labels ∨ (b ∈ s.compound.parts ∧ b ∉ gone)

section

variable {labels : Set SimpleSelector} {front behind : List Segment}

/-- What can be replaced one by one can be replaced together. -/
theorem replaceable_all {gone : List SimpleSelector}
    (h : ∀ a ∈ gone, Replaceable extensions written labels front behind [a]) :
    Replaceable extensions written labels front behind gone := by
  induction gone with
  | nil => exact fun s hs => ⟨s, hs, Or.inr rfl, fun b hb => Or.inr ⟨hb, List.not_mem_nil⟩⟩
  | cons a rest ih =>
      intro s hs
      obtain ⟨mid, hmid, hsame, hparts⟩ := h a List.mem_cons_self s hs
      obtain ⟨t, ht, hsame', hparts'⟩ := ih (fun b hb => h b (List.mem_cons_of_mem a hb)) mid hmid
      refine ⟨t, ht, hsame'.trans hsame, fun b hb => ?_⟩
      rcases hparts' b hb with hb | ⟨hb, hrest⟩
      · exact Or.inl hb
      · refine (hparts b hb).imp_right fun ⟨hb, hne⟩ => ⟨hb, ?_⟩
        exact List.not_mem_cons_of_ne_of_not_mem (by simpa using hne) hrest

/-- **What was gained can be replaced by what an element has.** -/
theorem replaceable_of_saturated (hwritten : ∀ s ∈ written, s.IsMarks)
    (hextensions : ∀ e ∈ extensions, e.IsMarks) {a : SimpleSelector}
    (ha : Saturated extensions labels a) :
    Replaceable extensions written labels front behind [a] := by
  induction ha with
  | @own a ha =>
      intro s hs
      refine ⟨s, hs, Or.inr rfl, fun b hb => ?_⟩
      by_cases hba : b = a
      · exact Or.inl (hba ▸ ha)
      · exact Or.inr ⟨hb, by simpa using hba⟩
  | @extended e extender a he hextender _ ha ih =>
      intro s hs
      by_cases hin : a ∈ s.compound.parts
      · by_cases hself : a ∈ extender.parts
        · -- extending might change nothing, but `a` was gained earlier as well
          exact ih a hself s hs
        · obtain ⟨a', htarget, -⟩ := (hextensions e he).target
          have htargeta : e.target.parts = [a] := by
            rw [htarget] at ha ⊢
            rw [List.mem_singleton.mp ha]
          let next := Selector.extended front e extender s
          have hnext : ∀ b ∈ next.compound.parts,
              (b ∈ s.compound.parts ∧ b ≠ a) ∨ b ∈ extender.parts := by
            intro b hb
            refine (Compound.mem_union.mp hb).imp_left fun hb => ?_
            obtain ⟨hb, hgone⟩ := Compound.mem_difference.mp hb
            exact ⟨hb, by simpa [htargeta] using hgone⟩
          -- a selector does not follow from itself, but here `a` is gone
          have hne : (⟨front ++ next :: behind⟩ : Selector) ≠ ⟨front ++ s :: behind⟩ := by
            intro heq
            have heq := List.append_cancel_left (Selector.mk.inj heq)
            have hsame : next = s := (List.cons.inj heq).1
            rcases hnext a (by rw [hsame]; exact hin) with ⟨-, h⟩ | h
            · exact h rfl
            · exact hself h
          have hderived : Derived extensions written ⟨front ++ next :: behind⟩ := by
            refine .extended hs he ?_
            refine (Selector.mem_extendWith_of_marks (hs.isMarks hwritten hextensions)
              (hextensions e he) hextender).mpr ⟨hne, front, s, behind, rfl, ?_, rfl⟩
            rw [htargeta]
            intro b hb
            exact List.mem_singleton.mp hb ▸ hin
          obtain ⟨t, ht, hsame, hparts⟩ := replaceable_all ih next hderived
          refine ⟨t, ht, hsame.trans ?_, fun b hb => ?_⟩
          · cases front with
            | nil => exact Or.inl rfl
            | cons _ _ => exact Or.inr rfl
          · refine (hparts b hb).imp_right fun ⟨hb, hnot⟩ => ?_
            obtain ⟨hb, hba⟩ := (hnext b hb).resolve_right hnot
            exact ⟨hb, by simpa using hba⟩
      · refine ⟨s, hs, Or.inr rfl, fun b hb => Or.inr ⟨hb, ?_⟩⟩
        rw [List.mem_singleton]
        rintro rfl
        exact hin hb

/-- At one place everything that an element gained can be replaced by what it has. -/
theorem Derived.replaceAt (hwritten : ∀ s ∈ written, s.IsMarks)
    (hextensions : ∀ e ∈ extensions, e.IsMarks) {s : Segment} {y : E}
    (hs : Derived extensions written ⟨front ++ s :: behind⟩)
    (hreaches : doc.Reaches own front s.combinator y)
    (hmet : s.compound.MetBy (saturate extensions own y)) :
    ∃ t : Segment, Derived extensions written ⟨front ++ t :: behind⟩ ∧
      doc.Reaches own front t.combinator y ∧ t.compound.MetBy (own y) := by
  have hgone : Replaceable extensions written (own y) front behind s.compound.parts :=
    replaceable_all fun a ha => replaceable_of_saturated hwritten hextensions (hmet a ha)
  obtain ⟨t, ht, hsame, hparts⟩ := hgone s hs
  refine ⟨t, ht, (Document.reaches_congr hsame).mpr hreaches, fun a ha => ?_⟩
  exact (hparts a ha).resolve_right fun h => h.2 h.1

/-- From one place on, the compounds can be replaced one after the other. -/
theorem Derived.replaceFrom (hwritten : ∀ s ∈ written, s.IsMarks)
    (hextensions : ∀ e ∈ extensions, e.IsMarks) {s : Segment} {x y : E}
    (hs : Derived extensions written ⟨front ++ s :: behind⟩)
    (hreaches : doc.Reaches own front s.combinator y)
    (hmet : s.compound.MetBy (saturate extensions own y))
    (hleads : doc.Leads (saturate extensions own) behind y x) :
    ∃ t, Derived extensions written t ∧ t.Matches doc own x := by
  induction behind generalizing front s y with
  | nil =>
      obtain ⟨t, ht, hreaches, hown⟩ := hs.replaceAt hwritten hextensions hreaches hmet
      exact ⟨_, ht, Selector.matches_at.mpr ⟨y, hreaches, hown, hleads⟩⟩
  | cons next behind ih =>
      obtain ⟨t, ht, hreaches, hown⟩ := hs.replaceAt hwritten hextensions hreaches hmet
      obtain ⟨z, hrelated, hmetz, hleads⟩ := hleads
      rw [List.append_cons] at ht
      refine ih ht ?_ hmetz hleads
      -- the replaced segment now belongs to the chain in front
      cases front with
      | nil => exact ⟨y, y, hown, rfl, hrelated⟩
      | cons first later =>
          obtain ⟨v, w, hfirst, hlater, hwy⟩ := hreaches
          exact ⟨v, y, hfirst, Document.leads_append.mpr ⟨w, hlater, y, hwy, hown, rfl⟩, hrelated⟩

end

/-- **Nothing is missed**: for an element that meets a written selector with all its gains, one
follows that it meets as it is. -/
theorem Derived.complete (hwritten : ∀ s ∈ written, s.IsMarks)
    (hextensions : ∀ e ∈ extensions, e.IsMarks) {s : Selector} {x : E} (hs : s ∈ written)
    (hx : s.Matches doc (saturate extensions own) x) :
    ∃ t, Derived extensions written t ∧ t.Matches doc own x := by
  obtain ⟨_ | ⟨first, later⟩⟩ := s
  · exact absurd hx id
  · obtain ⟨y, hmet, hleads⟩ := hx
    have hderived : Derived extensions written ⟨[] ++ first :: later⟩ := .written hs
    exact hderived.replaceFrom hwritten hextensions trivial hmet hleads

/-! ## What survives -/

/-- A selector that asks for no more is matched wherever the other one is. -/
theorem matches_of_subsumes {labels : E → Set SimpleSelector} {s t : Selector} {x : E}
    (hs : s.IsMarks) (h : s.subsumes t = true) (hx : t.Matches doc labels x) :
    s.Matches doc labels x := by
  -- first the compounds one by one, then the way that leads from one to the next
  have hmet : ∀ {a b : Segment} {ls : Set SimpleSelector}, a.compound.IsMarks →
      a.compound.subsumes b.compound = true → b.compound.MetBy ls → a.compound.MetBy ls := by
    intro a b ls ha hab hb c hc
    exact hb c ((Compound.subsumes_iff_of_marks ha).mp hab c hc)
  have hleads : ∀ {as bs : List Segment}, List.Forall₂ (fun a b : Segment =>
      a.combinator = b.combinator ∧ a.compound.subsumes b.compound = true) as bs →
      (∀ a ∈ as, a.compound.IsMarks) → ∀ y, doc.Leads labels bs y x → doc.Leads labels as y x := by
    intro as bs h
    induction h with
    | nil => exact fun _ y h => h
    | cons hab _ ih =>
        rintro has y ⟨z, hrelated, hb, hrest⟩
        refine ⟨z, hab.1 ▸ hrelated, hmet (has _ List.mem_cons_self) hab.2 hb, ih ?_ z hrest⟩
        exact fun a ha => has a (List.mem_cons_of_mem _ ha)
  have hmarks := fun a (ha : a ∈ s.segments) => hs.compound ha
  rw [Selector.subsumes_iff] at h
  obtain ⟨as⟩ := s
  obtain ⟨bs⟩ := t
  cases h with
  | nil => exact hx
  | cons hab hrest =>
      obtain ⟨y, hb, hx⟩ := hx
      refine ⟨y, hmet (hmarks _ List.mem_cons_self) hab.2 hb, hleads hrest ?_ y hx⟩
      exact fun a ha => hmarks a (List.mem_cons_of_mem _ ha)

/-- The classes of an element, as simple selectors. -/
def classesOf (classes : E → Set String) (x : E) : Set SimpleSelector :=
  {a | ∃ name ∈ classes x, a = .ofClass name}

/-- What an element with classes only can match is not thrown away. -/
theorem canMatch_of_matches {classes : E → Set String} {s : Selector} {x : E} (hs : s.IsMarks)
    (hx : s.Matches doc (classesOf classes) x) : s.canMatch = true := by
  have hcontradictory : s.isContradictory = false := by
    refine List.any_eq_false.mpr fun a ha => ?_
    rw [Compound.not_contradictory_of_marks (hs.compound ha)]
    exact Bool.false_ne_true
  have hplaceholder : s.hasPlaceholder = false := by
    refine List.any_eq_false.mpr fun a ha => ?_
    obtain ⟨front, behind, hsplit⟩ := List.append_of_mem ha
    have hs : s = ⟨front ++ a :: behind⟩ := by rw [← hsplit]
    rw [hs, Selector.matches_at] at hx
    obtain ⟨y, -, hmet, -⟩ := hx
    rw [Bool.not_eq_true]
    refine List.any_eq_false.mpr fun b hb => ?_
    obtain ⟨name, -, rfl⟩ := hmet b hb
    exact Bool.false_ne_true
  rw [Selector.canMatch, hcontradictory, hplaceholder]
  rfl

/-- **Extending is exact.** Let all compounds hold classes and placeholders only, let every target be
a single one and every extending selector a compound. Then an element of any document whose elements
have classes matches one of the selectors that come out if and only if it matches one of the
written selectors once every element has gained what the extensions give it. -/
theorem extendSelectors_matches_iff (doc : Document E) (classes : E → Set String)
    (hwritten : ∀ s ∈ written, s.IsMarks) (hextensions : ∀ e ∈ extensions, e.IsMarks)
    {matched matched' : List Bool} (hmarks : matched.length = extensions.length)
    {result : List Selector}
    (h : extendSelectors extensions matched written = .ok (result, matched')) (x : E) :
    (∃ s ∈ result, s.Matches doc (classesOf classes) x) ↔
      ∃ s ∈ written, s.Matches doc (saturate extensions (classesOf classes)) x := by
  obtain ⟨closed, hclosed, rfl, -⟩ := extendSelectors_closes hmarks h
  have hderived : ∀ s ∈ (closed.filter Selector.canMatch).toList,
      Derived extensions written s ∧ s.IsMarks := by
    intro s hs
    have hs := (hclosed s).mp (SelectorSet.mem_filter.mp hs).1
    exact ⟨hs, hs.isMarks hwritten hextensions⟩
  constructor
  · rintro ⟨s, hs, hx⟩
    have hs := (hderived s ((SelectorSet.essential_sublist _ _ _).subset hs)).1
    exact hs.sound hwritten hextensions (hx.mono fun _ _ ha => .own ha)
  · rintro ⟨s, hs, hx⟩
    obtain ⟨t, ht, hx⟩ := Derived.complete hwritten hextensions hs hx
    have hmem : t ∈ (closed.filter Selector.canMatch).toList :=
      SelectorSet.mem_filter.mpr ⟨(hclosed t).mpr ht,
        canMatch_of_matches (ht.isMarks hwritten hextensions) hx⟩
    -- among compounds of classes and placeholders asking for no more is an order
    have hcompound : ∀ c d e : Compound, c.IsMarks → d.IsMarks → c.subsumes d = true →
        d.subsumes e = true → c.subsumes e = true := by
      intro c d e hc hd hcd hde
      rw [Compound.subsumes_iff_of_marks hc] at hcd ⊢
      exact fun a ha => (Compound.subsumes_iff_of_marks hd).mp hde a (hcd a ha)
    obtain ⟨u, hu, hut⟩ := SelectorSet.exists_survivor (fun s _ => s.subsumes_refl)
      (fun s hs t ht u _ => Selector.subsumes_trans hcompound
        (fun _ => (hderived s hs).2.compound) (fun _ => (hderived t ht).2.compound)) hmem
    have hmarksu := (hderived u ((SelectorSet.essential_sublist _ _ _).subset hu)).2
    exact ⟨u, hu, matches_of_subsumes hmarksu hut hx⟩

/-- A document of a single element of the class `c`: it matches what comes of `.a` when `.c` extends
`.b` and `.b` extends `.a`. -/
theorem chained_extensions_match :
    extendSelectors [.ofClasses "c" "b", .ofClasses "b" "a"] [false, false] [.ofClass "a"] =
        .ok ([.ofClass "a", .ofClass "b", .ofClass "c"], [true, true]) ∧
      ((∃ s ∈ [Selector.ofClass "a", .ofClass "b", .ofClass "c"],
          s.Matches ⟨fun _ => none, fun _ => none⟩ (classesOf fun _ => {"c"}) ()) ↔
        ∃ s ∈ [Selector.ofClass "a"], s.Matches ⟨fun _ => none, fun _ => none⟩
          (saturate [.ofClasses "c" "b", .ofClasses "b" "a"] (classesOf fun _ => {"c"})) ()) := by
  have hresult : extendSelectors [.ofClasses "c" "b", .ofClasses "b" "a"] [false, false]
      [.ofClass "a"] = .ok ([.ofClass "a", .ofClass "b", .ofClass "c"], [true, true]) := by cbv
  refine ⟨hresult, extendSelectors_matches_iff _ _ ?_ ?_ rfl hresult ()⟩
  · intro s hs
    obtain rfl := List.mem_singleton.mp hs
    exact Selector.ofClass_isMarks "a"
  · intro e he
    rcases List.mem_pair.mp he with rfl | rfl
    · exact Extension.ofClasses_isMarks "c" "b"
    · exact Extension.ofClasses_isMarks "b" "a"

end Extending

end Scss
