import Scss.Proofs.Document

/-!
# What weaving asks for

A selector that follows from an extension asks that an element stands behind two ancestries, the one
of the extended compound and the one of the extending compound. They are woven into one chain, and
what stood between an ancestry and its compound may then stand elsewhere: the chain leads on from the
ancestry through other segments before it comes to the compound.

So each ancestry is asked for only if those detours come to the step that it was written with
(`amountsTo`). Where they do, an element that matches the new selector matches the old one, in the
document in which whatever matches the extending selector has got the target. Where they do not, the
chain asks for less than was written, and matches too much.
-/

namespace Scss

/-! ## Steps in a row -/

namespace Combinator

/-- The step that two in a row come to. A step to a sibling and from there down to a child comes to
no single one. -/
def andThen? : Combinator → Combinator → Option Combinator
  | .descendant, _ | .child, .child | .child, .descendant => some .descendant
  | .child, .adjacent | .child, .sibling => some .child
  | .adjacent, .adjacent | .adjacent, .sibling | .sibling, .adjacent | .sibling, .sibling =>
    some .sibling
  | _, _ => none

/-- Whether `b` leads wherever `a` leads. -/
def isWithin : Combinator → Combinator → Bool
  | .child, .descendant | .adjacent, .sibling => true
  | a, b => a == b

/-- The step that a row of steps comes to. -/
def overall? : List Combinator → Option Combinator
  | [] => none
  | first :: later => later.foldlM andThen? first

end Combinator

/-- The steps along a chain, and the one that leads on from it. -/
def stepsAlong (chain : List Segment) (last : Option Combinator) : List Combinator :=
  chain.map (·.combinator.getD .descendant) ++ [last.getD .descendant]

/-- Whether to go along a chain and on from it is to take one step, as it was asked for. -/
def amountsTo (chain : List Segment) (last asked : Option Combinator) : Bool :=
  (Combinator.overall? (stepsAlong chain last)).any (·.isWithin (asked.getD .descendant))

/-- A document tree together with the simple selectors that each element meets. -/
structure Page (E : Type) extends Document E where
  labels : E → Set SimpleSelector
  /-- Siblings have the same parent. -/
  parent_eq : ∀ {x y : E}, previous y = some x → parent y = parent x
  universal : ∀ x : E, .universal ∈ labels x

variable {E : Type}

namespace Page

variable {page : Page E}

theorem parent_eq_of_sibling {x y : E} (h : page.Related .sibling x y) :
    page.parent y = page.parent x := by
  induction h with
  | single h => exact page.parent_eq h
  | tail _ h ih => exact (page.parent_eq h).trans ih

/-- A sibling of a descendant is a descendant. -/
theorem descendant_of_sibling {x y z : E} (hxy : page.Related .descendant x y)
    (hyz : page.Related .sibling y z) : page.Related .descendant x z := by
  obtain ⟨w, hw, hparent⟩ := Relation.TransGen.tail'_iff.mp hxy
  exact .tail' hw ((parent_eq_of_sibling hyz).trans hparent)

theorem related_of_isWithin {a b : Combinator} {x y : E} (h : a.isWithin b = true)
    (hxy : page.Related a x y) : page.Related b x y := by
  cases a <;> cases b <;> first | exact hxy | exact .single hxy | cases h

theorem related_andThen? {a b c : Combinator} {x y z : E} (h : a.andThen? b = some c)
    (hxy : page.Related a x y) (hyz : page.Related b y z) : page.Related c x z := by
  -- what stands right behind another one stands behind it
  have hbeside : b = .adjacent ∨ b = .sibling → page.Related .sibling y z := by
    rintro (rfl | rfl)
    · exact .single hyz
    · exact hyz
  cases a with
  | child =>
      cases b with
      | child => obtain rfl := Option.some.inj h; exact .tail (.single hxy) hyz
      | descendant => obtain rfl := Option.some.inj h; exact .trans (.single hxy) hyz
      | adjacent =>
          obtain rfl := Option.some.inj h
          exact (parent_eq_of_sibling (hbeside (Or.inl rfl))).trans hxy
      | sibling =>
          obtain rfl := Option.some.inj h
          exact (parent_eq_of_sibling hyz).trans hxy
  | descendant =>
      obtain rfl : .descendant = c := by cases b <;> exact Option.some.inj h
      cases b with
      | child => exact .tail hxy hyz
      | descendant => exact .trans hxy hyz
      | adjacent => exact descendant_of_sibling hxy (hbeside (Or.inl rfl))
      | sibling => exact descendant_of_sibling hxy hyz
  -- from beside an element no combinator leads on to one inside it
  | adjacent =>
      cases b with
      | child => cases h
      | descendant => cases h
      | adjacent => obtain rfl := Option.some.inj h; exact .tail (.single hxy) hyz
      | sibling => obtain rfl := Option.some.inj h; exact .trans (.single hxy) hyz
  | sibling =>
      cases b with
      | child => cases h
      | descendant => cases h
      | adjacent => obtain rfl := Option.some.inj h; exact .tail hxy hyz
      | sibling => obtain rfl := Option.some.inj h; exact .trans hxy hyz

/-- A chain leads where the steps along it come to. -/
theorem related_of_leads {chain : List Segment} {last : Option Combinator} {c d : Combinator}
    {x y z w : E} (hsteps : (stepsAlong chain last).foldlM Combinator.andThen? c = some d)
    (hxy : page.Related c x y) (hchain : page.Leads page.labels chain y z)
    (hlast : page.Related (last.getD .descendant) z w) : page.Related d x w := by
  induction chain generalizing c y with
  | nil =>
      obtain rfl := hchain
      obtain ⟨b, hb, hd⟩ := Option.bind_eq_some_iff.mp hsteps
      obtain rfl := Option.some.inj hd
      exact related_andThen? hb hxy hlast
  | cons s rest ih =>
      obtain ⟨v, hyv, -, hrest⟩ := hchain
      obtain ⟨b, hb, hsteps⟩ := Option.bind_eq_some_iff.mp hsteps
      exact ih hsteps (related_andThen? hb hxy hyv) hrest

theorem related_of_amountsTo {chain : List Segment} {last asked : Option Combinator} {x z w : E}
    (h : amountsTo chain last asked = true) (hchain : page.Leads page.labels chain x z)
    (hlast : page.Related (last.getD .descendant) z w) :
    page.Related (asked.getD .descendant) x w := by
  obtain ⟨d, hd, hwithin⟩ := (Option.any_eq_true _ _).mp h
  refine related_of_isWithin hwithin ?_
  cases chain with
  | nil =>
      obtain rfl := hchain
      obtain rfl := Option.some.inj hd
      exact hlast
  | cons s rest =>
      obtain ⟨v, hxv, -, hrest⟩ := hchain
      exact related_of_leads hd hxv hrest hlast

end Page

/-! ## Parts of a chain -/

section

variable {doc : Document E} {labels : E → Set SimpleSelector}

/-- To stand behind a chain is to stand ahead of the element of one of its segments, which stands
behind those in front of it. -/
theorem Document.reaches_at {front behind : List Segment} {s : Segment} {last : Option Combinator}
    {x : E} : doc.Reaches labels (front ++ s :: behind) last x ↔
      ∃ y z, doc.Reaches labels front s.combinator y ∧ s.compound.MetBy (labels y) ∧
        doc.Leads labels behind y z ∧ doc.Related (last.getD .descendant) z x := by
  cases front with
  | nil =>
      exact ⟨fun ⟨y, z, hmet, hlead, h⟩ => ⟨y, z, trivial, hmet, hlead, h⟩,
        fun ⟨y, z, _, hmet, hlead, h⟩ => ⟨y, z, hmet, hlead, h⟩⟩
  | cons first later =>
      simp only [List.cons_append, Reaches, leads_append, Leads]
      constructor
      · rintro ⟨u, z, hfirst, ⟨v, hv, y, hy, hmet, hlead⟩, h⟩
        exact ⟨y, z, ⟨u, v, hfirst, hv, hy⟩, hmet, hlead, h⟩
      · rintro ⟨y, z, ⟨u, v, hfirst, hv, hy⟩, hmet, hlead, h⟩
        exact ⟨u, z, hfirst, ⟨v, hv, y, hy, hmet, hlead⟩, h⟩

theorem Document.Reaches.mono {more : E → Set SimpleSelector}
    (hsub : ∀ x, ∀ a ∈ labels x, a ∈ more x) {chain : List Segment} {last : Option Combinator}
    {x : E} (h : doc.Reaches labels chain last x) : doc.Reaches more chain last x := by
  cases chain with
  | nil => trivial
  | cons first later =>
      obtain ⟨y, z, hmet, hlead, hrelated⟩ := h
      exact ⟨y, z, fun a ha => hsub y a (hmet a ha), hlead.mono hsub, hrelated⟩

end

namespace Page

variable {page : Page E}

/-- Behind a chain one is behind its beginning too, if the rest of it comes to the step that was
asked for. -/
theorem reaches_beginning {front rest : List Segment} {last asked : Option Combinator} {x : E}
    (hrest : front = [] ∨ amountsTo rest last asked = true)
    (h : page.Reaches page.labels (front ++ rest) last x) :
    page.Reaches page.labels front asked x := by
  rcases hrest with rfl | hrest
  · trivial
  · cases front with
    | nil => trivial
    | cons first later =>
        obtain ⟨y, z, hmet, hlead, hlast⟩ := h
        obtain ⟨w, hfront, hlead⟩ := Document.leads_append.mp hlead
        exact ⟨y, w, hmet, hfront, related_of_amountsTo hrest hlead hlast⟩

/-- Behind a chain with a detour one is behind the chain without it, if the detour comes to the step
to the segment behind it. -/
theorem reaches_without {front detour behind : List Segment} {s t : Segment}
    {last : Option Combinator} {x : E} (hcompound : s.compound = t.compound)
    (hdetour : front = [] ∨ amountsTo detour s.combinator t.combinator = true)
    (h : page.Reaches page.labels (front ++ detour ++ s :: behind) last x) :
    page.Reaches page.labels (front ++ t :: behind) last x := by
  obtain ⟨y, z, hreaches, hmet, h⟩ := Document.reaches_at.mp h
  exact Document.reaches_at.mpr ⟨y, z, reaches_beginning hdetour hreaches, hcompound ▸ hmet, h⟩

end Page

/-! ## Weaving -/

/-- A unified compound asks for all that the extending one asks for, and for what is left of the
extended one, a universal test apart. -/
theorem Compound.mem_unified {c target extending u : Compound}
    (h : c.unify? target extending = some u) {a : SimpleSelector}
    (ha : a ∈ extending.parts ∨ a ∈ c.parts ∧ a ∉ target.parts ∧ a ≠ .universal) : a ∈ u.parts := by
  simp only [unify?, Option.ite_none_left_eq_some, Option.some.injEq] at h
  obtain ⟨-, -, -, rfl⟩ := h
  refine mem_union.mpr (ha.symm.imp_left ?_)
  rintro ⟨hc, hgone, hany⟩
  have hrest : a ∈ (c.difference target).parts := mem_difference.mpr ⟨hc, hgone⟩
  have hkept : ∀ (p : Prop) [Decidable p], a ∈ (if p then (c.difference target).keep
      (· != .universal) else c.difference target).parts := by
    intro p _
    split
    · exact List.mem_filter.mpr ⟨hrest, bne_iff_ne.mpr hany⟩
    · exact hrest
  exact hkept _

/-- The combinator that a woven chain leads on with. -/
def Selector.stepOn (own extending : List Segment) (context : List Selector) (s last : Segment) :
    Option Combinator :=
  if extending.isEmpty || (weave own extending context).length == own.length then s.combinator
  else last.combinator

/-- What follows from an extension is the unified compound behind the woven chain. -/
theorem Selector.exists_of_extendAt {e : Extension} {own behind : List Segment} {s : Segment}
    {t : Selector} (h : extendAt e own s behind = some t) : ∃ last unified combinator,
      e.extending.segments.getLast? = some last ∧
      s.compound.unify? e.target last.compound = some unified ∧
      t = ⟨weave own e.extending.segments.dropLast e.context ++ ⟨combinator, unified⟩ :: behind⟩ ∧
      (weave own e.extending.segments.dropLast e.context = [] ∨ combinator.getD .descendant =
        (stepOn own e.extending.segments.dropLast e.context s last).getD .descendant) := by
  simp only [extendAt, Option.bind_eq_bind, Option.bind_eq_some_iff] at h
  obtain ⟨last, hlast, unified, hunified, ht⟩ := h
  refine ⟨last, unified, _, hlast, hunified, (Option.some.inj ht).symm, ?_⟩
  rw [stepOn]
  cases weave own e.extending.segments.dropLast e.context with
  | nil => exact Or.inl rfl
  | cons a rest => exact Or.inr rfl

/-- Both ancestries begin with as many segments as they are said to share. -/
theorem Selector.take_sharedLength (own extending : List Segment) (context : List Selector) :
    own.take (sharedLength own extending context) =
      extending.take (sharedLength own extending context) := by
  refine List.foldlRecOn (motive := fun n => own.take n = extending.take n) _ _ rfl ?_
  intro n hn m hm
  obtain ⟨c, -, rfl⟩ := List.mem_map.mp hm
  rcases Nat.le_total n (if c.segments.isPrefixOf own && c.segments.isPrefixOf extending then
    c.segments.length else 0) with hle | hle
  · rw [Nat.max_eq_right hle]
    split
    next hc =>
      rw [Bool.and_eq_true, List.isPrefixOf_iff_prefix, List.isPrefixOf_iff_prefix] at hc
      obtain ⟨⟨as, rfl⟩, ⟨bs, rfl⟩⟩ := hc
      rw [List.take_left' rfl, List.take_left' rfl]
    · rfl
  · rwa [Nat.max_eq_left hle]

/-- Whether the combinators let the segments `front` and the ancestry of the extending compound be
woven in front of the extended compound, which `s` holds.

An ancestry that the other begins with is taken from there, so the rest of the other is a detour from
it. Otherwise what the extending selector brings comes behind `front`: this is a detour to the
extended compound, and what is left of `front` is one from what both share to what is brought. -/
def Extension.fitsAt (e : Extension) (front : List Segment) (s : Segment) : Bool :=
  let ancestry := e.extending.segments.dropLast
  let last := e.extending.segments.getLast?.bind Segment.combinator
  if front.isEmpty || ancestry.isEmpty then true
  else if ancestry.isPrefixOf front then
    amountsTo (front.drop ancestry.length) s.combinator last
  else if front.isPrefixOf ancestry then
    amountsTo (ancestry.drop front.length) last s.combinator
  else
    let shared := Selector.sharedLength front ancestry e.context
    let brought := Selector.joined (ancestry.drop shared)
    amountsTo brought last s.combinator &&
      (shared == 0 || (ancestry.drop shared).head?.all fun first =>
        amountsTo (front.drop shared) first.combinator first.combinator)

/-- Whether the combinators of an extension fit those of a selector wherever the target applies. -/
def Extension.Fits (e : Extension) (s : Selector) : Prop :=
  ∀ i : Fin s.segments.length, e.target.subsumes s.segments[i].compound = true →
    e.fitsAt (s.segments.take i) s.segments[i] = true

instance (e : Extension) (s : Selector) : Decidable (e.Fits s) :=
  inferInstanceAs (Decidable (∀ _ : Fin _, _))

theorem Extension.Fits.at_of_unify? {e : Extension} {s : Selector} (hfits : e.Fits s)
    {front behind : List Segment} {at' : Segment} (hsplit : s.segments = front ++ at' :: behind)
    {extending unified : Compound} (hunify : at'.compound.unify? e.target extending = some unified) :
    e.fitsAt front at' = true := by
  obtain ⟨segments⟩ := s
  subst hsplit
  have happlies : e.target.subsumes at'.compound = true := by
    simp only [Compound.unify?, Option.ite_none_left_eq_some] at hunify
    simpa using hunify.1
  have hfit := hfits ⟨front.length, by simp⟩
  simp only [Fin.getElem_fin, List.getElem_append_right (Nat.le_refl _), Nat.sub_self,
    List.getElem_cons_zero, List.take_left] at hfit
  exact hfit happlies

/-- A compound may extend whatever it likes. -/
theorem Extension.fits_of_compound {e : Extension} {c : Compound}
    (h : e.extending = .ofCompound c) (s : Selector) : e.Fits s := by
  intro i _
  simp [fitsAt, h, Selector.ofCompound]

/-- Whether a chain is written with spaces only. -/
def AreSpaces (chain : List Segment) : Prop :=
  ∀ s ∈ chain, s.combinator.getD .descendant = .descendant

/-- A chain of spaces comes to one space. -/
theorem amountsTo_of_areSpaces {chain : List Segment} {last asked : Option Combinator}
    (hchain : AreSpaces chain) (hlast : last.getD .descendant = .descendant)
    (hasked : asked.getD .descendant = .descendant) : amountsTo chain last asked = true := by
  have hfurther : ∀ steps : List Combinator,
      steps.foldlM Combinator.andThen? .descendant = some .descendant := by
    intro steps
    induction steps with
    | nil => rfl
    | cons _ _ ih => exact ih
  have hall : Combinator.overall? (stepsAlong chain last) = some .descendant := by
    cases chain with
    | nil => exact congrArg some hlast
    | cons s rest =>
        rw [stepsAlong, List.map_cons, hchain s List.mem_cons_self]
        exact hfurther _
  rw [amountsTo, hall, hasked]
  rfl

/-- Extensions fit where nothing is written but spaces. -/
theorem Extension.fits_of_areSpaces {e : Extension} {s : Selector} (hs : AreSpaces s.segments)
    (he : AreSpaces e.extending.segments) : e.Fits s := by
  intro i _
  -- whatever is cut out of two chains of spaces is a chain of spaces
  have hown : ∀ n, AreSpaces ((s.segments.take i).drop n) :=
    fun n t ht => hs t (List.mem_of_mem_take (List.mem_of_mem_drop ht))
  have hancestry : ∀ n, AreSpaces (e.extending.segments.dropLast.drop n) :=
    fun n t ht => he t (List.dropLast_subset _ (List.mem_of_mem_drop ht))
  have hjoined : ∀ chain, AreSpaces chain → AreSpaces (Selector.joined chain) := by
    intro chain hchain
    cases chain with
    | nil => exact hchain
    | cons first later =>
        rw [AreSpaces, List.forall_mem_cons] at hchain
        exact List.forall_mem_cons.mpr hchain
  have hlast : (e.extending.segments.getLast?.bind Segment.combinator).getD .descendant =
      .descendant := by
    cases h : e.extending.segments.getLast? with
    | none => rfl
    | some last => exact he last (List.mem_of_getLast? h)
  have hat : s.segments[i].combinator.getD .descendant = .descendant := hs _ (List.getElem_mem _)
  unfold fitsAt
  dsimp only
  split
  · rfl
  split
  · exact amountsTo_of_areSpaces (hown _) hat hlast
  split
  · exact amountsTo_of_areSpaces (hancestry _) hlast hat
  rw [Bool.and_eq_true, Bool.or_eq_true, Option.all_eq_true]
  refine ⟨amountsTo_of_areSpaces (hjoined _ (hancestry _)) hlast hat, Or.inr fun first hfirst => ?_⟩
  have hfirst := hancestry _ first (List.mem_of_mem_head? hfirst)
  exact amountsTo_of_areSpaces (hown _) hfirst hfirst

namespace Page

variable {page : Page E}

/-- Where the combinators fit, an element behind the woven chain is behind both ancestries. -/
theorem reaches_of_weave {e : Extension} {front : List Segment} {s last : Segment} {x : E}
    (hlast : e.extending.segments.getLast? = some last) (hfits : e.fitsAt front s = true)
    (h : page.Reaches page.labels (Selector.weave front e.extending.segments.dropLast e.context)
      (Selector.stepOn front e.extending.segments.dropLast e.context s last) x) :
    page.Reaches page.labels front s.combinator x ∧
      page.Reaches page.labels e.extending.segments.dropLast last.combinator x := by
  simp only [Extension.fitsAt, hlast, Option.bind_some] at hfits
  generalize e.extending.segments.dropLast = ancestry at hfits h ⊢
  unfold Selector.stepOn Selector.weave at h
  cases hfront : front.isEmpty with
  | true =>
      obtain rfl := List.isEmpty_iff.mp hfront
      refine ⟨trivial, ?_⟩
      cases ancestry with
      | nil => trivial
      | cons a rest => exact h
  | false =>
  cases hancestry : ancestry.isEmpty with
  | true =>
      obtain rfl := List.isEmpty_iff.mp hancestry
      simp only [hfront, Bool.false_eq_true, if_false, List.isEmpty_nil, Bool.true_or, if_true] at h
      exact ⟨h, trivial⟩
  | false =>
  simp only [hfront, hancestry, Bool.false_or, Bool.false_eq_true, if_false] at h hfits
  cases hbegins : ancestry.isPrefixOf front with
  | true =>
      obtain ⟨rest, rfl⟩ := List.isPrefixOf_iff_prefix.mp hbegins
      simp only [hbegins, if_true, beq_self_eq_true, List.drop_left] at h hfits
      exact ⟨h, reaches_beginning (Or.inr hfits) h⟩
  | false =>
  simp only [hbegins, Bool.false_eq_true, if_false] at h hfits
  cases hbegun : front.isPrefixOf ancestry with
  | true =>
      obtain ⟨rest, rfl⟩ := List.isPrefixOf_iff_prefix.mp hbegun
      -- a rest without segments would make the ancestries the same
      have hlonger : ((front ++ rest).length == front.length) = false := by
        rw [beq_eq_false_iff_ne]
        intro hlength
        rw [List.length_append, Nat.add_eq_left, List.length_eq_zero_iff] at hlength
        subst hlength
        rw [List.append_nil, List.isPrefixOf_iff_prefix.mpr List.prefix_rfl] at hbegins
        cases hbegins
      simp only [hbegun, if_true, hlonger, Bool.false_eq_true, if_false, List.drop_left] at h hfits
      exact ⟨reaches_beginning (Or.inr hfits) h, h⟩
  | false =>
  simp only [hbegun, Bool.false_eq_true, if_false, Bool.and_eq_true, Bool.or_eq_true,
    beq_iff_eq] at h hfits
  have hshared := Selector.take_sharedLength front ancestry e.context
  generalize Selector.sharedLength front ancestry e.context = shared at h hfits hshared
  obtain ⟨hbrought, hdetour⟩ := hfits
  have hdrop : ancestry.drop shared ≠ [] := by
    intro hdrop
    -- all of the ancestry would be shared, but `front` does not begin with it
    rw [List.take_of_length_le (List.drop_eq_nil_iff.mp hdrop)] at hshared
    rw [List.isPrefixOf_iff_prefix.mpr (hshared ▸ List.take_prefix shared front)] at hbegins
    cases hbegins
  obtain ⟨first, rest, hdrop⟩ := List.exists_cons_of_ne_nil hdrop
  rw [hdrop] at h hbrought hdetour
  rw [if_neg (by simp [Selector.joined])] at h
  refine ⟨reaches_beginning (Or.inr hbrought) h, ?_⟩
  rw [← List.take_append_drop shared ancestry, hdrop, ← hshared]
  rw [← List.take_append_drop shared front] at h
  refine reaches_without (s := { first with combinator := some (first.combinator.getD .descendant) })
    rfl ?_ h
  exact hdetour.imp (fun hzero => by rw [hzero, List.take_zero]) id

/-- The simple selectors of each element once whatever matches the extending selector has the
target. -/
def extended (page : Page E) (e : Extension) (x : E) : Set SimpleSelector :=
  {a | a ∈ page.labels x ∨ a ∈ e.target.parts ∧ e.extending.Matches page.toDocument page.labels x}

/--
**Extending matches nothing too much where the combinators fit.**

What matches a selector that follows from an extension matches the extended selector, once every
element that matches the whole extending selector has the target. Combinators that do not fit are
lost on the way: weaving drops the one in front of the extended compound where it brings segments of
its own, and the one in front of the extending compound where it brings none.
-/
theorem matches_of_mem_extendWith_of_fits (page : Page E) {s t : Selector} {e : Extension} {x : E}
    (hfits : e.Fits s) (ht : t ∈ s.extendWith e)
    (hx : t.Matches page.toDocument page.labels x) :
    s.Matches page.toDocument (page.extended e) x := by
  obtain ⟨-, front, at', behind, hsplit, hat⟩ := Selector.mem_extendWith.mp ht
  obtain ⟨last, unified, combinator, hlast, hunified, rfl, hstep⟩ := Selector.exists_of_extendAt hat
  obtain ⟨y, hreaches, hmet, hleads⟩ := Selector.matches_at.mp hx
  have hfit : e.fitsAt front at' = true := hfits.at_of_unify? hsplit hunified
  obtain ⟨hown, hancestry⟩ :=
    reaches_of_weave hlast hfit ((Document.reaches_congr hstep).mp hreaches)
  have hextending : e.extending.Matches page.toDocument page.labels y := by
    have hshape : e.extending = ⟨e.extending.segments.dropLast ++ [last]⟩ := by
      rw [List.dropLast_append_getLast? last hlast]
    rw [hshape, Selector.matches_at]
    exact ⟨y, hancestry, fun a ha => hmet a (Compound.mem_unified hunified (Or.inl ha)), rfl⟩
  have hgains : ∀ x, ∀ a ∈ page.labels x, a ∈ page.extended e x := fun _ _ => Or.inl
  have hshape : s = ⟨front ++ at' :: behind⟩ := by rw [← hsplit]
  rw [hshape, Selector.matches_at]
  refine ⟨y, hown.mono hgains, ?_, hleads.mono hgains⟩
  intro a ha
  by_cases hgone : a ∈ e.target.parts
  · exact Or.inr ⟨hgone, hextending⟩
  by_cases hany : a = .universal
  · exact Or.inl (hany ▸ page.universal y)
  exact Or.inl (hmet a (Compound.mem_unified hunified (Or.inr ⟨ha, hgone, hany⟩)))

/-! ## Three elements, one inside the other -/

/-- A document of three elements, each the only child of the one before it, and their classes. -/
def nested (outer middle inner : String) : Page (Fin 3) where
  parent
    | 0 => none
    | 1 => some 0
    | 2 => some 1
  previous _ := none
  labels
    | 0 => {.universal, .ofClass outer}
    | 1 => {.universal, .ofClass middle}
    | 2 => {.universal, .ofClass inner}
  parent_eq h := nomatch h
  universal x := by
    match x with
    | 0 | 1 | 2 => exact Or.inl rfl

/-- The selector of a class with another around it, at any distance. -/
def inside (outer inner : String) : Selector :=
  ⟨[⟨none, .ofClass outer⟩, ⟨some .descendant, .ofClass inner⟩]⟩

/-- A class extended by the children of one class that are of another. -/
def extendedByChild (target outer inner : String) : Extension where
  target := .ofClass target
  extending := ⟨[⟨none, .ofClass outer⟩, ⟨some .child, .ofClass inner⟩]⟩
  context := []
  optional := false
  position := default

/-- From `.a .x` follows `.a .b > .y` if `.b > .y` extends `.x`, and what matches it was to be
matched. -/
theorem childInside_matches_rightly :
    (extendedByChild "x" "b" "y").Fits (inside "a" "x") ∧
      ⟨(inside "a" "b").segments ++ [⟨some .child, .ofClass "y"⟩]⟩ ∈
        (inside "a" "x").extendWith (extendedByChild "x" "b" "y") ∧
      (inside "a" "x").Matches (nested "a" "b" "y").toDocument
        ((nested "a" "b" "y").extended (extendedByChild "x" "b" "y")) 2 := by
  have hfits : (extendedByChild "x" "b" "y").Fits (inside "a" "x") := by decide
  have hfollows : ⟨(inside "a" "b").segments ++ [⟨some .child, .ofClass "y"⟩]⟩ ∈
      (inside "a" "x").extendWith (extendedByChild "x" "b" "y") := by decide
  refine ⟨hfits, hfollows, matches_of_mem_extendWith_of_fits _ hfits hfollows ?_⟩
  refine ⟨0, ?_, 1, .single rfl, ?_, 2, rfl, ?_, rfl⟩ <;>
    exact fun a ha => Or.inr (List.mem_singleton.mp ha)

/-- If `.p > .y` extends `.x`, what follows from `.p .x` is `.p .y`: it has lost the child combinator,
and matches elements of the class `y` that are no children of `.p`, and have not got `.x`. -/
theorem lostChild_matches_too_much :
    (inside "p" "x").extendWith (extendedByChild "x" "p" "y") = [inside "p" "y"] ∧
      (inside "p" "y").Matches (nested "p" "q" "y").toDocument (nested "p" "q" "y").labels 2 ∧
      ¬ (inside "p" "x").Matches (nested "p" "q" "y").toDocument
        ((nested "p" "q" "y").extended (extendedByChild "x" "p" "y")) 2 := by
  refine ⟨by decide, ⟨0, ?_, 2, ?_, ?_, rfl⟩, ?_⟩
  · exact fun a ha => Or.inr (List.mem_singleton.mp ha)
  · exact .tail (.single rfl) rfl
  · exact fun a ha => Or.inr (List.mem_singleton.mp ha)
  · rintro ⟨y, -, z, -, hx, rfl⟩
    rcases hx (.ofClass "x") List.mem_cons_self with (hx | hx) | ⟨-, u, hu, v, huv, -, rfl⟩
    · cases hx
    · exact absurd (show SimpleSelector.ofClass "x" = .ofClass "y" from hx) (by decide)
    · -- the parent of the innermost element is the middle one
      obtain rfl := Option.some.inj huv
      rcases hu (.ofClass "p") List.mem_cons_self with hu | hu
      · cases hu
      · exact absurd (show SimpleSelector.ofClass "p" = .ofClass "q" from hu) (by decide)

end Page

end Scss
