import Scss.Proofs.Spelling

/-!
# What is written for a reference

Where a selector is resolved against its parent, the text of the parent is written for each `&`, and the
suffix of the `&` right behind it. That is how it is meant, and how it is but for two things. A compound
holds no part twice: `.a { &.a { } }` is a rule for `.a`. So a compound is taken here with its parts as they
come, whether or not they repeat (`Link`), and a selector is written as a text if its compounds can be.
And between two compounds stands one combinator: of one in front of the `&` and one that the parent begins
with, only the first is left, which is why one of them has to be missing (`LeadsInto`).

What is written for the `&` is given as a text of its own, so that one function gives the text as it is in
the source, with `&` for itself, and the one that is meant.
-/

namespace Scss

open Selector

namespace SimpleSelector

/-- The text of a simple selector, with `outer` for the `&` of a reference. -/
def textWith (outer : List Char) : SimpleSelector → List Char
  | parent suffix => outer ++ (suffix.getD "").toList
  | x => x.text.toList

variable {outer : List Char} {x y : SimpleSelector}

theorem textWith_ampersand (x : SimpleSelector) : x.textWith ['&'] = x.text.toList := by
  cases x with
  | parent suffix => simp [textWith, text]
  | _ => rfl

theorem textWith_of_isParent (h : x.isParent = false) : x.textWith outer = x.text.toList := by
  cases x with
  | parent suffix => cases h
  | _ => rfl

theorem textWith_withSuffix? {suffix : String} (h : x.withSuffix? suffix = some y) :
    y.textWith outer = x.textWith outer ++ suffix.toList := by
  cases x with
  | element name | id name | ofClass name | placeholder name =>
      obtain rfl := Option.some.inj h
      simp [textWith, text]
  | _ => cases h

end SimpleSelector

/-- The text of the parts of a compound, as they come. -/
def partsWith (outer : List Char) (xs : List SimpleSelector) : List Char :=
  xs.flatMap (·.textWith outer)

theorem partsWith_ampersand (xs : List SimpleSelector) : partsWith ['&'] xs = partsText xs :=
  List.flatMap_congr fun x _ => x.textWith_ampersand

theorem partsWith_append (outer : List Char) (xs ys : List SimpleSelector) :
    partsWith outer (xs ++ ys) = partsWith outer xs ++ partsWith outer ys := List.flatMap_append

theorem partsWith_of_isParent {outer : List Char} {xs : List SimpleSelector}
    (h : ∀ x ∈ xs, x.isParent = false) : partsWith outer xs = partsText xs :=
  List.flatMap_congr fun x hx => SimpleSelector.textWith_of_isParent (h x hx)

/-! ## Links -/

/-- A compound as it is written, with the combinator in front of it. Its parts may repeat. -/
structure Link where
  combinator : Option Combinator
  parts : List SimpleSelector

/-- A combinator in front of a compound, without the space that stands between any two compounds. -/
def leadText : Option Combinator → List Char
  | none | some .descendant => []
  | some combinator => combinator.sign.toList ++ [' ']

namespace Link

/-- The segment that is written so: in its compound no part repeats. -/
def segment (l : Link) : Segment := ⟨l.combinator, .ofList l.parts⟩

def ofSegment (s : Segment) : Link := ⟨s.combinator, s.compound.parts⟩

def textWith (outer : List Char) (l : Link) : List Char := leadText l.combinator ++ partsWith outer l.parts

/-- The link with another combinator in front of it, if there is one. -/
def behind (combinator : Option Combinator) (l : Link) : Link :=
  { l with combinator := combinator.or l.combinator }

theorem segment_ofSegment (s : Segment) : (ofSegment s).segment = s := by
  rw [segment, ofSegment, Compound.ofList_parts]

theorem map_ofSegment (segments : List Segment) : (segments.map ofSegment).map segment = segments := by
  rw [List.map_map]
  exact (List.map_congr_left fun s _ => segment_ofSegment s).trans (List.map_id segments)

theorem map_modifyHead (combinator : Option Combinator) (links : List Link) :
    (links.modifyHead (·.behind combinator)).map segment =
      (links.map segment).modifyHead (·.behind combinator) := by
  cases links <;> rfl

theorem textWith_ofSegment (s : Segment) : (ofSegment s).textWith ['&'] = segmentText s := by
  obtain ⟨combinator, compound⟩ := s
  rw [textWith, ofSegment, partsWith_ampersand, ← text_compound]
  cases combinator with
  | none => rfl
  | some combinator => cases combinator <;> simp [leadText, segmentText]

end Link

/-- The text of links in a row. -/
def chainWith (outer : List Char) : List Link → List Char
  | [] => []
  | first :: later => first.textWith outer ++ later.flatMap fun l => ' ' :: l.textWith outer

section
variable {outer : List Char} {links others : List Link}

theorem chainWith_append (h : links ≠ []) (h' : others ≠ []) :
    chainWith outer (links ++ others) = chainWith outer links ++ ' ' :: chainWith outer others := by
  obtain ⟨first, later, rfl⟩ := List.exists_cons_of_ne_nil h
  obtain ⟨second, more, rfl⟩ := List.exists_cons_of_ne_nil h'
  simp [chainWith]

/-- What the last compound has more comes at the end. -/
theorem chainWith_concat {combinator : Option Combinator} {xs ys : List SimpleSelector}
    {more : List Char} (h : partsWith outer xs = partsWith outer ys ++ more) :
    chainWith outer (links ++ [⟨combinator, xs⟩]) =
      chainWith outer (links ++ [⟨combinator, ys⟩]) ++ more := by
  cases links with
  | nil => simp [chainWith, Link.textWith, h]
  | cons first later => simp [chainWith, Link.textWith, h]

/-- A combinator in front of the first compound comes at the front, if there is no other. -/
theorem chainWith_modifyHead {combinator : Option Combinator} (hne : links ≠ [])
    (h : combinator = none ∨ ∀ first ∈ links.head?, first.combinator = none) :
    chainWith outer (links.modifyHead (·.behind combinator)) =
      leadText combinator ++ chainWith outer links := by
  obtain ⟨first, later, rfl⟩ := List.exists_cons_of_ne_nil hne
  have hfirst : (first.behind combinator).textWith outer =
      leadText combinator ++ first.textWith outer := by
    rcases h with rfl | h
    · rfl
    · rw [Link.textWith, Link.textWith, Link.behind, h first rfl, Option.or_none]
      rfl
  rw [List.modifyHead_cons, chainWith, chainWith, hfirst, List.append_assoc]

end

namespace Selector

/-- The text of a selector, with `outer` for each `&`. -/
def textWith (outer : List Char) (s : Selector) : List Char :=
  chainWith outer (s.segments.map Link.ofSegment)

/-- The text can be written for the selector, if in its compounds parts may repeat. -/
def IsWrittenAs (s : Selector) (cs : List Char) : Prop :=
  ∃ links : List Link, s.segments = links.map Link.segment ∧ cs = chainWith ['&'] links

/-- With `&` for itself, it is the text of the selector. -/
theorem textWith_ampersand {s : Selector} (h : IsChain s.segments) :
    s.textWith ['&'] = s.text.toList := by
  obtain ⟨segments⟩ := s
  cases segments with
  | nil => exact absurd rfl h.nonempty
  | cons first later =>
      rw [text_chain h, textWith, List.map_cons, chainWith, Link.textWith_ofSegment, List.flatMap_map,
        joinedText]
      simp only [Link.textWith_ofSegment]

/-! ## One reference -/

/-- The name that stands last in the selector can have the suffix added. -/
def Takes (p : Selector) (suffix : String) : Prop :=
  ∃ last ∈ p.segments.getLast?, ∃ parts, last.compound.replacement? (some suffix) = some parts

/-- Nothing is lost between the combinator in front of an `&` in `s` and the front of `p`. -/
def LeadsInto (p s : Selector) : Prop :=
  (∀ first ∈ p.segments.head?, first.combinator = none) ∨
    ∀ a ∈ s.segments, a.compound.hasParent = true → a.combinator = none

end Selector

namespace Compound

variable {c parent : Compound} {suffix : Option String} {parts : List SimpleSelector}

theorem partsWith_replacement? {outer : List Char} (h : c.replacement? suffix = some parts) :
    partsWith outer parts = partsWith outer c.parts ++ (suffix.getD "").toList := by
  cases suffix with
  | none =>
      obtain rfl := Option.some.inj h
      exact (List.append_nil _).symm
  | some suffix =>
      obtain ⟨front, last, last', hfront, hsuffix, rfl⟩ := replacement?_some_iff.mp h
      rw [hfront]
      simp [partsWith, SimpleSelector.textWith_withSuffix? hsuffix]

/-- In a compound with an `&`, this is the first part, and the others are none. -/
theorem IsReadable.exists_parent (h : c.IsReadable) (hparent : c.hasParent = true) :
    ∃ suffix others, c.parts = .parent suffix :: others ∧ ∀ x ∈ others, x.isParent = false := by
  have hfirst := h.parentFirst
  obtain ⟨x, hx, hreference⟩ := List.any_eq_true.mp hparent
  cases hparts : c.parts with
  | nil => exact absurd (hparts ▸ hx) List.not_mem_nil
  | cons first others =>
      rw [hparts] at hfirst hx
      rcases List.mem_cons.mp hx with rfl | hx
      · cases x with
        | parent suffix => exact ⟨suffix, others, rfl, hfirst⟩
        | _ => cases hreference
      · exact absurd hreference (by rw [hfirst x hx]; decide)

/-- What stands in for the `&` comes before the other parts. -/
theorem substituteParent_eq_ok_iff {others : List SimpleSelector} {r : Compound}
    (hparts : c.parts = .parent suffix :: others) (hothers : ∀ x ∈ others, x.isParent = false) :
    c.substituteParent parent = .ok r ↔
      ∃ parts, parent.replacement? suffix = some parts ∧ r = .ofList (parts ++ others) := by
  have hflatten : (others.map fun x => [x]).flatten = others := by
    rw [← List.flatMap_def, List.flatMap_singleton']
  have hanswer : ∀ {parts : List SimpleSelector},
      (Except.ok (ofList (parts ++ others)) : Except String Compound) = .ok r ↔
        ∃ parts', some parts = some parts' ∧ r = .ofList (parts' ++ others) := by
    intro parts
    simp [eq_comm]
  rw [substituteParent, hparts, List.mapM_cons, mapM_eq_ok_of_forall (g := fun x => [x])]
  · -- a suffix needs a last part of the parent that it can be appended to
    cases suffix with
    | none =>
        show Except.ok (ofList (parent.parts ++ (others.map fun x => [x]).flatten)) = .ok r ↔ _
        rw [hflatten, hanswer]
        rfl
    | some suffix =>
        dsimp only
        rw [replacement?]
        cases hlast : parent.parts.getLast?.bind (SimpleSelector.withSuffix? suffix) with
        | none =>
            refine iff_of_false (fun h => ?_) fun h => ?_
            · cases h
            · obtain ⟨_, h, -⟩ := h
              cases h
        | some last =>
            show Except.ok (ofList (parent.parts.dropLast ++ [last] ++
              (others.map fun x => [x]).flatten)) = .ok r ↔ _
            rw [hflatten, hanswer]
            rfl
  · intro x hx
    have hx := hothers x hx
    cases x with
    | parent suffix => cases hx
    | _ => rfl

end Compound

namespace Selector

variable {s p t : Selector} {a : Segment}

/-- What stands in for an `&` is written as the parent is, with the suffix and the other parts behind. -/
theorem chainWith_replacement {front : List Segment} {last : Segment} {suffix : Option String}
    {parts others : List SimpleSelector} (hsegments : p.segments = front ++ [last])
    (hreplacement : last.compound.replacement? suffix = some parts)
    (hothers : ∀ x ∈ others, x.isParent = false) :
    chainWith ['&'] (front.map Link.ofSegment ++ [⟨last.combinator, parts ++ others⟩]) =
      p.textWith ['&'] ++ ((suffix.getD "").toList ++ partsText others) := by
  have hlast : partsWith ['&'] (parts ++ others) = partsWith ['&'] last.compound.parts ++
      ((suffix.getD "").toList ++ partsText others) := by
    rw [partsWith_append, Compound.partsWith_replacement? hreplacement,
      partsWith_of_isParent hothers, List.append_assoc]
  rw [chainWith_concat hlast, textWith, hsegments, List.map_append]
  rfl

/-- **What a segment becomes is written as the segment is**, with the text of the parent for its `&`. -/
theorem of_substitute {pieces : List Segment} (ha : a.compound.IsReadable) (hp : p.segments ≠ [])
    (hlead : a.compound.hasParent = true →
      a.combinator = none ∨ ∀ first ∈ p.segments.head?, first.combinator = none)
    (h : substitute p a = .ok pieces) : ∃ links : List Link, links ≠ [] ∧
      pieces = links.map Link.segment ∧
      chainWith ['&'] links = (Link.ofSegment a).textWith (p.textWith ['&']) := by
  by_cases hparent : a.compound.hasParent = true
  · obtain ⟨suffix, others, hparts, hothers⟩ := ha.exists_parent hparent
    obtain ⟨front, last, hsegments⟩ := (List.eq_nil_or_concat' p.segments).resolve_left hp
    obtain ⟨compound, hcompound, rfl⟩ := (substitute_eq_ok_iff hparent hsegments).mp h
    obtain ⟨parts, hreplacement, rfl⟩ := (Compound.substituteParent_eq_ok_iff hparts hothers).mp hcompound
    -- the first link is that of the parent, or the last one if there is no other
    have hfirst : a.combinator = none ∨ ∀ first ∈ (front.map Link.ofSegment ++
        [Link.mk last.combinator (parts ++ others)]).head?, first.combinator = none := by
      refine (hlead hparent).imp_right fun hlead => ?_
      rw [hsegments] at hlead
      cases front with
      | nil => simpa using hlead
      | cons first middle => simpa [Link.ofSegment] using hlead
    refine ⟨(front.map Link.ofSegment ++ [Link.mk last.combinator (parts ++ others)]).modifyHead
      (·.behind a.combinator), by simp, ?_, ?_⟩
    · rw [Link.map_modifyHead, List.map_append, Link.map_ofSegment]
      rfl
    · rw [chainWith_modifyHead (List.concat_ne_nil _ _) hfirst,
        chainWith_replacement hsegments hreplacement hothers, Link.textWith, Link.ofSegment, hparts]
      show _ = leadText a.combinator ++ ((p.textWith ['&'] ++ (suffix.getD "").toList) ++
        partsWith (p.textWith ['&']) others)
      rw [partsWith_of_isParent hothers, List.append_assoc]
  · -- there is nothing to replace
    have hfree : ∀ x ∈ a.compound.parts, x.isParent = false := fun x hx =>
      isParent_of_hasParent_eq_false (by simpa using hparent) hx
    obtain rfl := Except.ok.inj (substitute_of_noParent (by simpa using hparent) ▸ h)
    refine ⟨[.ofSegment a], List.cons_ne_nil _ _, ?_, ?_⟩
    · rw [List.map_singleton, Link.segment_ofSegment]
    · rw [Link.textWith, Link.ofSegment, partsWith_of_isParent hfree, ← partsWith_of_isParent hfree]
      exact List.append_nil _

/-- A segment can be replaced if the parent takes the suffix of its `&`. -/
theorem exists_substitute (ha : a.compound.IsReadable) (hp : p.segments ≠ [])
    (htakes : ∀ suffix, .parent (some suffix) ∈ a.compound.parts → p.Takes suffix) :
    ∃ pieces, substitute p a = .ok pieces := by
  by_cases hparent : a.compound.hasParent = true
  · obtain ⟨suffix, others, hparts, hothers⟩ := ha.exists_parent hparent
    obtain ⟨front, last, hsegments⟩ := (List.eq_nil_or_concat' p.segments).resolve_left hp
    obtain ⟨parts, hreplacement⟩ : ∃ parts, last.compound.replacement? suffix = some parts := by
      cases suffix with
      | none => exact ⟨_, rfl⟩
      | some suffix =>
          obtain ⟨last', hlast, htakes⟩ := htakes suffix (hparts ▸ List.mem_cons_self)
          rw [hsegments, List.getLast?_concat] at hlast
          exact Option.some.inj hlast ▸ htakes
    have hcompound := (Compound.substituteParent_eq_ok_iff hparts hothers).mpr ⟨parts, hreplacement, rfl⟩
    exact ⟨_, (substitute_eq_ok_iff hparent hsegments).mpr ⟨_, hcompound, rfl⟩⟩
  · exact ⟨[a], substitute_of_noParent (by simpa using hparent)⟩

/-! ## All references -/

theorem of_substitutes {segments : List Segment} {pieces : List (List Segment)}
    (hsegments : ∀ a ∈ segments, a.compound.IsReadable) (hp : p.segments ≠ [])
    (hlead : ∀ a ∈ segments, a.compound.hasParent = true →
      a.combinator = none ∨ ∀ first ∈ p.segments.head?, first.combinator = none)
    (h : List.Forall₂ (fun a piece => substitute p a = .ok piece) segments pieces) :
    ∃ links : List Link, (links = [] ↔ segments = []) ∧ pieces.flatten = links.map Link.segment ∧
      chainWith ['&'] links = chainWith (p.textWith ['&']) (segments.map Link.ofSegment) := by
  -- a space stands between what becomes of one segment and of the next, as it stood between these
  induction h with
  | nil => exact ⟨[], by simp, rfl, rfl⟩
  | @cons a piece segments pieces hpiece hrest ih =>
      obtain ⟨ha, hsegments⟩ := List.forall_mem_cons.mp hsegments
      obtain ⟨hleada, hlead⟩ := List.forall_mem_cons.mp hlead
      obtain ⟨links, hne, rfl, htext⟩ := of_substitute ha hp hleada hpiece
      obtain ⟨later, hlater, hflatten, htexts⟩ := ih hsegments hlead
      refine ⟨links ++ later, by simp [hne], by rw [List.flatten_cons, hflatten, List.map_append], ?_⟩
      cases segments with
      | nil =>
          obtain rfl := hlater.mpr rfl
          rw [List.append_nil, htext]
          exact (List.append_nil _).symm
      | cons second segments =>
          have hsecond : later ≠ [] := fun hnil => List.cons_ne_nil _ _ (hlater.mp hnil)
          rw [chainWith_append hne hsecond, htext, htexts]
          rfl

/-- A space in front of the first compound is not written. -/
theorem IsWrittenAs.withoutLeadingSpace {segments : List Segment} {cs : List Char}
    (h : IsWrittenAs ⟨segments⟩ cs) : IsWrittenAs ⟨withoutLeadingSpace segments⟩ cs := by
  obtain ⟨links, hsegments, hcs⟩ := h
  obtain rfl : segments = links.map Link.segment := hsegments
  unfold Selector.withoutLeadingSpace
  split
  next hfront =>
    cases links with
    | nil => cases hfront
    | cons first later =>
        obtain ⟨hfirst, rfl⟩ := List.cons.inj hfront
        obtain ⟨hcombinator, rfl⟩ := Segment.mk.inj hfirst
        refine ⟨⟨none, first.parts⟩ :: later, rfl, ?_⟩
        rw [hcs, chainWith, chainWith, Link.textWith, Link.textWith, hcombinator]
        rfl
  · exact ⟨links, rfl, hcs⟩

/-- **A selector with `&` becomes what is written as the text of the selector is**, with the text of the
parent for each `&`. -/
theorem isWrittenAs_resolve (hs : s.AllCompounds Compound.IsReadable) (hparent : s.hasParent = true)
    (hp : IsChain p.segments) (hlead : p.LeadsInto s) (h : s.resolve p = .ok t) :
    t.IsWrittenAs (s.textWith p.text.toList) := by
  rw [resolve, if_neg (by simp [hparent])] at h
  obtain ⟨pieces, hpieces, h⟩ := bind_eq_ok_iff.mp h
  obtain rfl := Except.ok.inj h
  obtain ⟨links, -, hflatten, htext⟩ := of_substitutes hs hp.nonempty
    (fun a ha hparent => hlead.symm.imp_left fun hnone => hnone a ha hparent) (mapM_eq_ok_iff.mp hpieces)
  refine IsWrittenAs.withoutLeadingSpace ⟨links, hflatten, ?_⟩
  rw [htext, textWith_ampersand hp]
  rfl

/-- Without `&`, a selector is written behind the parent. -/
theorem text_below (hs : IsChain s.segments) (hp : IsChain p.segments) :
    (s.below p).text.toList = p.text.toList ++ ' ' :: s.text.toList := by
  have hbelow := isChain_below hs hp
  obtain ⟨front⟩ := p
  obtain ⟨segments⟩ := s
  cases front with
  | nil => exact absurd rfl hp.nonempty
  | cons own front =>
      cases segments with
      | nil => exact absurd rfl hs.nonempty
      | cons first later =>
          have hfirst : segmentText { first with combinator := some (first.combinator.getD .descendant) } =
              segmentText first := by
            obtain ⟨combinator, compound⟩ := first
            cases combinator <;> rfl
          have hsegments : ((Selector.mk (first :: later)).below ⟨own :: front⟩).segments =
              own :: (front ++ { first with combinator := some (first.combinator.getD .descendant) } ::
                later) := rfl
          rw [hsegments] at hbelow
          rw [text_chain hp, text_chain hs]
          refine (text_chain hbelow).trans ?_
          rw [joinedText, List.flatMap_append, List.flatMap_cons, hfirst]
          simp [joinedText]

theorem exists_resolve (hs : s.AllCompounds Compound.IsReadable) (hp : p.segments ≠ [])
    (htakes : ∀ suffix, .parent (some suffix) ∈ s.simples → p.Takes suffix) :
    ∃ t, s.resolve p = .ok t := by
  by_cases hparent : s.hasParent = true
  · obtain ⟨pieces, hpieces⟩ : ∃ pieces, s.segments.mapM (substitute p) = .ok pieces := by
      refine exists_mapM_eq_ok fun a ha => exists_substitute (hs a ha) hp fun suffix hsuffix => ?_
      exact htakes suffix (mem_simplesOf.mpr ⟨a, ha, hsuffix⟩)
    rw [resolve, if_neg (by simp [hparent]), hpieces]
    exact ⟨_, rfl⟩
  · exact ⟨_, if_pos (by simpa using hparent)⟩

end Selector

end Scss
