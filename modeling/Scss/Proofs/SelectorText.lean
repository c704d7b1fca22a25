import Scss.Proofs.CompoundText

/-!
# Selectors are read back as they are written

A selector is written segment by segment, and a list of selectors with commas between them. Compounds
that can be read end in front of a space, combinators are signs of their own, and no comma stands
anywhere else: so each segment is found again, and each selector of a list.
-/

namespace Scss

open Text

namespace Selector

/-! ## Chains -/

variable {behind : List Char}

/-- The text of a segment, without the space in front of it. -/
def segmentText (s : Segment) : List Char :=
  match s.combinator with
  | none | some .descendant => s.compound.text.toList
  | some combinator => combinator.sign.toList ++ ' ' :: s.compound.text.toList

def joinedText (later : List Segment) : List Char := later.flatMap fun s => ' ' :: segmentText s

theorem text_chain {first : Segment} {later : List Segment} (h : IsChain (first :: later)) :
    (Selector.mk (first :: later)).text.toList = segmentText first ++ joinedText later := by
  have hlater : ∀ s : Segment, ((s.combinator.getD .descendant).text ++ s.compound.text).toList =
      ' ' :: segmentText s := by
    rintro ⟨combinator, compound⟩
    cases combinator with
    | none => simp [Combinator.text, segmentText]
    | some combinator =>
        cases combinator <;> simp [Combinator.text, Combinator.sign, segmentText]
  have hfront : first.combinator ≠ some .descendant := h.front first rfl
  show ((match first.combinator with
    | none => first.compound.text
    | some .descendant => " " ++ first.compound.text
    | some c => c.sign ++ " " ++ first.compound.text) ++ String.join (later.map fun s =>
      (s.combinator.getD .descendant).text ++ s.compound.text)).toList = _
  rw [String.toList_append, String.toList_join, List.flatMap_map, joinedText]
  simp only [hlater]
  congr 1
  obtain ⟨combinator, compound⟩ := first
  cases combinator with
  | none => rfl
  | some combinator =>
      cases combinator with
      | descendant => exact absurd rfl hfront
      | child | adjacent | sibling => simp [segmentText]

theorem joinedText_cons (s : Segment) (later : List Segment) :
    joinedText (s :: later) = ' ' :: (segmentText s ++ joinedText later) := rfl

theorem atSpace_joinedText (later : List Segment) : AtSpace (joinedText later) := by
  intro d hd
  cases later with
  | nil => cases hd
  | cons s later => exact (Option.some.inj hd).symm

theorem exists_sign {combinator : Combinator} (h : combinator ≠ .descendant) :
    ∃ c, combinator.sign.toList = [c] ∧ combinatorOf? c = some combinator ∧ IsPlain c ∧
      isBlank c = false := by
  cases combinator with
  | descendant => exact absurd rfl h
  | child => exact ⟨'>', rfl, rfl, by decide, by decide⟩
  | adjacent => exact ⟨'+', rfl, rfl, by decide, by decide⟩
  | sibling => exact ⟨'~', rfl, rfl, by decide, by decide⟩

/-- A segment is written as its compound, or as a sign, a space and its compound. -/
theorem segmentText_cases (s : Segment) :
    ((s.combinator = none ∨ s.combinator = some .descendant) ∧
      segmentText s = s.compound.text.toList) ∨
    ∃ combinator c, combinator ≠ .descendant ∧ s.combinator = some combinator ∧
      combinatorOf? c = some combinator ∧ IsPlain c ∧ isBlank c = false ∧
      segmentText s = c :: ' ' :: s.compound.text.toList := by
  obtain ⟨combinator, compound⟩ := s
  by_cases hsign : combinator = none ∨ combinator = some .descendant
  · refine .inl ⟨hsign, ?_⟩
    rcases hsign with rfl | rfl <;> rfl
  · obtain ⟨combinator, rfl⟩ : ∃ sign, combinator = some sign :=
      Option.ne_none_iff_exists'.mp fun hnone => hsign (Or.inl hnone)
    have hdescendant : combinator ≠ .descendant := fun heq => hsign (Or.inr (congrArg some heq))
    obtain ⟨c, hc, hof, hplain, hblank⟩ := exists_sign hdescendant
    refine .inr ⟨combinator, c, hdescendant, rfl, hof, hplain, hblank, ?_⟩
    have hwritten : segmentText ⟨some combinator, compound⟩ =
        combinator.sign.toList ++ ' ' :: compound.text.toList := by
      cases combinator with
      | descendant => exact absurd rfl hdescendant
      | child | adjacent | sibling => rfl
    rw [hwritten, hc]
    rfl

theorem combinatorOf?_eq_none {c : Char} (h : endsCompound c = false) : combinatorOf? c = none := by
  simp only [endsCompound, Bool.or_eq_false_iff, beq_eq_false_iff_ne] at h
  simp [combinatorOf?, h]

end Selector

/-- What is read of the text of the segment. -/
def Segment.asRead (s : Segment) : Segment := ⟨s.combinator, s.compound.asRead⟩

namespace Selector

variable {behind : List Char} {s : Segment}

theorem isTrimmed_segmentText (h : s.compound.IsLegible) : IsTrimmed (segmentText s) := by
  rcases segmentText_cases s with ⟨-, htext⟩ | ⟨-, c, -, -, -, -, hblank, htext⟩
  · exact htext ▸ h.isTrimmed
  · exact htext ▸ (IsTrimmed.singleton hblank).append [' '] h.isTrimmed

theorem isPiece_segmentText (h : s.compound.IsLegible) : IsPiece (segmentText s) := by
  rcases segmentText_cases s with ⟨-, htext⟩ | ⟨-, c, -, -, -, hplain, -, htext⟩
  · exact htext ▸ h.isPiece
  · exact htext ▸ (h.isPiece.cons (c := ' ') (by decide)).cons hplain

theorem readSegments_compound (h : s.compound.IsLegible) (hbehind : AtSpace behind)
    (fuel : Nat) (segments : List Segment) (pending : Option Combinator) :
    readSegments (fuel + 1) segments pending (s.compound.text.toList ++ behind) =
      readSegments fuel
        (segments ++ [⟨segmentCombinator segments.isEmpty pending, s.compound.asRead⟩])
        (if behind.head?.any isBlank then some .descendant else none) (dropBlanks behind) := by
  obtain ⟨c, rest, htext, hends⟩ := h.exists_front
  have hread := readCompound_text h hbehind
  rw [htext, List.cons_append] at hread ⊢
  rw [readSegments, combinatorOf?_eq_none hends, hread]
  rfl

/-- What is read behind `segments` goes on with `s`, if `pending` is what the space behind them stands
for. -/
structure Joins (segments : List Segment) (pending : Option Combinator) (s : Segment) : Prop where
  pending : pending = if segments.isEmpty then none else some .descendant
  front : segments.isEmpty = true → s.combinator ≠ some .descendant
  joined : segments.isEmpty = false → s.combinator.isSome = true

theorem Joins.segmentCombinator_eq {segments : List Segment} {pending : Option Combinator}
    (h : Joins segments pending s) (hsign : s.combinator = none ∨ s.combinator = some .descendant) :
    segmentCombinator segments.isEmpty pending = s.combinator := by
  have hjoined := h.joined
  have hfront := h.front
  rw [h.pending]
  cases hempty : segments.isEmpty with
  | true =>
      rcases hsign with hnone | hspace
      · rw [hnone]
        rfl
      · exact absurd hspace (hfront hempty)
  | false =>
      rcases hsign with hnone | hspace
      · rw [hnone] at hjoined
        cases hjoined hempty
      · rw [hspace]
        rfl

theorem readSegments_segment (h : s.compound.IsLegible) (hbehind : AtSpace behind)
    {segments : List Segment} {pending : Option Combinator} (hjoins : Joins segments pending s)
    {fuel : Nat} (hfuel : (segmentText s ++ behind).length ≤ fuel) :
    ∃ fuel', behind.length ≤ fuel' ∧ readSegments fuel segments pending (segmentText s ++ behind) =
      readSegments fuel' (segments ++ [s.asRead])
        (if behind.head?.any isBlank then some .descendant else none) (dropBlanks behind) := by
  have hlength : 0 < s.compound.text.toList.length := List.length_pos_of_ne_nil h.isTrimmed.nonempty
  rw [List.length_append] at hfuel
  rcases segmentText_cases s with ⟨hsign, htext⟩ | ⟨combinator, d, hdescendant, hsome, hof, -, -, htext⟩
  · rw [htext] at hfuel ⊢
    obtain ⟨fuel, rfl⟩ : ∃ f, fuel = f + 1 := ⟨fuel - 1, by omega⟩
    refine ⟨fuel, by omega, ?_⟩
    rw [readSegments_compound h hbehind, hjoins.segmentCombinator_eq hsign]
    rfl
  · -- first the sign is read, then the space is skipped
    rw [htext, List.length_cons, List.length_cons] at hfuel
    obtain ⟨fuel, rfl⟩ : ∃ f, fuel = f + 2 := ⟨fuel - 2, by omega⟩
    have hpending : pending.any (· != .descendant) = false := by
      rw [hjoins.pending]
      split <;> rfl
    have hcombinator : segmentCombinator segments.isEmpty (some combinator) = some combinator := by
      cases segments.isEmpty with
      | true => simp [segmentCombinator, hdescendant]
      | false => rfl
    have hblanks : dropBlanks (' ' :: (s.compound.text.toList ++ behind)) =
        s.compound.text.toList ++ behind := h.isTrimmed.dropBlanks_append behind
    refine ⟨fuel, by omega, ?_⟩
    rw [htext, List.cons_append, readSegments, hof]
    dsimp only
    rw [hpending, if_neg (by decide), List.cons_append, hblanks, readSegments_compound h hbehind,
      hcombinator, Segment.asRead, hsome]

theorem readSegments_later {later : List Segment} (hlegible : ∀ s ∈ later, s.compound.IsLegible)
    (hjoined : ∀ s ∈ later, s.combinator.isSome = true) {segments : List Segment}
    (hne : segments ≠ []) {fuel : Nat} (hfuel : (joinedText later).length ≤ fuel) :
    readSegments fuel segments
      (if (joinedText later).head?.any isBlank then some .descendant else none)
      (dropBlanks (joinedText later)) = .ok (segments ++ later.map Segment.asRead) := by
  induction later generalizing segments fuel with
  | nil =>
      have hempty : segments.isEmpty = false := by simpa using hne
      cases fuel with
      | zero => simp [joinedText, readSegments, hempty]
      | succ fuel => simp [joinedText, dropBlanks, readSegments, hempty]
  | cons s later ih =>
      obtain ⟨hs, hlegible⟩ := List.forall_mem_cons.mp hlegible
      obtain ⟨hcombinator, hjoined⟩ := List.forall_mem_cons.mp hjoined
      have hempty : segments.isEmpty = false := by simpa using hne
      have hjoins : Joins segments (some .descendant) s :=
        ⟨by rw [hempty]; rfl, fun h => absurd h (by rw [hempty]; decide), fun _ => hcombinator⟩
      have hblanks : dropBlanks (joinedText (s :: later)) = segmentText s ++ joinedText later :=
        (isTrimmed_segmentText hs).dropBlanks_append _
      rw [joinedText_cons, List.length_cons] at hfuel
      obtain ⟨fuel', hfuel', hstep⟩ :=
        readSegments_segment hs (atSpace_joinedText later) hjoins (Nat.le_of_succ_le hfuel)
      rw [hblanks]
      show readSegments fuel segments (some .descendant) (segmentText s ++ joinedText later) = _
      rw [hstep, ih hlegible hjoined (List.concat_ne_nil _ _) hfuel', List.append_assoc]
      rfl

/-! ## Selectors -/

/-- A chain of compounds that can be read. -/
structure IsLegible (s : Selector) : Prop where
  chain : IsChain s.segments
  legible : s.AllCompounds Compound.IsLegible

instance (s : Selector) : Decidable s.IsLegible :=
  decidable_of_iff (IsChain s.segments ∧ s.AllCompounds Compound.IsLegible)
    ⟨fun h => ⟨h.1, h.2⟩, fun h => ⟨h.chain, h.legible⟩⟩

/-- What is read of the text of the selector. -/
def asRead (s : Selector) : Selector := ⟨s.segments.map Segment.asRead⟩

namespace IsLegible

variable {s : Selector}

/-- **What is read of a selector.** -/
theorem ofChars_text (h : s.IsLegible) : ofChars s.text.toList = .ok s.asRead := by
  obtain ⟨segments⟩ := s
  cases segments with
  | nil => exact absurd rfl h.chain.nonempty
  | cons first later =>
      obtain ⟨hfirst, hlater⟩ := List.forall_mem_cons.mp h.legible
      have hjoins : Joins [] none first := ⟨rfl, fun _ => h.chain.front first rfl, nofun⟩
      obtain ⟨fuel', hfuel', hstep⟩ := readSegments_segment hfirst (atSpace_joinedText later) hjoins
        (Nat.le_succ (segmentText first ++ joinedText later).length)
      rw [ofChars, text_chain h.chain, (isTrimmed_segmentText hfirst).dropBlanks_append, hstep,
        readSegments_later hlater h.chain.joined (List.concat_ne_nil _ _) hfuel']
      rfl

/-- The text of the selector, built up segment by segment. -/
theorem text_induction {motive : List Char → Prop} (h : s.IsLegible)
    (segment : ∀ a ∈ s.segments, a.compound.IsLegible → motive (segmentText a))
    (join : ∀ cs ds, motive cs → motive ds → motive (cs ++ ' ' :: ds)) : motive s.text.toList := by
  obtain ⟨segments⟩ := s
  cases segments with
  | nil => exact absurd rfl h.chain.nonempty
  | cons first later =>
      rw [text_chain h.chain]
      obtain ⟨hfirst, hlater⟩ := List.forall_mem_cons.mp h.legible
      have hfront := segment first List.mem_cons_self hfirst
      have hsegments : ∀ a ∈ later, motive (segmentText a) := fun a ha =>
        segment a (List.mem_cons_of_mem first ha) (hlater a ha)
      generalize segmentText first = front at hfront
      clear h segment hlater
      induction later generalizing front with
      | nil => simpa [joinedText] using hfront
      | cons s later ih =>
          obtain ⟨hs, hlater⟩ := List.forall_mem_cons.mp hsegments
          have hmore := ih hlater _ (join front _ hfront hs)
          simpa [joinedText_cons] using hmore

theorem isTrimmed (h : s.IsLegible) : IsTrimmed s.text.toList :=
  h.text_induction (fun _ _ => isTrimmed_segmentText) fun _ _ hcs hds => hcs.append [' '] hds

theorem isPiece (h : s.IsLegible) : IsPiece s.text.toList :=
  h.text_induction (fun _ _ => isPiece_segmentText) fun _ _ hcs hds =>
    hcs.append (hds.cons (by decide))

end IsLegible

theorem asRead_eq_iff (s : Selector) :
    s.asRead = s ↔ s.AllCompounds fun c => c.joinsPlaceholder = false := by
  obtain ⟨segments⟩ := s
  have hsegment : ∀ a : Segment, a.asRead = a ↔ a.compound.joinsPlaceholder = false := by
    rintro ⟨combinator, compound⟩
    rw [Segment.asRead, Segment.mk.injEq, Compound.asRead_eq_iff]
    simp
  show Selector.mk (segments.map Segment.asRead) = ⟨segments⟩ ↔
    ∀ a ∈ segments, a.compound.joinsPlaceholder = false
  rw [Selector.mk.injEq]
  induction segments with
  | nil => simp
  | cons a segments ih => simp [hsegment, ih]

/-! ## Lists of selectors -/

/-- A piece goes to the front of the first piece of what follows. -/
theorem splitList_append {front rest piece : List Char} {pieces : List (List Char)}
    (hfront : IsPiece front) (h : splitList none 0 rest = piece :: pieces) :
    splitList none 0 (front ++ rest) = (front ++ piece) :: pieces := by
  have hdepth : ∀ (cs : List Char) (depth : Int), (∀ c ∈ cs, quoteAfter none c = none ∧ c ≠ ',') →
      splitList none (depth + (cs.map bracketStep).sum) rest = piece :: pieces →
        splitList none depth (cs ++ rest) = (cs ++ piece) :: pieces := by
    intro cs
    induction cs with
    | nil => exact fun depth _ h => by simpa using h
    | cons c cs ih =>
        intro depth hcs h
        obtain ⟨⟨hquote, hcomma⟩, hcs⟩ := List.forall_mem_cons.mp hcs
        rw [List.map_cons, List.sum_cons, ← add_assoc] at h
        rw [List.cons_append, splitList, if_neg (by simp [hcomma])]
        dsimp only
        rw [hquote, Option.isNone_none, if_pos rfl, ih _ hcs h]
        rfl
  exact hdepth front 0 hfront.chars (by rw [hfront.level]; exact h)

/-- A list is cut at the commas between its pieces. -/
theorem splitList_flatMap {piece : List Char} {others : List (List Char)} (hpiece : IsPiece piece)
    (hothers : ∀ p ∈ others, IsPiece p) :
    splitList none 0 (piece ++ others.flatMap (',' :: ·)) = piece :: others := by
  induction others generalizing piece with
  | nil =>
      have hend : splitList none 0 [] = [[]] := rfl
      simpa using splitList_append hpiece hend
  | cons next others ih =>
      obtain ⟨hnext, hothers⟩ := List.forall_mem_cons.mp hothers
      have hcomma : splitList none 0 (',' :: (next ++ others.flatMap (',' :: ·))) =
          [] :: next :: others := by
        rw [splitList, if_pos (by simp), ih hnext hothers]
      simpa using splitList_append hpiece hcomma

theorem listText_cons (s : Selector) (others : List Selector) : (listText (s :: others)).toList =
    s.text.toList ++ (others.map fun t => ' ' :: t.text.toList).flatMap (',' :: ·) := by
  rw [listText, List.map_cons, toList_intercalate_cons]
  simp [List.flatMap_map]

/-- A piece of a list is read without the blanks around it. -/
theorem readPiece_eq {piece cs : List Char} (htrim : dropBlanksEnd (dropBlanks piece) = cs)
    (hne : cs ≠ []) (text : String) (position : Position) :
    (let trimmed := dropBlanksEnd (dropBlanks piece)
    if trimmed.isEmpty then Except.error (Failure.parse position (.selectorList (trim text)))
    else (ofChars trimmed).mapError fun fault =>
      Failure.parse position (.selector fault (String.ofList trimmed))) =
    (ofChars cs).mapError fun fault => .parse position (.selector fault (String.ofList cs)) := by
  dsimp only
  rw [htrim, if_neg (by simpa using hne)]

/-- A piece of a list is read as a selector, with or without a space in front. -/
theorem IsLegible.readPiece {s : Selector} (h : s.IsLegible) {piece : List Char}
    (hpiece : piece = s.text.toList ∨ piece = ' ' :: s.text.toList) (text : String)
    (position : Position) :
    (let trimmed := dropBlanksEnd (dropBlanks piece)
    if trimmed.isEmpty then Except.error (Failure.parse position (.selectorList (trim text)))
    else (ofChars trimmed).mapError fun fault =>
      Failure.parse position (.selector fault (String.ofList trimmed))) = .ok s.asRead := by
  have htrimmed := h.isTrimmed
  have hdrop : dropBlanksEnd (dropBlanks piece) = s.text.toList := by
    rcases hpiece with rfl | rfl
    · rw [htrimmed.dropBlanks_eq, htrimmed.dropBlanksEnd_eq]
    · show dropBlanksEnd (dropBlanks s.text.toList) = _
      rw [htrimmed.dropBlanks_eq, htrimmed.dropBlanksEnd_eq]
  rw [readPiece_eq hdrop htrimmed.nonempty, h.ofChars_text]
  rfl

variable {selectors : List Selector}

/-- What is read of a list of selectors. -/
theorem readList_listText (h : ∀ s ∈ selectors, s.IsLegible) (hne : selectors ≠ [])
    (position : Position) :
    readList (listText selectors) position = .ok (selectors.map asRead) := by
  obtain ⟨s, others, rfl⟩ := List.exists_cons_of_ne_nil hne
  obtain ⟨hs, hothers⟩ := List.forall_mem_cons.mp h
  have hpieces : ∀ p ∈ others.map fun t => ' ' :: t.text.toList, IsPiece p := by
    intro p hp
    obtain ⟨t, ht, rfl⟩ := List.mem_map.mp hp
    exact (hothers t ht).isPiece.cons (by decide)
  rw [readList, mapM_eq_ok_iff, listText_cons, splitList_flatMap hs.isPiece hpieces, List.map_cons]
  refine .cons (hs.readPiece (Or.inl rfl) _ position) ?_
  rw [List.forall₂_map_left_iff, List.forall₂_map_right_iff, List.forall₂_same]
  exact fun t ht => (hothers t ht).readPiece (Or.inr rfl) _ position

/-- **Selectors are read back as they are written**, but for the placeholders right behind the name of
an element. Take any list of selectors, not empty, in which every compound is made of parts that
can be read, only the first of them testing the element. Its text is read without a fault, as
`selectors.map asRead`, and what is read is the list again exactly if no compound begins with the name
of an element and a placeholder behind it. -/
theorem readList_listText_eq_iff (h : ∀ s ∈ selectors, s.IsLegible) (hne : selectors ≠ [])
    (position : Position) :
    readList (listText selectors) position = .ok (selectors.map asRead) ∧
      (readList (listText selectors) position = .ok selectors ↔
        ∀ s ∈ selectors, s.AllCompounds fun c => c.joinsPlaceholder = false) := by
  have hread := readList_listText h hne position
  refine ⟨hread, ?_⟩
  rw [hread, Except.ok.injEq]
  clear hread h hne
  induction selectors with
  | nil => simp
  | cons s selectors ih => simp [asRead_eq_iff, ih]

/-- `a.b#c%d[e f=g]:h(i j)::k > *%l, .m::n(o)` -/
def everyPart : List Selector :=
  [⟨[⟨none, .ofList [.element "a", .ofClass "b", .id "c", .placeholder "d", .attribute "e f=g",
      .pseudoClass "h" (some "i j"), .pseudoElement "k" none]⟩,
    ⟨some .child, .ofList [.universal, .placeholder "l"]⟩]⟩,
   ⟨[⟨none, .ofList [.ofClass "m", .pseudoElement "n" (some "o")]⟩]⟩]

theorem everyPart_read_back : (∀ s ∈ everyPart, s.IsLegible) ∧ everyPart ≠ [] ∧
    readList (listText everyPart) (.start "input.scss") = .ok everyPart := by
  have hlegible : ∀ s ∈ everyPart, s.IsLegible := by decide
  have hne : everyPart ≠ [] := List.cons_ne_nil _ _
  exact ⟨hlegible, hne, (readList_listText_eq_iff hlegible hne _).2.mpr (by decide)⟩

/-- Of `a%b`, the elements `a%` and `b` are read. -/
theorem placeholderBehindElement_lost :
    readList (listText [⟨[⟨none, .ofList [.element "a", .placeholder "b"]⟩]⟩]) (.start "input.scss") =
        .ok [⟨[⟨none, .ofList [.element "a%", .element "b"]⟩]⟩] ∧
      Compound.ofList [.element "a%", .element "b"] ≠ .ofList [.element "a", .placeholder "b"] := by
  decide

end Selector

end Scss
