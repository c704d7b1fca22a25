import Scss.Proofs.Cutting

/-!
# The text that a selector is read from

Whatever is read as a simple selector is spelled as it is printed, but for blanks at the ends of what
stands in brackets. A selector is read from the spellings of its parts, in which each part may occur
more than once, and from blanks and the signs of combinators.

A name goes on as long as its characters are those of names, and a backslash takes any other character
into it. An `&` gets into a name in this way only; any other is a reference, which begins a compound.
-/

namespace Scss

namespace Text

/-! ## Names -/

/-- A text that is one name throughout. -/
def IsRun (cs : List Char) : Prop := spanName cs = (cs, [])

theorem isRun_spanName (cs : List Char) : IsRun (spanName cs).1 := by
  fun_induction spanName cs with
  | case1 | case2 | case5 => rfl
  | case3 c rest name after hspan ih =>
      rw [hspan] at ih
      show spanName ('\\' :: c :: name) = _
      rw [spanName, ih]
  | case4 c rest _ _ hc name after hspan ih =>
      rw [hspan] at ih
      show spanName (c :: name) = _
      rw [spanName_cons hc, ih]

/-- A character that cannot be in a name by itself is behind a backslash. -/
theorem IsRun.getLast?_eq {cs front behind : List Char} {c : Char} (h : IsRun cs) (hc : EndsName c)
    (hcs : cs = front ++ c :: behind) : front.getLast? = some '\\' := by
  unfold IsRun at h
  fun_induction spanName cs generalizing front with
  | case1 => simp at hcs
  | case2 =>
      have hbackslash : c ∈ ['\\'] := hcs ▸ List.mem_append_right _ List.mem_cons_self
      exact absurd (List.mem_singleton.mp hbackslash) hc.2
  | case3 d rest name after hspan ih =>
      obtain ⟨hname, rfl⟩ := Prod.mk.inj h
      obtain rfl : name = rest := (List.cons.inj (List.cons.inj hname).2).2
      cases front with
      | nil => exact absurd (List.cons.inj hcs).1.symm hc.2
      | cons _ front =>
          cases front with
          | nil => exact congrArg some (List.cons.inj hcs).1.symm
          | cons _ front =>
              have hlast := ih hspan (List.cons.inj (List.cons.inj hcs).2).2
              rw [List.getLast?_cons_of_ne_nil (List.cons_ne_nil _ _),
                List.getLast?_cons_of_ne_nil (by rintro rfl; cases hlast), hlast]
  | case4 d rest _ _ hd name after hspan ih =>
      obtain ⟨hname, rfl⟩ := Prod.mk.inj h
      obtain rfl : name = rest := (List.cons.inj hname).2
      cases front with
      | nil =>
          obtain rfl := (List.cons.inj hcs).1
          exact absurd hd (by rw [hc.1]; decide)
      | cons _ front =>
          have hlast := ih hspan (List.cons.inj hcs).2
          rw [List.getLast?_cons_of_ne_nil (by rintro rfl; cases hlast), hlast]
  | case5 => cases (Prod.mk.inj h).1

end Text

/-! ## Spellings -/

open Text

/-- A text with blanks around it. -/
def IsPadded (text : String) (cs : List Char) : Prop :=
  ∃ front back : List Char, (∀ c ∈ front, isBlank c = true) ∧ (∀ c ∈ back, isBlank c = true) ∧
    cs = front ++ (text.toList ++ back)

namespace SimpleSelector

/-- The argument of a pseudo-class or pseudo-element in its parentheses, if it has one. -/
def IsArgument : Option String → List Char → Prop
  | none, cs => cs = []
  | some argument, cs => ∃ inner, cs = '(' :: (inner ++ [')']) ∧ IsPadded argument inner

/-- A text that is read as the simple selector. -/
def IsSpelling : SimpleSelector → List Char → Prop
  | element name, cs => cs = name.toList ∧ (IsRun cs ∨ ∃ run, IsRun run ∧ cs = run ++ ['%'])
  | universal, cs => cs = ['*']
  | id name, cs => cs = '#' :: name.toList ∧ IsRun name.toList
  | ofClass name, cs => cs = '.' :: name.toList ∧ IsRun name.toList
  | placeholder name, cs => cs = '%' :: name.toList ∧ IsRun name.toList
  | .attribute test, cs => ∃ inner, cs = '[' :: (inner ++ [']']) ∧ IsPadded test inner
  | pseudoClass name argument, cs => ∃ more, IsArgument argument more ∧
      cs = ':' :: (name.toList ++ more) ∧ IsRun name.toList
  | pseudoElement name argument, cs => ∃ more, IsArgument argument more ∧
      cs = ':' :: ':' :: (name.toList ++ more) ∧ IsRun name.toList
  | parent suffix, cs => cs = '&' :: (suffix.getD "").toList ∧ IsRun (suffix.getD "").toList

end SimpleSelector

namespace Selector

open SimpleSelector

variable {rest behind : List Char}

theorem of_readName {kind name : String} (h : readName kind rest = .ok (name, behind)) :
    rest = name.toList ++ behind ∧ IsRun name.toList := by
  unfold readName at h
  dsimp only at h
  split at h
  · cases h
  · obtain ⟨rfl, rfl⟩ := Prod.mk.inj (Except.ok.inj h)
    rw [String.toList_ofList]
    exact ⟨(spanName_append_eq rest).symm, isRun_spanName rest⟩

theorem of_readBalanced {opening closing : Char} {text : String}
    (hopening : quoteAfter none opening = none) (hclosing : quoteAfter none closing = none)
    (hne : opening ≠ closing) (h : readBalanced opening closing rest = .ok (text, behind)) :
    ∃ inner, rest = inner ++ closing :: behind ∧ IsPadded text inner := by
  obtain ⟨inner, hrest, -, htext⟩ := (readBalanced_eq_ok_iff hopening hclosing hne).mp h
  obtain ⟨front, back, hfront, hback, hinner, -⟩ := exists_dropBlanks inner
  exact ⟨inner, hrest, front, back, hfront, hback, htext ▸ hinner⟩

theorem of_readPseudo {name : String} {argument : Option String}
    (h : readPseudo rest = .ok ((name, argument), behind)) :
    ∃ more, IsArgument argument more ∧ rest = name.toList ++ (more ++ behind) ∧ IsRun name.toList := by
  obtain ⟨⟨found, after⟩, hname, hargument⟩ := bind_eq_ok_iff.mp h
  obtain ⟨rfl, hrun⟩ := of_readName hname
  dsimp only at hargument
  split at hargument
  next inner =>
    obtain ⟨⟨text, last⟩, hbalanced, hread⟩ := bind_eq_ok_iff.mp hargument
    obtain ⟨hpair, rfl⟩ := Prod.mk.inj (Except.ok.inj hread)
    obtain ⟨rfl, rfl⟩ := Prod.mk.inj hpair
    obtain ⟨inner, rfl, hpadded⟩ := of_readBalanced rfl rfl (by decide) hbalanced
    exact ⟨'(' :: (inner ++ [')']), ⟨inner, rfl, hpadded⟩, by simp, hrun⟩
  · obtain ⟨hpair, rfl⟩ := Prod.mk.inj (Except.ok.inj hargument)
    obtain ⟨rfl, rfl⟩ := Prod.mk.inj hpair
    exact ⟨[], rfl, rfl, hrun⟩

/-- **A simple selector is read from a spelling of it.** -/
theorem of_readSimple {c : Char} {x : SimpleSelector} (h : readSimple c rest = .ok (x, behind)) :
    ∃ more, rest = more ++ behind ∧ x.IsSpelling (c :: more) := by
  unfold readSimple at h
  split at h
  · obtain ⟨rfl, rfl⟩ := Prod.mk.inj (Except.ok.inj h)
    have hsuffix : ((if (spanName rest).1.isEmpty then none
        else some (String.ofList (spanName rest).1)).getD "").toList = (spanName rest).1 := by
      split
      next hempty => exact (List.isEmpty_iff.mp hempty).symm
      · exact String.toList_ofList
    refine ⟨(spanName rest).1, (spanName_append_eq rest).symm, ?_, ?_⟩
    · rw [hsuffix]
    · rw [hsuffix]
      exact isRun_spanName rest
  · obtain ⟨rfl, rfl⟩ := Prod.mk.inj (Except.ok.inj h)
    exact ⟨[], rfl, rfl⟩
  -- an id, a class and a placeholder differ in their signs only
  iterate 3
    obtain ⟨⟨name, after⟩, hname, h⟩ := bind_eq_ok_iff.mp h
    obtain ⟨rfl, rfl⟩ := Prod.mk.inj (Except.ok.inj h)
    obtain ⟨rfl, hrun⟩ := of_readName hname
    exact ⟨name.toList, rfl, rfl, hrun⟩
  · obtain ⟨⟨test, after⟩, htest, h⟩ := bind_eq_ok_iff.mp h
    obtain ⟨rfl, rfl⟩ := Prod.mk.inj (Except.ok.inj h)
    obtain ⟨inner, rfl, hpadded⟩ := of_readBalanced rfl rfl (by decide) htest
    exact ⟨inner ++ [']'], by simp, inner, rfl, hpadded⟩
  next element =>
    obtain ⟨⟨⟨name, argument⟩, after⟩, hpseudo, h⟩ := bind_eq_ok_iff.mp h
    obtain ⟨rfl, rfl⟩ := Prod.mk.inj (Except.ok.inj h)
    obtain ⟨more, hmore, rfl, hrun⟩ := of_readPseudo hpseudo
    exact ⟨':' :: (name.toList ++ more), by simp, more, hmore, rfl, hrun⟩
  · obtain ⟨⟨⟨name, argument⟩, after⟩, hpseudo, h⟩ := bind_eq_ok_iff.mp h
    obtain ⟨rfl, rfl⟩ := Prod.mk.inj (Except.ok.inj h)
    obtain ⟨more, hmore, rfl, hrun⟩ := of_readPseudo hpseudo
    exact ⟨name.toList ++ more, by simp, more, hmore, rfl, hrun⟩
  · split at h
    next hstart =>
      have hfront : isNameChar c = true := by
        simp only [Bool.or_eq_true, beq_iff_eq] at hstart
        rcases hstart with (hstart | rfl) | hdigit
        · exact isNameChar_of_isNameStart c hstart
        · decide
        · simp [isNameChar, Char.isAlphanum, hdigit]
      -- the first character belongs to the name, which goes on in what follows
      have hrun := isRun_spanName (c :: rest)
      have hrest := spanName_append_eq rest
      rw [spanName_cons hfront] at h hrun
      generalize spanName rest = read at h hrun hrest
      obtain ⟨more, after⟩ := read
      dsimp only at hrun hrest
      subst hrest
      split at h
      next heq =>
        obtain ⟨rfl, rfl⟩ := Prod.mk.inj (Except.ok.inj h)
        obtain ⟨rfl, rfl⟩ := Prod.mk.inj heq
        exact ⟨more ++ ['%'], by simp, String.toList_ofList.symm, Or.inr ⟨c :: more, hrun, rfl⟩⟩
      next heq =>
        obtain ⟨rfl, rfl⟩ := Prod.mk.inj (Except.ok.inj h)
        obtain ⟨rfl, rfl⟩ := Prod.mk.inj heq
        exact ⟨more, rfl, String.toList_ofList.symm, Or.inl hrun⟩
    · cases h

/-! ## Compounds -/

/-- What is read behind `parts` is read from spellings. -/
theorem of_readParts {fuel : Nat} {parts all : List SimpleSelector}
    (h : readParts fuel parts rest = .ok (all, behind)) : ∃ new pieces, all = parts ++ new ∧
      List.Forall₂ IsSpelling new pieces ∧ rest = pieces.flatten ++ behind ∧
      new.length + behind.length ≤ rest.length := by
  fun_induction readParts fuel parts rest with
  | case1 | case3 =>
      obtain ⟨rfl, rfl⟩ := Prod.mk.inj (Except.ok.inj h)
      exact ⟨[], [], (List.append_nil _).symm, .nil, rfl, by simp⟩
  | case2 fuel parts c rest _ ih =>
      obtain ⟨⟨part, after⟩, hpart, hparts⟩ := bind_eq_ok_iff.mp h
      dsimp only at hparts
      split at hparts
      · cases hparts
      obtain ⟨more, rfl, hspelling⟩ := of_readSimple hpart
      obtain ⟨new, pieces, rfl, hpieces, rfl, hlength⟩ := ih part after hparts
      refine ⟨part :: new, (c :: more) :: pieces, List.append_assoc _ _ _,
        .cons hspelling hpieces, by simp, ?_⟩
      simp only [List.length_cons, List.length_append] at hlength ⊢
      omega

/-- A reference is read at the front only. -/
theorem isParent_of_readParts {fuel : Nat} {parts all : List SimpleSelector}
    (h : readParts fuel parts rest = .ok (all, behind))
    (hparts : ∀ x ∈ parts.tail, x.isParent = false) : ∀ x ∈ all.tail, x.isParent = false := by
  fun_induction readParts fuel parts rest with
  | case1 | case3 =>
      obtain ⟨rfl, -⟩ := Prod.mk.inj (Except.ok.inj h)
      exact hparts
  | case2 fuel parts c rest _ ih =>
      obtain ⟨⟨part, after⟩, -, h⟩ := bind_eq_ok_iff.mp h
      dsimp only at h
      split at h
      · cases h
      next hfirst =>
        refine ih part after h ?_
        cases parts with
        | nil => exact fun _ hx => absurd hx List.not_mem_nil
        | cons first parts =>
            refine List.forall_mem_append.mpr ⟨hparts, List.forall_mem_singleton.mpr ?_⟩
            simpa using hfirst

theorem exists_foldl_addNew (xs ys : List SimpleSelector) :
    ∃ more, ys.foldl Compound.addNew xs = xs ++ more ∧ ∀ x ∈ more, x ∈ ys := by
  induction ys generalizing xs with
  | nil => exact ⟨[], (List.append_nil _).symm, fun _ hx => absurd hx List.not_mem_nil⟩
  | cons y ys ih =>
      obtain ⟨more, hmore, hmem⟩ := ih (Compound.addNew xs y)
      rw [List.foldl_cons, hmore, Compound.addNew]
      split
      · exact ⟨more, rfl, fun x hx => List.mem_cons_of_mem y (hmem x hx)⟩
      · refine ⟨y :: more, by simp, List.forall_mem_cons.mpr ⟨List.mem_cons_self, fun x hx => ?_⟩⟩
        exact List.mem_cons_of_mem y (hmem x hx)

end Selector

namespace Compound

/-- A compound as it is read: each part has a spelling, and only the first may be an `&`. -/
structure IsReadable (c : Compound) : Prop where
  spelled : ∀ x ∈ c.parts, ∃ cs, x.IsSpelling cs
  parentFirst : ∀ x ∈ c.parts.tail, x.isParent = false

end Compound

namespace Selector

open SimpleSelector

variable {rest behind : List Char}

/-- **A compound is read from spellings of its parts.** -/
theorem of_readCompound {c : Compound} (h : readCompound rest = .ok (c, behind)) :
    c.IsReadable ∧ behind.length < rest.length ∧ ∃ pieces : List (List Char),
      (∀ piece ∈ pieces, ∃ x ∈ c.parts, x.IsSpelling piece) ∧ rest = pieces.flatten ++ behind := by
  obtain ⟨⟨parts, after⟩, hparts, h⟩ := bind_eq_ok_iff.mp h
  dsimp only at h
  split at h
  · cases h
  next hne =>
    obtain ⟨rfl, rfl⟩ := Prod.mk.inj (Except.ok.inj h)
    have hfirst := isParent_of_readParts hparts fun _ hx => absurd hx List.not_mem_nil
    obtain ⟨_, pieces, rfl, hpieces, hrest, hlength⟩ := of_readParts hparts
    have hmem : ∀ x, x ∈ (Compound.ofList parts).parts ↔ x ∈ parts := fun x => Compound.mem_ofList
    refine ⟨⟨fun x hx => ?_, ?_⟩, ?_, pieces, fun piece hpiece => ?_, hrest⟩
    · obtain ⟨piece, -, hspelling⟩ := exists_of_mem_forall₂ hpieces.flip ((hmem x).mp hx)
      exact ⟨piece, hspelling⟩
    · cases parts with
      | nil => exact absurd rfl hne
      | cons first later =>
          obtain ⟨more, hmore, hsub⟩ := exists_foldl_addNew [first] later
          have hparts : (Compound.ofList (first :: later)).parts = first :: more := hmore
          rw [hparts]
          exact fun x hx => hfirst x (hsub x hx)
    · have hpos : 0 < parts.length := List.length_pos_of_ne_nil (by simpa using hne)
      omega
    · obtain ⟨x, hx, hspelling⟩ := exists_of_mem_forall₂ hpieces hpiece
      exact ⟨x, (hmem x).mpr hx, hspelling⟩

/-! ## Chains -/

/-- Blanks and signs of combinators. -/
def IsSeparator (cs : List Char) : Prop :=
  ∀ c ∈ cs, isBlank c = true ∨ (combinatorOf? c).isSome = true

theorem dropBlanks_split (cs : List Char) :
    ∃ blanks, IsSeparator blanks ∧ cs = blanks ++ dropBlanks cs :=
  ⟨cs.takeWhile isBlank, fun _ hc => Or.inl (List.mem_takeWhile_imp hc),
    List.takeWhile_append_dropWhile.symm⟩

theorem length_dropBlanks_le (cs : List Char) : (dropBlanks cs).length ≤ cs.length :=
  (List.dropWhile_suffix isBlank).length_le

/-- What is read behind `segments` is read from spellings of simple selectors that occur in it, and from
what separates them. -/
theorem of_readSegments {fuel : Nat} {segments all : List Segment} {pending : Option Combinator}
    {cs : List Char} (hfuel : cs.length < fuel)
    (h : readSegments fuel segments pending cs = .ok all) :
    segments <+: all ∧ (∀ s ∈ all, s ∈ segments ∨ s.compound.IsReadable) ∧
      ∃ pieces : List (List Char), cs = pieces.flatten ∧ ∀ piece ∈ pieces, IsSeparator piece ∨
        ∃ x ∈ simplesOf all, x.IsSpelling piece := by
  fun_induction readSegments fuel segments pending cs with
  | case1 | case4 | case5 => cases h
  | case2 fuel segments pending c rest combinator hc _ ih =>
      have hle := length_dropBlanks_le rest
      rw [List.length_cons] at hfuel
      obtain ⟨hstart, hreadable, pieces, hpieces, hall⟩ := ih (by omega) h
      obtain ⟨blanks, hblanks, hrest⟩ := dropBlanks_split rest
      refine ⟨hstart, hreadable, (c :: blanks) :: pieces, ?_, List.forall_mem_cons.mpr ⟨?_, hall⟩⟩
      · rw [List.flatten_cons, ← hpieces, List.cons_append, ← hrest]
      · exact Or.inl (List.forall_mem_cons.mpr ⟨Or.inr (by rw [hc]; rfl), hblanks⟩)
  | case3 fuel segments pending c rest _ ih =>
      obtain ⟨⟨compound, behind⟩, hcompound, hsegments⟩ := bind_eq_ok_iff.mp h
      obtain ⟨hcompound, hlength, spellings, hspellings, hrest⟩ := of_readCompound hcompound
      have hle := length_dropBlanks_le behind
      rw [List.length_cons] at hfuel hlength
      obtain ⟨hstart, hreadable, pieces, hpieces, hall⟩ := ih compound behind (by omega) hsegments
      obtain ⟨blanks, hblanks, hbehind⟩ := dropBlanks_split behind
      -- the compound that was read stays among the segments, so its parts occur in the result
      refine ⟨(List.prefix_append _ _).trans hstart, fun s hs => ?_, spellings ++ blanks :: pieces,
        ?_, List.forall_mem_append.mpr ⟨fun piece hpiece => ?_, List.forall_mem_cons.mpr ⟨?_, hall⟩⟩⟩
      · rcases hreadable s hs with hs | hs
        · rcases List.mem_append.mp hs with hs | hs
          · exact Or.inl hs
          · rw [List.mem_singleton.mp hs]
            exact Or.inr hcompound
        · exact Or.inr hs
      · rw [List.flatten_append, List.flatten_cons, ← hpieces, ← hbehind, ← hrest]
      · obtain ⟨x, hx, hspelling⟩ := hspellings piece hpiece
        have hsegment := hstart.subset (List.mem_append_right _ (List.mem_singleton_self _))
        exact Or.inr ⟨x, mem_simplesOf.mpr ⟨_, hsegment, hx⟩, hspelling⟩
      · exact Or.inl hblanks
  | case6 fuel segments pending cs _ _ hend =>
      obtain rfl := Except.ok.inj h
      -- there is fuel for every character, so nothing is left
      have hnil : cs = [] := by
        cases cs with
        | nil => rfl
        | cons c rest =>
            cases fuel with
            | zero => exact absurd hfuel (Nat.not_lt_zero _)
            | succ fuel => exact (hend fuel c rest rfl rfl).elim
      exact ⟨List.prefix_refl _, fun s hs => Or.inl hs, [], hnil, fun _ h => absurd h List.not_mem_nil⟩

/-- **A selector is read from the spellings of its parts** and from what separates them. -/
theorem of_ofChars {cs : List Char} {s : Selector} (h : ofChars cs = .ok s) :
    s.AllCompounds Compound.IsReadable ∧
      ∃ pieces : List (List Char), cs = pieces.flatten ∧ ∀ piece ∈ pieces, IsSeparator piece ∨
        ∃ x ∈ s.simples, x.IsSpelling piece := by
  have hfuel := Nat.lt_succ_of_le (length_dropBlanks_le cs)
  obtain ⟨-, hreadable, pieces, hpieces, hall⟩ := of_readSegments hfuel (ofChars_eq_ok_iff.mp h)
  obtain ⟨blanks, hblanks, hcs⟩ := dropBlanks_split cs
  refine ⟨fun a ha => ?_, blanks :: pieces, ?_, ?_⟩
  · exact (hreadable a ha).resolve_left List.not_mem_nil
  · rw [List.flatten_cons, ← hpieces, ← hcs]
  · exact List.forall_mem_cons.mpr ⟨Or.inl hblanks, hall⟩

end Selector

end Scss
