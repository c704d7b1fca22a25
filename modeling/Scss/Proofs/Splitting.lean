import Scss.Proofs.Spelling

/-!
# Lists of one selector

A list of selectors is cut before any of them is read. So a text that is one selector if it is read by
itself may still be cut: it is, exactly if one of its commas is free. The commas of a selector stand in
brackets or behind a backslash. Those in brackets are not free as long as the brackets in there are
nested. But what a backslash takes into a name counts for the cutting: the comma itself, and any bracket
or quote in front of it.
-/

namespace Scss

open Text Selector

namespace SimpleSelector

/-- What stands in brackets is nested, and nothing in a name is a bracket, a quote or a comma, as it
could be behind a backslash. -/
def HoldsTogether : SimpleSelector → Prop
  | element name | id name | ofClass name | placeholder name => ∀ c ∈ name.toList, IsPlain c
  | universal => True
  | .attribute test => IsNested test.toList
  | pseudoClass name argument | pseudoElement name argument =>
    (∀ c ∈ name.toList, IsPlain c) ∧ ∀ a ∈ argument, IsNested a.toList
  | parent suffix => ∀ c ∈ (suffix.getD "").toList, IsPlain c

instance : DecidablePred HoldsTogether
  | element name | id name | ofClass name | placeholder name =>
    decidable_of_iff (name.toList.all (IsPlain ·) = true) (by simp [HoldsTogether])
  | universal => inferInstanceAs (Decidable True)
  | .attribute test => inferInstanceAs (Decidable (IsNested test.toList))
  | pseudoClass name argument | pseudoElement name argument =>
    decidable_of_iff (name.toList.all (IsPlain ·) = true ∧ ∀ a ∈ argument, IsNested a.toList)
      (by simp [HoldsTogether])
  | parent suffix =>
    decidable_of_iff ((suffix.getD "").toList.all (IsPlain ·) = true) (by simp [HoldsTogether])

end SimpleSelector

namespace Selector

variable {cs : List Char} {x : SimpleSelector}

theorem IsSeparator.isWhole (h : IsSeparator cs) : IsWhole ',' bracketStep cs := by
  refine .plain cuts_comma fun c hc => ?_
  rcases h c hc with hblank | hsign
  · exact isPlain_of_isBlank hblank
  · unfold combinatorOf? at hsign
    split_ifs at hsign with hchild hadjacent hsibling
    · exact hchild ▸ by decide
    · exact hadjacent ▸ by decide
    · exact hsibling ▸ by decide
    · cases hsign

theorem IsNested.of_isPadded {text : String} (h : IsNested text.toList) (hcs : IsPadded text cs) :
    IsNested cs := by
  obtain ⟨front, back, hfront, hback, rfl⟩ := hcs
  have hplain : ∀ {blanks : List Char}, (∀ c ∈ blanks, isBlank c = true) → IsNested blanks :=
    fun hblanks => .plain fun c hc => isPlain_of_isBlank (hblanks c hc)
  exact (hplain hfront).append (h.append (hplain hback))

theorem isWhole_argument {argument : Option String} (h : ∀ a ∈ argument, IsNested a.toList)
    (hcs : SimpleSelector.IsArgument argument cs) : IsWhole ',' bracketStep cs := by
  cases argument with
  | none => exact hcs ▸ .nil
  | some a =>
      obtain ⟨inner, rfl, hpadded⟩ := hcs
      exact ((h a rfl).of_isPadded hpadded).bracketed rfl rfl

theorem isWhole_spelling (h : x.HoldsTogether) (hcs : x.IsSpelling cs) : IsWhole ',' bracketStep cs := by
  cases x with
  | element name => exact hcs.1 ▸ .plain cuts_comma h
  | universal => exact hcs ▸ .plain cuts_comma (List.forall_mem_singleton.mpr (by decide))
  | id name | ofClass name | placeholder name =>
      exact hcs.1 ▸ (IsWhole.plain cuts_comma h).cons cuts_comma (by decide)
  | «attribute» test =>
      obtain ⟨inner, rfl, hpadded⟩ := hcs
      exact (IsNested.of_isPadded h hpadded).bracketed rfl rfl
  | pseudoClass name argument =>
      obtain ⟨more, hmore, rfl, -⟩ := hcs
      exact ((IsWhole.plain cuts_comma h.1).append (isWhole_argument h.2 hmore)).cons cuts_comma (by decide)
  | pseudoElement name argument =>
      obtain ⟨more, hmore, rfl, -⟩ := hcs
      have hname := (IsWhole.plain cuts_comma h.1).append (isWhole_argument h.2 hmore)
      exact (hname.cons cuts_comma (by decide)).cons cuts_comma (by decide)
  | parent suffix => exact hcs.1 ▸ (IsWhole.plain cuts_comma h).cons cuts_comma (by decide)

/-- The text of a selector is not cut if each of its parts holds together. -/
theorem isWhole_of_ofChars {s : Selector} (h : ofChars cs = .ok s)
    (hs : ∀ x ∈ s.simples, x.HoldsTogether) : IsWhole ',' bracketStep cs := by
  obtain ⟨-, pieces, rfl, hpieces⟩ := of_ofChars h
  refine .flatten fun piece hpiece => ?_
  rcases hpieces piece hpiece with hseparator | ⟨x, hx, hspelling⟩
  · exact hseparator.isWhole
  · exact isWhole_spelling (hs x hx) hspelling

theorem ne_nil_of_ofChars {s : Selector} (h : ofChars cs = .ok s) : cs ≠ [] := by
  rintro rfl
  cases h

/-- What begins a selector is read as one of its parts. -/
theorem exists_readSimple_of_ofChars {c : Char} {rest : List Char} {s : Selector}
    (hblank : isBlank c = false) (hends : endsCompound c = false) (h : ofChars (c :: rest) = .ok s) :
    ∃ x ∈ s.simples, ∃ behind, readSimple c rest = .ok (x, behind) := by
  have hsegments := ofChars_eq_ok_iff.mp h
  have htrimmed : dropBlanks (c :: rest) = c :: rest :=
    List.dropWhile_cons_of_neg (by simp [hblank])
  rw [htrimmed, readSegments, combinatorOf?_eq_none hends] at hsegments
  obtain ⟨⟨compound, behind⟩, hcompound, hlater⟩ := bind_eq_ok_iff.mp hsegments
  obtain ⟨-, hlength, -⟩ := of_readCompound hcompound
  have hfuel : (dropBlanks behind).length < (c :: rest).length :=
    (length_dropBlanks_le behind).trans_lt hlength
  obtain ⟨hstart, -⟩ := of_readSegments hfuel hlater
  obtain ⟨⟨parts, after⟩, hparts, hfull⟩ := bind_eq_ok_iff.mp hcompound
  rw [List.length_cons, readParts, if_neg (by simp [hends])] at hparts
  obtain ⟨⟨part, more⟩, hpart, hparts⟩ := bind_eq_ok_iff.mp hparts
  dsimp only at hparts hfull
  rw [if_neg (by simp)] at hparts
  obtain ⟨new, pieces, rfl, -⟩ := of_readParts hparts
  rw [if_neg (by simp)] at hfull
  obtain ⟨rfl, rfl⟩ := Prod.mk.inj (Except.ok.inj hfull)
  refine ⟨part, mem_simplesOf.mpr ⟨_, hstart.subset List.mem_cons_self, ?_⟩, more, hpart⟩
  exact Compound.mem_ofList.mpr List.mem_cons_self

/-- What is one simple selector throughout is read as a selector of it alone. -/
theorem ofChars_of_readSimple {c : Char} {rest : List Char} {x : SimpleSelector}
    (hblank : isBlank c = false) (hends : endsCompound c = false)
    (h : readSimple c rest = .ok (x, [])) : ofChars (c :: rest) = .ok (.ofCompound (.ofList [x])) := by
  have htrimmed : dropBlanks (c :: rest) = c :: rest :=
    List.dropWhile_cons_of_neg (by simp [hblank])
  have hparts : readParts (c :: rest).length [] (c :: rest) = .ok ([x], []) := by
    rw [List.length_cons, readParts, if_neg (by simp [hends]), h]
    show (if x.isParent && !true then _ else readParts rest.length [x] []) = _
    rw [if_neg (by simp)]
    cases rest.length <;> rfl
  rw [ofChars_eq_ok_iff, htrimmed, readSegments, combinatorOf?_eq_none hends, readCompound, hparts]
  rfl

/-- A list of one selector is not cut, and read as that selector. -/
theorem readList_eq_singleton_iff {text : String} {s : Selector} {position : Position} :
    readList text position = .ok [s] ↔ NoneFree ',' bracketStep none 0 text.toList ∧
      ofChars (dropBlanksEnd (dropBlanks text.toList)) = .ok s := by
  constructor
  · intro hlist
    obtain ⟨piece, hsplit⟩ := List.length_eq_one_iff.mp (mapM_eq_ok_iff.mp hlist).length_eq
    obtain ⟨rfl, hnone⟩ := splitList_eq_singleton_iff.mp hsplit
    obtain ⟨piece, hpiece, hread⟩ :=
      exists_ofChars_of_readList hlist s (List.mem_singleton_self s)
    rw [hsplit, List.mem_singleton] at hpiece
    exact ⟨hnone, hpiece ▸ hread⟩
  · rintro ⟨hnone, hread⟩
    rw [readList, splitList_eq_singleton_iff.mpr ⟨rfl, hnone⟩, mapM_eq_ok_iff]
    refine .cons ?_ .nil
    rw [readPiece_eq rfl (ne_nil_of_ofChars hread), hread]
    rfl

/--
**What is one selector is read as a list of it.** Let a text without blanks at its ends be read as the
selector `s`. As a list, it is read as `s` alone exactly if none of its commas is free. This is so
whenever the parts of `s` hold together.
-/
theorem readList_eq_singleton {text : String} {s : Selector} (htrim : trim text = text)
    (h : ofChars text.toList = .ok s) (position : Position) :
    (readList text position = .ok [s] ↔ NoneFree ',' bracketStep none 0 text.toList) ∧
      ((∀ x ∈ s.simples, x.HoldsTogether) → readList text position = .ok [s]) := by
  have htrimmed : dropBlanksEnd (dropBlanks text.toList) = text.toList := by
    rw [← String.toList_ofList (l := dropBlanksEnd _)]
    exact congrArg String.toList htrim
  have hread : readList text position = .ok [s] ↔ NoneFree ',' bracketStep none 0 text.toList := by
    rw [readList_eq_singleton_iff, htrimmed, and_iff_left h]
  exact ⟨hread, fun hs => hread.mpr (isWhole_of_ofChars h hs).uncut⟩

/-- `a[b=",]"]:not(.c, [d]) > *` -/
def commasInBrackets : Selector :=
  ⟨[⟨none, .ofList [.element "a", .attribute "b=\",]\"", .pseudoClass "not" (some ".c, [d]")]⟩,
    ⟨some .child, .ofList [.universal]⟩]⟩

theorem commasInBrackets_read : trim "a[b=\",]\"]:not( .c, [d] ) > *" = "a[b=\",]\"]:not( .c, [d] ) > *" ∧
    ofChars "a[b=\",]\"]:not( .c, [d] ) > *".toList = .ok commasInBrackets ∧
    readList "a[b=\",]\"]:not( .c, [d] ) > *" (.start "input.scss") = .ok [commasInBrackets] := by
  have htrim : trim "a[b=\",]\"]:not( .c, [d] ) > *" = "a[b=\",]\"]:not( .c, [d] ) > *" := by decide
  have hread : ofChars "a[b=\",]\"]:not( .c, [d] ) > *".toList = .ok commasInBrackets := by cbv
  have htogether : ∀ x ∈ commasInBrackets.simples, x.HoldsTogether := by decide
  exact ⟨htrim, hread, (readList_eq_singleton htrim hread _).2 htogether⟩

/-- The class of `.a\,b` has a comma in its name, but as a list the text is `.a\` and `b`. -/
theorem escapedComma_cut : trim ".a\\,b" = ".a\\,b" ∧
    ofChars ".a\\,b".toList = .ok (.ofCompound (.ofList [.ofClass "a\\,b"])) ∧
    readList ".a\\,b" (.start "input.scss") = .ok
      [.ofCompound (.ofList [.ofClass "a\\"]), .ofCompound (.ofList [.element "b"])] := by
  decide

end Selector

end Scss
