import Scss.Proofs.Lines
import Scss.Proofs.SelectorText

/-!
# Selectors are lines of text

A selector that can be printed, and the names of which are made of word characters, is a line of text
as it is read in front of a brace, and so is a list of them. Where no placeholder is left, nothing is
lost when it is read.
-/

namespace Scss

open Text

/-! ## Simple selectors -/

namespace SimpleSelector

/-- The names in the selector are made of word characters; in the test of an attribute may also be an
equals sign. -/
def IsNamed : SimpleSelector → Prop
  | element name | id name | ofClass name | placeholder name => IsName name
  | universal => True
  | .attribute test => ∀ c ∈ test.toList, isWordChar c = true ∨ c = '='
  | pseudoClass name argument | pseudoElement name argument =>
    IsName name ∧ ∀ t ∈ argument, ∀ c ∈ t.toList, isWordChar c = true
  | parent suffix => ∀ t ∈ suffix, ∀ c ∈ t.toList, isWordChar c = true

instance : DecidablePred IsNamed
  | element name | id name | ofClass name | placeholder name => inferInstanceAs (Decidable (IsName name))
  | universal => inferInstanceAs (Decidable True)
  | .attribute test =>
    decidable_of_iff (test.toList.all (fun c => isWordChar c || c == '=') = true) (by simp [IsNamed])
  | pseudoClass name argument | pseudoElement name argument =>
    decidable_of_iff (IsName name ∧ argument.all (·.toList.all isWordChar) = true)
      (by cases argument <;> simp [IsNamed])
  | parent suffix =>
    decidable_of_iff (suffix.all (·.toList.all isWordChar) = true) (by cases suffix <;> simp [IsNamed])

/-- Neither a placeholder nor an `&`. -/
def IsPrinted (x : SimpleSelector) : Prop := x.isPlaceholder = false ∧ x.isParent = false

variable {x : SimpleSelector}

/-- A named selector can be read again where it is not `&`. -/
theorem IsNamed.isLegible (h : x.IsNamed) (hparent : x.isParent = false) : x.IsLegible := by
  have hargument : ∀ {argument : Option String},
      (∀ t ∈ argument, ∀ c ∈ t.toList, isWordChar c = true) → ∀ t ∈ argument, Selector.IsInner t :=
    fun h t ht => Selector.isInner_of_word fun c hc => Or.inl (h t ht c hc)
  cases x with
  | «attribute» test => exact Selector.isInner_of_word h
  | pseudoClass name argument | pseudoElement name argument => exact ⟨h.1, hargument h.2⟩
  | parent suffix => cases hparent
  | _ => exact h

theorem isSolid_mark {c : Char} (hc : IsSolid.IsEdge c) (hbracket : isBracket c = false) :
    IsSolid [c] :=
  ⟨List.forall_mem_singleton.mpr hc.1, List.forall_mem_singleton.mpr hc.2.1,
    .word (List.forall_mem_singleton.mpr hbracket), .word (List.forall_mem_singleton.mpr hc.2.2)⟩

theorem isSolid_argument {argument : Option String}
    (h : ∀ t ∈ argument, ∀ c ∈ t.toList, isWordChar c = true) :
    IsSolid (argument.elim "" fun a => "(" ++ a ++ ")").toList := by
  cases argument with
  | none => exact .nil
  | some a => exact text_argument a ▸ (isSolid_word (h a rfl)).paren

/-- Its text is solid: no space, no comma, and every bracket is closed. -/
theorem isSolid_text (h : x.IsNamed) (hprinted : x.IsPrinted) : IsSolid x.text.toList := by
  cases x with
  | element name => exact isSolid_word h.2
  | universal => exact isSolid_mark ⟨by decide, by decide, by decide⟩ rfl
  | id name =>
      have hhash : IsSolid ['#'] := isSolid_mark ⟨by decide, by decide, by decide⟩ rfl
      simpa [text] using hhash.append (isSolid_word h.2)
  | ofClass name =>
      have hdot : IsSolid ['.'] := isSolid_mark ⟨by decide, by decide, by decide⟩ rfl
      simpa [text] using hdot.append (isSolid_word h.2)
  | «attribute» test =>
      simpa [text] using (isSolid_test h).bracket
  | pseudoClass name argument =>
      rw [text_pseudoClass]
      exact ((isSolid_word h.1.2).append (isSolid_argument h.2)).colon
        (fun hnil => h.1.1 (List.append_eq_nil_iff.mp hnil).1)
  | pseudoElement name argument =>
      rw [text_pseudoElement]
      exact (((isSolid_word h.1.2).append (isSolid_argument h.2)).colon
        (fun hnil => h.1.1 (List.append_eq_nil_iff.mp hnil).1)).colon (List.cons_ne_nil _ _)
  | placeholder name => cases hprinted.1
  | parent suffix => cases hprinted.2

end SimpleSelector

/-! ## Compounds and chains -/

/-- The names in the compound are made of word characters, and only its first part tests the element. -/
structure Compound.IsNamed (c : Compound) : Prop where
  named : ∀ x ∈ c.parts, x.IsNamed
  elementFirst : ∀ x ∈ c.parts.tail, x.isElementTest = false

instance (c : Compound) : Decidable c.IsNamed :=
  decidable_of_iff ((∀ x ∈ c.parts, x.IsNamed) ∧ ∀ x ∈ c.parts.tail, x.isElementTest = false)
    ⟨fun h => ⟨h.1, h.2⟩, fun h => ⟨h.named, h.elementFirst⟩⟩

/-- The texts of its parts side by side. -/
theorem Compound.IsNamed.isSolid {c : Compound} (hc : c.IsNamed)
    (hprinted : ∀ x ∈ c.parts, x.IsPrinted) : IsSolid c.text.toList := by
  have hparts : ∀ xs : List SimpleSelector, (∀ x ∈ xs, x.IsNamed) → (∀ x ∈ xs, x.IsPrinted) →
      IsSolid (Selector.partsText xs) := by
    intro xs
    induction xs with
    | nil => exact fun _ _ => .nil
    | cons x xs ih =>
        intro hnamed hprinted
        obtain ⟨hx, hnamed⟩ := List.forall_mem_cons.mp hnamed
        obtain ⟨hxprinted, hprinted⟩ := List.forall_mem_cons.mp hprinted
        exact (SimpleSelector.isSolid_text hx hxprinted).append (ih hnamed hprinted)
  exact Selector.text_compound c ▸ hparts _ hc.named hprinted

theorem Compound.joinsPlaceholder_eq_false {c : Compound} (h : ∀ x ∈ c.parts, x.IsPrinted) :
    c.joinsPlaceholder = false := by
  unfold joinsPlaceholder
  split
  next name mark rest hparts => cases (h (.placeholder mark) (by simp [hparts])).1
  · rfl

namespace Selector

/-- A selector that can be printed, the names of which are made of word characters. -/
structure IsWritten (s : Selector) : Prop where
  chain : IsChain s.segments
  named : s.AllCompounds Compound.IsNamed
  noParent : s.hasParent = false
  noPlaceholder : s.hasPlaceholder = false

namespace IsWritten

variable {s : Selector}

theorem isPrinted (h : s.IsWritten) : ∀ a ∈ s.segments, ∀ x ∈ a.compound.parts, x.IsPrinted := by
  intro a ha x hx
  have hplaceholder : a.compound.hasPlaceholder = false := by
    simpa using List.any_eq_false.mp h.noPlaceholder a ha
  have hparent : a.compound.hasParent = false := by
    simpa using List.any_eq_false.mp h.noParent a ha
  exact ⟨by simpa using List.any_eq_false.mp hplaceholder x hx,
    by simpa using List.any_eq_false.mp hparent x hx⟩

theorem isLegible (h : s.IsWritten) : s.IsLegible where
  chain := h.chain
  legible a ha := ⟨h.chain.full a ha,
    fun x hx => ((h.named a ha).named x hx).isLegible (h.isPrinted a ha x hx).2,
    (h.named a ha).elementFirst⟩

/-- Without placeholders, a selector is read as it is. -/
theorem asRead_eq (h : s.IsWritten) : s.asRead = s :=
  (asRead_eq_iff s).mpr fun a ha => Compound.joinsPlaceholder_eq_false (h.isPrinted a ha)

/-- A segment with its combinator is an item of the line. -/
theorem isItem_segment (h : s.IsWritten) {a : Segment} (ha : a ∈ s.segments) :
    IsItem (segmentText a) := by
  have hcompound : IsItem a.compound.text.toList :=
    ((h.named a ha).isSolid (h.isPrinted a ha)).isItem (h.isLegible.legible a ha).isTrimmed.nonempty
  rw [segmentText]
  split
  · exact hcompound
  · exact hcompound
  next combinator hne _ =>
    have hsign : IsItem combinator.sign.toList := by
      have hmark {c : Char} (hc : IsSolid.IsEdge c) (hbracket : isBracket c = false) : IsItem [c] :=
        (SimpleSelector.isSolid_mark hc hbracket).isItem (List.cons_ne_nil _ _)
      cases combinator with
      | descendant => exact absurd rfl hne
      | child | adjacent | sibling => exact hmark ⟨by decide, by decide, by decide⟩ rfl
    exact hsign.join hcompound

/-- A chain is items with spaces between them. -/
theorem isItem (h : s.IsWritten) : IsItem s.text.toList :=
  h.isLegible.text_induction (fun _ ha _ => h.isItem_segment ha) fun _ _ hcs hds => hcs.join hds

end IsWritten

/-! ## Lists -/

variable {selectors : List Selector}

/-- **A list of selectors is a line of text**, in which something follows every colon. -/
theorem isLine_listText (h : ∀ s ∈ selectors, s.IsWritten) (hne : selectors ≠ []) :
    IsLine (listText selectors).toList ∧ IsBound (listText selectors).toList := by
  obtain ⟨s, others, rfl⟩ := List.exists_cons_of_ne_nil hne
  obtain ⟨hs, hothers⟩ := List.forall_mem_cons.mp h
  rw [listText_cons]
  have hline := hs.isItem.toIsLine
  have hbound := hs.isItem.bound
  generalize s.text.toList = front at hline hbound
  clear hs h hne
  induction others generalizing front with
  | nil => exact ⟨by simpa using hline, by simpa using hbound⟩
  | cons t others ih =>
      obtain ⟨ht, hothers⟩ := List.forall_mem_cons.mp hothers
      have hjoint : IsBound [',', ' '] := .word (by simp)
      have hmore := ih hothers _ (hline.comma.join ht.isItem.toIsLine)
        (by simpa using hbound.append (hjoint.append ht.isItem.bound))
      simpa using hmore

/-- **A list of selectors is read back from its text.** -/
theorem readList_of_isWritten (h : ∀ s ∈ selectors, s.IsWritten) (hne : selectors ≠ [])
    (position : Position) : readList (listText selectors) position = .ok selectors := by
  rw [readList_listText (fun s hs => (h s hs).isLegible) hne,
    List.map_congr_left fun s hs => (h s hs).asRead_eq, List.map_id']

end Selector

end Scss
