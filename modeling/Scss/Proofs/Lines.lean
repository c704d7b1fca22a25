import Scss.Proofs.Passages

/-!
# Lines of text

Text that is read as a passage is put together of words: a compound is written without spaces, and
the compounds of a chain, like the selectors of a list, have single spaces between them. So that the
whole can be read again, certain things have to hold of each part, and they have to be kept when parts
are written one behind the other.
-/

namespace Scss

open Text

namespace Text

/-- Text in which all brackets are closed. -/
def IsClosed (cs : List Char) : Prop :=
  ∀ stack rest, Nested stack (cs ++ rest) ↔ Nested stack rest

namespace IsClosed

variable {cs ds : List Char}

theorem nil : IsClosed [] := fun _ _ => Iff.rfl

/-- Bound texts side by side: the first one does not end in a colon. -/
theorem append (h : IsClosed cs) (h' : IsClosed ds) : IsClosed (cs ++ ds) := by
  intro stack rest
  rw [List.append_assoc, h, h']

theorem word (h : ∀ c ∈ cs, isBracket c = false) : IsClosed cs := fun _ _ => nested_append h

theorem paren (h : IsClosed cs) : IsClosed ('(' :: (cs ++ [')'])) := by
  intro stack rest
  show Nested stack ('(' :: (cs ++ [')'] ++ rest)) ↔ _
  rw [Nested, if_pos rfl, List.append_assoc, h]
  simp [Nested]

theorem bracket (h : IsClosed cs) : IsClosed ('[' :: (cs ++ [']'])) := by
  intro stack rest
  show Nested stack ('[' :: (cs ++ [']'] ++ rest)) ↔ _
  rw [Nested, if_neg (by decide), if_pos rfl, List.append_assoc, h]
  simp [Nested]

end IsClosed

/-- Text in which something follows every colon, and no space. -/
def IsBound (cs : List Char) : Prop := (cs ++ [' ']).IsChain fun c d => c = ':' → d ≠ ' '

namespace IsBound

variable {cs ds : List Char}

theorem append (h : IsBound cs) (h' : IsBound ds) : IsBound (cs ++ ds) := by
  obtain ⟨hcs, -, hlast⟩ := List.isChain_append.mp h
  rw [IsBound, List.append_assoc]
  refine hcs.append h' fun c hc _ _ heq => ?_
  exact absurd rfl (hlast c hc ' ' rfl heq)

theorem word (h : ∀ c ∈ cs, c ≠ ':') : IsBound cs := by
  refine (List.pairwise_of_forall_mem_list fun c hc d _ heq => ?_).isChain
  rcases List.mem_append.mp hc with hc | hc
  · exact absurd heq (h c hc)
  · rw [List.mem_singleton.mp hc] at heq
    exact absurd heq (by decide)

/-- A colon in front of a text. -/
theorem colon (h : IsBound cs) (hne : cs ≠ []) (hfront : ∀ c ∈ cs.head?, c ≠ ' ') :
    IsBound (':' :: cs) := by
  refine List.isChain_cons.mpr ⟨fun d hd _ => ?_, h⟩
  change d ∈ (cs ++ [' ']).head? at hd
  rw [List.head?_append_of_ne_nil _ hne] at hd
  exact hfront d hd

/-- What follows a colon. -/
theorem behind {front rest : List Char} (h : IsBound (front ++ ':' :: rest)) :
    ∃ d, rest.head? = some d ∧ d ≠ ' ' := by
  rw [IsBound, List.append_assoc] at h
  have hcolon := (List.isChain_append.mp h).2.1
  cases rest with
  | nil => exact absurd rfl ((List.isChain_cons.mp hcolon).1 ' ' rfl rfl)
  | cons d more => exact ⟨d, rfl, (List.isChain_cons.mp hcolon).1 d rfl rfl⟩

end IsBound

/-- Text of a passage that neither begins nor ends with a space. -/
structure IsLine (cs : List Char) : Prop where
  nonempty : cs ≠ []
  chars : ∀ c ∈ cs, isPassageChar c = true
  front : ∀ c ∈ cs.head?, c ≠ ' '
  spaced : (cs ++ [' ']).IsChain fun c d => c = ' ' → d ≠ ' '
  closed : IsClosed cs

/-- A line without commas, in which something follows every colon. -/
structure IsItem (cs : List Char) : Prop extends IsLine cs where
  noComma : ∀ c ∈ cs, c ≠ ','
  bound : IsBound cs

/-- Text of a passage without spaces and commas. -/
structure IsSolid (cs : List Char) : Prop where
  chars : ∀ c ∈ cs, isPassageChar c = true
  noSeparator : ∀ c ∈ cs, c ≠ ' ' ∧ c ≠ ','
  closed : IsClosed cs
  bound : IsBound cs

variable {cs ds : List Char}

namespace IsSolid

theorem nil : IsSolid [] :=
  ⟨fun _ h => absurd h List.not_mem_nil, fun _ h => absurd h List.not_mem_nil, .nil,
    .word fun _ h => absurd h List.not_mem_nil⟩

theorem append (h : IsSolid cs) (h' : IsSolid ds) : IsSolid (cs ++ ds) :=
  ⟨List.forall_mem_append.mpr ⟨h.chars, h'.chars⟩,
    List.forall_mem_append.mpr ⟨h.noSeparator, h'.noSeparator⟩, h.closed.append h'.closed,
    h.bound.append h'.bound⟩

/-- A character that is neither a separator nor a colon can stand in front of solid text and behind it. -/
def IsEdge (c : Char) : Prop := isPassageChar c = true ∧ (c ≠ ' ' ∧ c ≠ ',') ∧ c ≠ ':'

/-- Brackets that close around solid text make solid text. -/
theorem bracketed {opening closing : Char} (h : IsSolid cs) (hopening : IsEdge opening)
    (hclosing : IsEdge closing) (hclosed : IsClosed (opening :: (cs ++ [closing]))) :
    IsSolid (opening :: (cs ++ [closing])) where
  chars := List.forall_mem_cons.mpr ⟨hopening.1,
    List.forall_mem_append.mpr ⟨h.chars, List.forall_mem_singleton.mpr hclosing.1⟩⟩
  noSeparator := List.forall_mem_cons.mpr ⟨hopening.2.1,
    List.forall_mem_append.mpr ⟨h.noSeparator, List.forall_mem_singleton.mpr hclosing.2.1⟩⟩
  closed := hclosed
  bound := by
    have hfirst : IsBound [opening] := .word (List.forall_mem_singleton.mpr hopening.2.2)
    exact hfirst.append (h.bound.append (.word (List.forall_mem_singleton.mpr hclosing.2.2)))

theorem paren (h : IsSolid cs) : IsSolid ('(' :: (cs ++ [')'])) :=
  h.bracketed ⟨by decide, by decide, by decide⟩ ⟨by decide, by decide, by decide⟩ h.closed.paren

theorem bracket (h : IsSolid cs) : IsSolid ('[' :: (cs ++ [']'])) :=
  h.bracketed ⟨by decide, by decide, by decide⟩ ⟨by decide, by decide, by decide⟩ h.closed.bracket

/-- A colon in front of something. -/
theorem colon (h : IsSolid cs) (hne : cs ≠ []) : IsSolid (':' :: cs) where
  chars := List.forall_mem_cons.mpr ⟨by decide, h.chars⟩
  noSeparator := List.forall_mem_cons.mpr ⟨by decide, h.noSeparator⟩
  closed := by
    have hcolon : IsClosed [':'] := .word (List.forall_mem_singleton.mpr rfl)
    exact hcolon.append h.closed
  bound := h.bound.colon hne fun c hc => (h.noSeparator c (List.mem_of_mem_head? hc)).1

/-- Solid text that is not empty is an item. -/
theorem isItem (h : IsSolid cs) (hne : cs ≠ []) : IsItem cs where
  nonempty := hne
  chars := h.chars
  noComma c hc := (h.noSeparator c hc).2
  bound := h.bound
  front c hc := (h.noSeparator c (List.mem_of_mem_head? hc)).1
  spaced := by
    refine List.IsChain.append ?_ (List.isChain_singleton _) ?_
    · exact (List.pairwise_of_forall_mem_list fun c hc d _ heq =>
        absurd heq (h.noSeparator c hc).1).isChain
    · exact fun c hc _ _ heq => absurd heq (h.noSeparator c (List.mem_of_getLast? hc)).1
  closed := h.closed

end IsSolid

namespace IsLine

/-- Lines with a space between them. -/
theorem join (h : IsLine cs) (h' : IsLine ds) : IsLine (cs ++ ' ' :: ds) where
  nonempty hnil := h.nonempty (List.append_eq_nil_iff.mp hnil).1
  chars := List.forall_mem_append.mpr ⟨h.chars, List.forall_mem_cons.mpr ⟨by decide, h'.chars⟩⟩
  front := by
    rw [List.head?_append_of_ne_nil _ h.nonempty]
    exact h.front
  spaced := by
    have hsplit : cs ++ ' ' :: ds ++ [' '] = (cs ++ [' ']) ++ (ds ++ [' ']) := by simp
    rw [hsplit]
    refine h.spaced.append h'.spaced fun c _ d hd _ => ?_
    rw [List.head?_append_of_ne_nil _ h'.nonempty] at hd
    exact h'.front d hd
  closed := by
    have hspace : IsClosed [' '] := .word (List.forall_mem_singleton.mpr rfl)
    exact h.closed.append (hspace.append h'.closed)

/-- A comma behind a line, where another one follows. -/
theorem comma (h : IsLine cs) : IsLine (cs ++ [',']) where
  nonempty := List.concat_ne_nil _ _
  chars := List.forall_mem_append.mpr ⟨h.chars, List.forall_mem_singleton.mpr (by decide)⟩
  front := by
    rw [List.head?_append_of_ne_nil _ h.nonempty]
    exact h.front
  spaced := by
    have hcs := (List.isChain_append.mp h.spaced).1
    rw [List.append_assoc]
    exact hcs.append (List.isChain_pair.mpr fun heq => absurd heq (by decide))
      fun c _ d hd _ => Option.some.inj hd ▸ by decide
  closed := h.closed.append (.word (List.forall_mem_singleton.mpr rfl))

theorem isPassage (h : IsLine cs) : Token.IsPassage [] cs where
  chars := h.chars
  spaced := h.spaced
  nested := by
    have hclosed := h.closed [] []
    rw [List.append_nil] at hclosed
    exact hclosed.mpr rfl

theorem isBlank_of_isPassageChar {c : Char} (h : isPassageChar c = true) (hc : c ≠ ' ') :
    isBlank c = false := by
  rcases isPassageChar_cases h with h | rfl | h
  · exact isBlank_of_isWordChar h
  · exact absurd rfl hc
  · fin_cases h <;> decide

/-- The only blank in a passage is the space, which stands at neither end of a line. -/
theorem isTrimmed (h : IsLine cs) : IsTrimmed cs where
  nonempty := h.nonempty
  front c hc := isBlank_of_isPassageChar (h.chars c (List.mem_of_mem_head? hc)) (h.front c hc)
  back c hc := by
    have hlast : c ≠ ' ' := fun heq =>
      (List.isChain_append.mp h.spaced).2.2 c hc ' ' rfl heq rfl
    exact isBlank_of_isPassageChar (h.chars c (List.mem_of_getLast? hc)) hlast

end IsLine

/-- Items with one space between them are an item. -/
theorem IsItem.join (h : IsItem cs) (h' : IsItem ds) : IsItem (cs ++ ' ' :: ds) where
  toIsLine := h.toIsLine.join h'.toIsLine
  noComma := List.forall_mem_append.mpr
    ⟨h.noComma, List.forall_mem_cons.mpr ⟨by decide, h'.noComma⟩⟩
  bound := by
    have hspace : IsBound [' '] := .word (List.forall_mem_singleton.mpr (by decide))
    exact h.bound.append (hspace.append h'.bound)

end Text

/-! ## Words -/

/-- What stands in the test of an attribute. -/
theorem isSolid_test {cs : List Char} (h : ∀ c ∈ cs, isWordChar c = true ∨ c = '=') :
    IsSolid cs where
  chars c hc := by rcases h c hc with h | rfl <;> simp_all [isPassageChar, passageMarks]
  noSeparator c hc := by
    rcases h c hc with h | rfl
    · refine ⟨?_, ?_⟩ <;> rintro rfl <;> exact absurd h (by decide)
    · decide
  closed := .word fun c hc => by
    rcases h c hc with h | rfl
    · exact Token.isBracket_of_isWordOrDot (by simp [Token.isWordOrDot, h])
    · decide
  bound := .word fun c hc => by
    rcases h c hc with h | rfl
    · rintro rfl
      exact absurd h (by decide)
    · decide

theorem isSolid_word {cs : List Char} (h : ∀ c ∈ cs, isWordChar c = true) : IsSolid cs :=
  isSolid_test fun c hc => Or.inl (h c hc)

end Scss
