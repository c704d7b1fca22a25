import Scss.Proofs.SimpleText

/-!
# Compounds are read back as they are written

In the text of a compound nothing separates its parts. Where each of them can be read and only the first
tests the element, they are found again all the same, with one exception: a percent sign behind the
name of an element belongs to the name, like that of `50%` in keyframes. So the placeholder of `a%b` is
lost, and what is read are the two elements `a%` and `b`.
-/

namespace Scss

open Text

namespace Selector

/-! ## Compounds -/

/-- What is read of the name of an element and the parts behind it: the mark of a placeholder goes to
the name, and what is left of the placeholder is the name of an element again. -/
def readBehind (name : String) : List SimpleSelector → List SimpleSelector
  | .placeholder mark :: rest => .element (name ++ "%") :: readBehind mark rest
  | rest => .element name :: rest

/-- What is read of the parts of a compound. -/
def reread : List SimpleSelector → List SimpleSelector
  | .element name :: rest => readBehind name rest
  | parts => parts

end Selector

namespace Compound

open SimpleSelector

/-- A compound that can be written: it has parts, each of which can be read, and only the first tests the
element. -/
structure IsLegible (c : Compound) : Prop where
  nonempty : c.parts ≠ []
  legible : ∀ x ∈ c.parts, x.IsLegible
  elementFirst : ∀ x ∈ c.parts.tail, x.isElementTest = false

instance (c : Compound) : Decidable c.IsLegible :=
  decidable_of_iff
    (c.parts ≠ [] ∧ (∀ x ∈ c.parts, x.IsLegible) ∧ ∀ x ∈ c.parts.tail, x.isElementTest = false)
    ⟨fun h => ⟨h.1, h.2.1, h.2.2⟩, fun h => ⟨h.nonempty, h.legible, h.elementFirst⟩⟩

/-- What is read of the text of the compound. -/
def asRead (c : Compound) : Compound := ofList (Selector.reread c.parts)

/-- Whether the compound begins with the name of an element and a placeholder right behind it. -/
def joinsPlaceholder (c : Compound) : Bool :=
  match c.parts with
  | .element _ :: .placeholder _ :: _ => true
  | _ => false

/-- **A compound is read as it is, unless a placeholder stands right behind the name of an element.** -/
theorem asRead_eq_iff (c : Compound) : c.asRead = c ↔ c.joinsPlaceholder = false := by
  unfold joinsPlaceholder
  split
  next name mark rest hparts =>
    have hread : c.asRead.elementTest? = some (.element (name ++ "%")) := by
      rw [elementTest?, asRead, ofList, find?_foldl_addNew, hparts]
      rfl
    have hwritten : c.elementTest? = some (.element name) := by
      rw [elementTest?, hparts]
      rfl
    refine iff_of_false (fun h => ?_) (by decide)
    rw [h, hwritten] at hread
    have hlength := congrArg String.length (element.inj (Option.some.inj hread))
    simp at hlength
  next hother =>
    have hreread : Selector.reread c.parts = c.parts := by
      unfold Selector.reread
      split
      next name rest hparts =>
        unfold Selector.readBehind
        split
        · exact absurd hparts (hother _ _ _)
        · exact hparts.symm
      · rfl
    exact iff_of_true (by rw [asRead, hreread, ofList_parts]) rfl

end Compound

namespace Selector

open SimpleSelector

variable {name : String} {behind : List Char} {xs : List SimpleSelector} {c : Compound}

/-- All but the tests of an element begin with a mark, which ends the part in front of them. -/
theorem exists_mark {y : SimpleSelector} (h : y.IsLegible) (helement : y.isElementTest = false) :
    ∃ c more, y.text.toList = c :: more ∧ EndsName c ∧ c ≠ '(' ∧ (c = '%' → y.isPlaceholder = true) ∧
      isBlank c = false := by
  have hmark : ∀ {c : Char} {more : List Char}, c ∈ ['#', '.', '[', ':'] →
      y.text.toList = c :: more → ∃ c more, y.text.toList = c :: more ∧ EndsName c ∧ c ≠ '(' ∧
        (c = '%' → y.isPlaceholder = true) ∧ isBlank c = false := by
    intro c more hc htext
    refine ⟨c, more, htext, ?_⟩
    fin_cases hc <;>
      exact ⟨⟨by decide, by decide⟩, by decide, fun h => absurd h (by decide), by decide⟩
  cases y with
  | element name => cases helement
  | universal => cases helement
  | id name => exact hmark (c := '#') (by decide) (by simp [SimpleSelector.text]; rfl)
  | ofClass name => exact hmark (c := '.') (by decide) (by simp [SimpleSelector.text]; rfl)
  | «attribute» test => exact hmark (c := '[') (by decide) (by simp [SimpleSelector.text]; rfl)
  | pseudoClass name argument => exact hmark (by decide) (text_pseudoClass name argument)
  | pseudoElement name argument => exact hmark (by decide) (text_pseudoElement name argument)
  | placeholder name =>
      exact ⟨'%', name.toList, by simp [SimpleSelector.text], ⟨by decide, by decide⟩, by decide,
        fun _ => rfl, by decide⟩
  | parent suffix => exact h.elim

/-- What stands behind a compound. -/
def AtSpace (behind : List Char) : Prop := ∀ d ∈ behind.head?, d = ' '

theorem AtSpace.endsPart (h : AtSpace behind) : EndsPart behind := by
  intro d hd
  rw [h d hd]
  exact ⟨⟨by decide, by decide⟩, by decide⟩

theorem AtSpace.head?_ne (h : AtSpace behind) : behind.head? ≠ some '%' := fun heq =>
  absurd (h '%' heq) (by decide)

/-- The simple selectors of a compound, in the order in which they are written. -/
def partsText (xs : List SimpleSelector) : List Char := xs.flatMap fun x => x.text.toList

theorem partsText_cons (x : SimpleSelector) (xs : List SimpleSelector) :
    partsText (x :: xs) = x.text.toList ++ partsText xs := List.flatMap_cons

theorem text_compound (c : Compound) : c.text.toList = partsText c.parts := by
  simp [Compound.text, partsText, String.toList_join, List.flatMap_map]

/-- Parts that do not test the element can stand behind another part. -/
theorem endsPart_partsText (hlegible : ∀ x ∈ xs, x.IsLegible)
    (helement : ∀ x ∈ xs, x.isElementTest = false) (hbehind : AtSpace behind) :
    EndsPart (partsText xs ++ behind) := by
  cases xs with
  | nil => exact hbehind.endsPart
  | cons y ys =>
      obtain ⟨c, more, htext, hends, hparen, -⟩ :=
        exists_mark (hlegible y List.mem_cons_self) (helement y List.mem_cons_self)
      intro d hd
      rw [partsText_cons, htext] at hd
      obtain rfl := Option.some.inj hd
      exact ⟨hends, hparen⟩

theorem readParts_end (hbehind : AtSpace behind) (fuel : Nat) (parts : List SimpleSelector) :
    readParts fuel parts behind = .ok (parts, behind) := by
  cases fuel with
  | zero => rfl
  | succ fuel =>
      cases behind with
      | nil => rfl
      | cons d behind =>
          obtain rfl : d = ' ' := hbehind d rfl
          rfl

/-- One part is read, and then those behind it. -/
theorem ReadsAs.readParts_eq {cs : List Char} {x : SimpleSelector} (h : ReadsAs cs behind x)
    (hparent : x.isParent = false) {fuel : Nat} (hfuel : (cs ++ behind).length ≤ fuel)
    (parts : List SimpleSelector) : ∃ fuel', behind.length ≤ fuel' ∧
      readParts fuel parts (cs ++ behind) = readParts fuel' (parts ++ [x]) behind := by
  obtain ⟨c, rest, rfl, hgoes, hread⟩ := h
  rw [List.cons_append, List.length_cons, List.length_append] at hfuel
  obtain ⟨fuel, rfl⟩ : ∃ f, fuel = f + 1 := ⟨fuel - 1, by omega⟩
  refine ⟨fuel, by omega, ?_⟩
  rw [List.cons_append, readParts, if_neg (by simp [hgoes]), hread]
  show (if (x.isParent && !parts.isEmpty) = true then _ else _) = _
  rw [hparent, Bool.false_and, if_neg (by decide)]

/-- Parts that do not test the element. -/
theorem readParts_marks (hlegible : ∀ x ∈ xs, x.IsLegible)
    (helement : ∀ x ∈ xs, x.isElementTest = false) (hbehind : AtSpace behind) {fuel : Nat}
    (hfuel : (partsText xs ++ behind).length ≤ fuel) (parts : List SimpleSelector) :
    readParts fuel parts (partsText xs ++ behind) = .ok (parts ++ xs, behind) := by
  induction xs generalizing fuel parts with
  | nil =>
      rw [List.append_nil]
      exact readParts_end hbehind fuel parts
  | cons x xs ih =>
      obtain ⟨hx, hlegible⟩ := List.forall_mem_cons.mp hlegible
      obtain ⟨hxelement, helement⟩ := List.forall_mem_cons.mp helement
      have hname : x.isElement = false := by
        cases x with
        | element name => cases hxelement
        | _ => rfl
      have hreads := readsAs_text hx hname (endsPart_partsText hlegible helement hbehind)
      rw [partsText_cons, List.append_assoc] at hfuel ⊢
      obtain ⟨fuel', hfuel', hstep⟩ := hreads.readParts_eq hx.isParent hfuel parts
      rw [hstep, ih hlegible helement hfuel', List.append_assoc]
      rfl

/-- The name of an element and the parts behind it. -/
theorem readParts_element (hname : IsName name) (hlegible : ∀ x ∈ xs, x.IsLegible)
    (helement : ∀ x ∈ xs, x.isElementTest = false) (hbehind : AtSpace behind) {fuel : Nat}
    (hfuel : (name.toList ++ (partsText xs ++ behind)).length ≤ fuel)
    (parts : List SimpleSelector) :
    readParts fuel parts (name.toList ++ (partsText xs ++ behind)) =
      .ok (parts ++ readBehind name xs, behind) := by
  induction name, xs using readBehind.induct generalizing fuel parts with
  | case1 name mark rest ih =>
      obtain ⟨hmark, hlegible⟩ := List.forall_mem_cons.mp hlegible
      obtain ⟨-, helement⟩ := List.forall_mem_cons.mp helement
      have htext : name.toList ++ (partsText (.placeholder mark :: rest) ++ behind) =
          (name.toList ++ ['%']) ++ (mark.toList ++ (partsText rest ++ behind)) := by
        rw [partsText_cons]
        simp [SimpleSelector.text]
      rw [htext] at hfuel ⊢
      obtain ⟨fuel', hfuel', hstep⟩ :=
        (readsAs_percent hname (mark.toList ++ (partsText rest ++ behind))).readParts_eq rfl hfuel parts
      rw [hstep, ih hmark hlegible helement hfuel', readBehind, List.append_assoc]
      rfl
  | case2 name xs hother =>
      -- a placeholder behind the name would have been taken with it
      have hpercent : (partsText xs ++ behind).head? ≠ some '%' := by
        cases xs with
        | nil => exact hbehind.head?_ne
        | cons y ys =>
            obtain ⟨c, more, htext, -, -, hplaceholder, -⟩ :=
              exists_mark (hlegible y List.mem_cons_self) (helement y List.mem_cons_self)
            rw [partsText_cons, htext]
            intro heq
            have hy := hplaceholder (Option.some.inj heq)
            cases y with
            | placeholder mark => exact hother mark ys rfl
            | _ => cases hy
      have hends : ∀ d ∈ (partsText xs ++ behind).head?, EndsName d := fun d hd =>
        (endsPart_partsText hlegible helement hbehind d hd).1
      obtain ⟨fuel', hfuel', hstep⟩ :=
        (readsAs_element hname hends hpercent).readParts_eq rfl hfuel parts
      have hreads : readBehind name xs = .element name :: xs := by
        rw [readBehind]
        exact hother
      rw [hstep, readParts_marks hlegible helement hbehind hfuel', hreads, List.append_assoc]
      rfl

/-- **What is read of the parts of a compound.** -/
theorem readParts_text (hlegible : ∀ x ∈ xs, x.IsLegible)
    (helement : ∀ x ∈ xs.tail, x.isElementTest = false) (hbehind : AtSpace behind) {fuel : Nat}
    (hfuel : (partsText xs ++ behind).length ≤ fuel) :
    readParts fuel [] (partsText xs ++ behind) = .ok (reread xs, behind) := by
  unfold reread
  split
  next name rest =>
    obtain ⟨hname, hlegible⟩ := List.forall_mem_cons.mp hlegible
    rw [partsText_cons, List.append_assoc] at hfuel ⊢
    exact readParts_element hname hlegible helement hbehind hfuel []
  next hother =>
    cases xs with
    | nil => exact readParts_end hbehind fuel []
    | cons x xs =>
        obtain ⟨hx, hlegible⟩ := List.forall_mem_cons.mp hlegible
        have hname : x.isElement = false := by
          cases x with
          | element name => exact absurd rfl (hother name xs)
          | _ => rfl
        have hreads := readsAs_text hx hname (endsPart_partsText hlegible helement hbehind)
        rw [partsText_cons, List.append_assoc] at hfuel ⊢
        obtain ⟨fuel', hfuel', hstep⟩ := hreads.readParts_eq hx.isParent hfuel []
        rw [hstep, readParts_marks hlegible helement hbehind hfuel']
        rfl

theorem reread_ne_nil (h : xs ≠ []) : reread xs ≠ [] := by
  unfold reread
  split
  · unfold readBehind
    split <;> exact List.cons_ne_nil _ _
  · exact h

/-- **What is read of a compound.** -/
theorem readCompound_text (hc : c.IsLegible) (hbehind : AtSpace behind) :
    readCompound (c.text.toList ++ behind) = .ok (c.asRead, behind) := by
  rw [text_compound, readCompound, readParts_text hc.legible hc.elementFirst hbehind le_rfl]
  show (if (reread c.parts).isEmpty = true then _ else _) = _
  rw [if_neg (by simpa using reread_ne_nil hc.nonempty)]
  rfl

end Selector

namespace Compound.IsLegible

open Selector

variable {c : Compound}

theorem isPiece (h : c.IsLegible) : IsPiece c.text.toList := by
  have hparts : ∀ xs : List SimpleSelector, (∀ x ∈ xs, x.IsLegible) → IsPiece (partsText xs) := by
    intro xs
    induction xs with
    | nil => exact fun _ => .plain fun _ h => absurd h List.not_mem_nil
    | cons x xs ih =>
        intro hlegible
        obtain ⟨hx, hlegible⟩ := List.forall_mem_cons.mp hlegible
        exact partsText_cons x xs ▸ hx.isPiece.append (ih hlegible)
  exact text_compound c ▸ hparts _ h.legible

theorem isTrimmed (h : c.IsLegible) : IsTrimmed c.text.toList := by
  have hparts : ∀ xs : List SimpleSelector, xs ≠ [] → (∀ x ∈ xs, x.IsLegible) →
      IsTrimmed (partsText xs) := by
    intro xs
    induction xs with
    | nil => exact fun hne => absurd rfl hne
    | cons x xs ih =>
        intro _ hlegible
        obtain ⟨hx, hlegible⟩ := List.forall_mem_cons.mp hlegible
        rw [partsText_cons]
        cases xs with
        | nil => simpa [partsText] using hx.isTrimmed
        | cons y ys => exact hx.isTrimmed.append [] (ih (List.cons_ne_nil y ys) hlegible)
  exact text_compound c ▸ hparts _ h.nonempty h.legible

theorem exists_front (h : c.IsLegible) :
    ∃ d rest, c.text.toList = d :: rest ∧ endsCompound d = false := by
  obtain ⟨x, xs, hparts⟩ := List.exists_cons_of_ne_nil h.nonempty
  have hx : x.IsLegible := h.legible x (hparts ▸ List.mem_cons_self)
  have hreads : ReadsAs x.text.toList [] x := by
    cases x with
    | element name => exact readsAs_element hx (fun _ hd => nomatch hd) nofun
    | _ => exact readsAs_text hx rfl fun _ hd => nomatch hd
  obtain ⟨d, rest, htext, hends, -⟩ := hreads
  refine ⟨d, rest ++ partsText xs, ?_, hends⟩
  rw [text_compound, hparts, partsText_cons, htext]
  rfl

end Compound.IsLegible

end Scss
