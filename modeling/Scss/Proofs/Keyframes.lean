import Scss.Proofs.Splitting

/-!
# Steps of keyframes

The block of a step of keyframes is read like a rule, so `from`, `to` and percentages are read as
selectors. A percent sign belongs to the digits in front of it, and the step is the name of an element.
But a point among the digits begins a class, which leaves the percent sign to begin a placeholder. There
is no name behind it, so the step cannot be read.
-/

namespace Scss

open Text Selector

/-- Digits, at least one. -/
structure Digits where
  text : String
  nonempty : text.toList ≠ []
  digits : ∀ c ∈ text.toList, c.isDigit = true

theorem Digits.isName (d : Digits) : IsName d.text :=
  ⟨d.nonempty, fun c hc => Token.isWordChar_of_isDigit (d.digits c hc)⟩

/-- A step of keyframes. -/
inductive KeyframeStep where
  | start
  | finish
  | percent (whole : Digits) (decimals : Option Digits)

namespace KeyframeStep

def text : KeyframeStep → String
  | start => "from"
  | finish => "to"
  | percent whole none => whole.text ++ "%"
  | percent whole (some decimals) => whole.text ++ "." ++ decimals.text ++ "%"

def hasDecimals : KeyframeStep → Bool
  | percent _ (some _) => true
  | _ => false

/-- The step as a selector. -/
def selector (step : KeyframeStep) : Selector := .ofCompound (.ofList [.element step.text])

/-- A step is a piece of a list. -/
theorem isPiece_text (step : KeyframeStep) : IsPiece step.text.toList := by
  cases step with
  | start => exact .name (by decide)
  | finish => exact .name (by decide)
  | percent whole decimals =>
    have hsign : ∀ {c : Char}, IsPlain c → IsPiece [c] := fun hc =>
      .plain (List.forall_mem_singleton.mpr hc)
    have hpercent : IsPiece ['%'] := hsign (by decide)
    have hpoint : IsPiece ['.'] := hsign (by decide)
    cases decimals with
    | none => simpa [text] using (IsPiece.name whole.isName).append hpercent
    | some decimals =>
        simpa [text] using (IsPiece.name whole.isName).append
          (hpoint.append ((IsPiece.name decimals.isName).append hpercent))

theorem isTrimmed_text (step : KeyframeStep) : IsTrimmed step.text.toList := by
  cases step with
  | start => exact SimpleSelector.isTrimmed_name (by decide)
  | finish => exact SimpleSelector.isTrimmed_name (by decide)
  | percent whole decimals =>
    have hwhole := SimpleSelector.isTrimmed_name whole.isName
    have hpercent : IsTrimmed ['%'] := .singleton (by decide)
    cases decimals with
    | none => simpa [text] using hwhole.append [] hpercent
    | some decimals => simpa [text] using hwhole.append ('.' :: decimals.text.toList) hpercent

/-- Behind a point, the decimals of a step are read as a class, and its sign as a placeholder without a
name. -/
theorem readParts_decimals (whole decimals : Digits) {fuel : Nat}
    (hfuel : (percent whole (some decimals)).text.toList.length ≤ fuel) :
    readParts fuel [] (percent whole (some decimals)).text.toList =
      .error (.missingName "placeholder") := by
  have htext : (percent whole (some decimals)).text.toList =
      whole.text.toList ++ ((SimpleSelector.ofClass decimals.text).text.toList ++ ['%']) := by
    simp [text, SimpleSelector.text]
  have hends : ∀ {c : Char} {more : List Char}, EndsName c → ∀ d ∈ (c :: more).head?, EndsName d :=
    fun hc d hd => Option.some.inj hd ▸ hc
  have hpoint : (SimpleSelector.ofClass decimals.text).text.toList ++ ['%'] =
      '.' :: (decimals.text.toList ++ ['%']) := by simp [SimpleSelector.text]
  have hwhole : ReadsAs whole.text.toList
      ((SimpleSelector.ofClass decimals.text).text.toList ++ ['%']) (.element whole.text) := by
    rw [hpoint]
    exact readsAs_element whole.isName (hends ⟨by decide, by decide⟩) (by simp)
  have hdecimals : ReadsAs (SimpleSelector.ofClass decimals.text).text.toList ['%']
      (.ofClass decimals.text) := by
    refine readsAs_text decimals.isName rfl fun d hd => ?_
    obtain rfl := Option.some.inj hd
    exact ⟨⟨by decide, by decide⟩, by decide⟩
  rw [htext] at hfuel ⊢
  -- the digits end at the point, and the decimals at the sign, behind which no name is left
  obtain ⟨fuel', hfuel', hstep⟩ := hwhole.readParts_eq rfl hfuel []
  obtain ⟨fuel'', hfuel'', hstep'⟩ := hdecimals.readParts_eq rfl hfuel' ([] ++ [.element whole.text])
  rw [hstep, hstep']
  obtain ⟨last, rfl⟩ : ∃ last, fuel'' = last + 1 := Nat.exists_eq_succ_of_ne_zero (by
    rintro rfl
    cases hfuel'')
  rfl

/-- **What is read of a step.** -/
theorem ofChars_text (step : KeyframeStep) : ofChars step.text.toList =
    if step.hasDecimals then .error (.missingName "placeholder") else .ok step.selector := by
  cases step with
  | start => rfl
  | finish => rfl
  | percent whole decimals =>
    obtain ⟨c, rest, hwhole⟩ := List.exists_cons_of_ne_nil whole.nonempty
    have hc : isWordChar c = true := whole.isName.2 c (hwhole ▸ List.mem_cons_self)
    have hblank := isBlank_of_isWordChar hc
    have hends := endsCompound_of_isWordChar hc
    cases decimals with
    | none =>
        obtain ⟨d, more, hmore, -, hread⟩ := readsAs_percent whole.isName []
        have htext : (percent whole none).text.toList = d :: more := by simp [text, ← hmore]
        obtain ⟨rfl, -⟩ : c = d ∧ _ := by simpa [hwhole] using hmore
        rw [List.append_nil] at hread
        rw [htext]
        exact ofChars_of_readSimple hblank hends hread
    | some decimals =>
        have hparts := readParts_decimals whole decimals le_rfl
        obtain ⟨more, htext⟩ : ∃ more, (percent whole (some decimals)).text.toList = c :: more := by
          simp [text, hwhole]
        rw [htext] at hparts ⊢
        have htrimmed : dropBlanks (c :: more) = c :: more :=
          List.dropWhile_cons_of_neg (by simp [hblank])
        rw [ofChars, htrimmed, readSegments, combinatorOf?_eq_none hends, readCompound, hparts]
        rfl

variable {steps : List KeyframeStep} {pieces : List String}

/-- How a list is read at a step. -/
theorem readPiece_step {step : KeyframeStep} {piece : List Char} (h : IsPadded step.text piece)
    (text : String) (position : Position) :
    (let trimmed := dropBlanksEnd (dropBlanks piece)
    if trimmed.isEmpty then Except.error (Failure.parse position (.selectorList (trim text)))
    else (ofChars trimmed).mapError fun fault =>
      Failure.parse position (.selector fault (String.ofList trimmed))) =
    if step.hasDecimals then
      .error (.parse position (.selector (.missingName "placeholder") step.text))
    else .ok step.selector := by
  have htrimmed := step.isTrimmed_text
  have hdrop : dropBlanksEnd (dropBlanks piece) = step.text.toList := by
    obtain ⟨front, back, hfront, hback, rfl⟩ := h
    have hblanks : dropBlanks (front ++ (step.text.toList ++ back)) =
        dropBlanks (step.text.toList ++ back) := List.dropWhile_append_of_pos hfront
    rw [hblanks, htrimmed.dropBlanks_append, htrimmed.dropBlanksEnd_append hback]
  rw [readPiece_eq hdrop htrimmed.nonempty, step.ofChars_text, String.ofList_toList]
  split <;> rfl

/-- With blanks around it, a step is a piece of a list. -/
theorem isPiece_padded {step : KeyframeStep} {piece : List Char} (h : IsPadded step.text piece) :
    IsPiece piece := by
  obtain ⟨front, back, hfront, hback, rfl⟩ := h
  have hblanks : ∀ {blanks : List Char}, (∀ c ∈ blanks, isBlank c = true) → IsPiece blanks :=
    fun hblanks => .plain fun c hc => isPlain_of_isBlank (hblanks c hc)
  exact (hblanks hfront).append (step.isPiece_text.append (hblanks hback))

theorem text_selector (step : KeyframeStep) : step.selector.text = step.text := by
  show String.join [step.text] ++ String.join [] = step.text
  simp

/--
**Steps of keyframes are read as selectors that are printed as the same text**, but for those with decimals.
Take any list of steps, not empty, with blanks around each of them or not, and commas between them. If none
of them has decimals, what is read is the list of their selectors. If there is one, the list cannot be
read, and the fault is that a placeholder of the first such step has no name.
-/
theorem readList_steps (hne : steps ≠ [])
    (h : List.Forall₂ (fun step piece => IsPadded step.text piece.toList) steps pieces)
    (position : Position) :
    (readList (",".intercalate pieces) position = steps.mapM fun step =>
      if step.hasDecimals then
        .error (.parse position (.selector (.missingName "placeholder") step.text))
      else .ok step.selector) ∧
    ((∀ step ∈ steps, step.hasDecimals = false) →
      readList (",".intercalate pieces) position = .ok (steps.map selector)) ∧
    ∀ step ∈ steps, step.selector.text = step.text := by
  have hpieces : ∀ piece ∈ pieces.map String.toList, IsPiece piece := by
    intro piece hpiece
    obtain ⟨piece, hmem, rfl⟩ := List.mem_map.mp hpiece
    obtain ⟨step, -, hpadded⟩ := exists_of_mem_forall₂ h hmem
    exact isPiece_padded hpadded
  have hsplit : splitList none 0 (",".intercalate pieces).toList = pieces.map String.toList := by
    cases h with
    | nil => exact absurd rfl hne
    | @cons _ piece _ later _ _ =>
        obtain ⟨hpiece, hlater⟩ := List.forall_mem_cons.mp hpieces
        rw [toList_intercalate_cons]
        exact splitList_flatMap hpiece hlater
  -- the commas between the steps are the only ones, so that every step is a piece by itself
  have hread : readList (",".intercalate pieces) position = steps.mapM fun step =>
      if step.hasDecimals then
        .error (.parse position (.selector (.missingName "placeholder") step.text))
      else .ok step.selector := by
    rw [readList, hsplit]
    generalize ",".intercalate pieces = text
    clear hpieces hsplit hne
    induction h with
    | nil => rfl
    | cons hpadded _ ih =>
        rw [List.map_cons, List.mapM_cons, List.mapM_cons, ih, readPiece_step hpadded]
  refine ⟨hread, fun hdecimals => ?_, fun step _ => step.text_selector⟩
  rw [hread]
  refine mapM_eq_ok_of_forall fun step hstep => ?_
  rw [hdecimals step hstep]
  rfl

/-- A text that is checked to be digits. -/
def ofDigits (text : String) (h : text.toList ≠ [] ∧ text.toList.all Char.isDigit = true) : Digits :=
  ⟨text, h.1, List.all_eq_true.mp h.2⟩

/-- `from, 50%, to` -/
def fromHalfTo : List KeyframeStep := [start, percent (ofDigits "50" (by decide)) none, finish]

theorem fromHalfTo_read : fromHalfTo ≠ [] ∧
    List.Forall₂ (fun step piece => IsPadded step.text piece.toList) fromHalfTo ["from", " 50%", " to"] ∧
    readList (",".intercalate ["from", " 50%", " to"]) (.start "input.scss") =
      .ok (fromHalfTo.map selector) := by
  have hne : fromHalfTo ≠ [] := List.cons_ne_nil _ _
  have hpadded : List.Forall₂ (fun step piece => IsPadded step.text piece.toList) fromHalfTo
      ["from", " 50%", " to"] := by
    have hspace : ∀ c ∈ [' '], isBlank c = true := List.forall_mem_singleton.mpr (by decide)
    have hnone : ∀ c ∈ ([] : List Char), isBlank c = true := fun _ h => absurd h List.not_mem_nil
    exact .cons ⟨[], [], hnone, hnone, by decide⟩ (.cons ⟨[' '], [], hspace, hnone, by decide⟩
      (.cons ⟨[' '], [], hspace, hnone, by decide⟩ .nil))
  exact ⟨hne, hpadded, (readList_steps hne hpadded _).2.1 (by decide)⟩

/-- `12.5%` is not read. -/
theorem decimals_unread :
    (percent (ofDigits "12" (by decide)) (some (ofDigits "5" (by decide)))).text = "12.5%" ∧
      readList "12.5%" (.start "input.scss") =
        .error (.parse (.start "input.scss") (.selector (.missingName "placeholder") "12.5%")) :=
  ⟨by decide, by cbv⟩

end KeyframeStep

end Scss
