import Scss.Proofs.Passages

/-!
# Numbers, and a dash behind them

Behind an operand a dash does not begin a number. So between two numbers it subtracts, if the first one
ends in front of it. It does if it has no unit, or if its unit is a percent sign. But a unit in letters is
read as names are, and names go on with dashes and digits: `10px-5` is one number, with the unit `px-5`.
-/

namespace Scss.Token

open Text

/-- A decimal number without a sign: digits, or a point with digits behind it and perhaps some in
front. -/
structure Numeral where
  whole : List Char
  decimals : List Char
  digits : ∀ c ∈ whole ++ decimals, c.isDigit = true
  nonempty : whole ++ decimals ≠ []

namespace Numeral

/-- The point and the decimals, if there are any. -/
def fraction (n : Numeral) : List Char := if n.decimals = [] then [] else '.' :: n.decimals

def text (n : Numeral) : List Char := n.whole ++ n.fraction

/-- All digits as one whole number, divided by ten for each of the decimals. -/
def value (n : Numeral) : Float :=
  Float.ofScientific ((n.whole ++ n.decimals).foldl (fun k c => 10 * k + (c.toNat - '0'.toNat)) 0)
    true n.decimals.length

/-- The decimals, with the point, as a number of their own. -/
def ofFraction? (n : Numeral) : Option Numeral :=
  if h : n.decimals = [] then none
  else some ⟨[], n.decimals, fun c hc => n.digits c (List.mem_append_right n.whole hc), h⟩

variable (n : Numeral)

theorem isDigit_whole : ∀ c ∈ n.whole, c.isDigit = true :=
  fun c hc => n.digits c (List.mem_append_left n.decimals hc)

theorem isDigit_decimals : ∀ c ∈ n.decimals, c.isDigit = true :=
  fun c hc => n.digits c (List.mem_append_right n.whole hc)

theorem text_of_ofFraction? {n m : Numeral} (h : n.ofFraction? = some m) : m.text = n.fraction := by
  unfold ofFraction? at h
  split at h
  · cases h
  · obtain rfl := Option.some.inj h
    rfl

theorem fraction_of_ofFraction? {n : Numeral} (h : n.ofFraction? = none) : n.fraction = [] := by
  unfold ofFraction? at h
  split at h
  next hdecimals => exact if_pos hdecimals
  · cases h

end Numeral

/-! ## Reading a number -/

/-- What can follow a numeral. -/
def EndsNumeral (behind : List Char) : Prop := ∀ c ∈ behind.head?, c.isDigit = false ∧ c ≠ '.'

theorem spanNumeral_end {behind : List Char} (h : EndsNumeral behind) (pointSeen : Bool) :
    spanNumeral pointSeen behind = [] := by
  cases behind with
  | nil => rfl
  | cons c rest =>
      obtain ⟨hdigit, hpoint⟩ := h c rfl
      simp [spanNumeral, hdigit, hpoint]

theorem spanNumeral_digits {digits : List Char} (h : ∀ c ∈ digits, c.isDigit = true)
    (pointSeen : Bool) (behind : List Char) :
    spanNumeral pointSeen (digits ++ behind) = digits ++ spanNumeral pointSeen behind := by
  induction digits with
  | nil => rfl
  | cons c digits ih =>
      obtain ⟨hc, hdigits⟩ := List.forall_mem_cons.mp h
      rw [List.cons_append, spanNumeral, if_pos hc, ih hdigits, List.cons_append]

namespace Numeral

variable (n : Numeral) {behind : List Char}

theorem spanNumeral_decimals (h : EndsNumeral behind) (pointSeen : Bool) :
    spanNumeral pointSeen (n.decimals ++ behind) = n.decimals := by
  rw [spanNumeral_digits n.isDigit_decimals, spanNumeral_end h, List.append_nil]

/-- A point belongs to the number, as there are digits behind it. -/
theorem spanNumeral_fraction (h : EndsNumeral behind) :
    spanNumeral false (n.fraction ++ behind) = n.fraction := by
  unfold fraction
  split
  · exact spanNumeral_end h false
  next hne =>
    obtain ⟨d, decimals, hdecimals⟩ := List.exists_cons_of_ne_nil hne
    have hd : d.isDigit = true := n.isDigit_decimals d (hdecimals ▸ List.mem_cons_self)
    have hspan := n.spanNumeral_decimals h true
    rw [hdecimals] at hspan ⊢
    rw [List.cons_append, spanNumeral, if_neg (by decide), if_pos (by simp [hd]), hspan]

theorem numeralValue_text : numeralValue n.text = n.value := by
  have hwhole : ∀ c ∈ n.whole, (c != '.') = true := by
    intro c hc
    have hdigit := n.isDigit_whole c hc
    simp only [bne_iff_ne, ne_eq]
    rintro rfl
    cases hdigit
  have htake : n.text.takeWhile (· != '.') = n.whole := by
    rw [text, List.takeWhile_append_of_pos hwhole]
    unfold fraction
    split <;> simp
  have hdrop : (n.text.dropWhile (· != '.')).drop 1 = n.decimals := by
    rw [text, List.dropWhile_append_of_pos hwhole]
    unfold fraction
    split
    next hdecimals => simp [hdecimals]
    next => simp
  simp only [numeralValue, value, htake, hdrop]

/-- **A number and its unit**, where the number ends and the unit is what is read as one. -/
theorem scan_text {signed : Bool} {c : Char} {more unit behind : List Char} (htext : n.text = c :: more)
    (hend : EndsNumeral (unit ++ behind)) (hunit : spanUnit (unit ++ behind) = unit) :
    scan signed c (more ++ unit ++ behind) =
      .token (.number n.value (String.ofList unit)) (more ++ unit) := by
  have hnumber : ∀ front, spanNumeral (front.contains '.') (more ++ (unit ++ behind)) = more →
      front ++ more = n.text → scanNumber front (more ++ (unit ++ behind)) false =
        .token (.number n.value (String.ofList unit)) (more ++ unit) := by
    intro front hspan hfront
    simp only [scanNumber, hspan, List.drop_left, hunit, hfront, numeralValue_text]
    rfl
  rw [List.append_assoc]
  -- a number begins with a digit of its whole part or, where it has none, with the point
  cases hwhole : n.whole with
  | cons d whole =>
      have hd : d.isDigit = true := n.isDigit_whole d (hwhole ▸ List.mem_cons_self)
      have hdigits : ∀ c ∈ whole, c.isDigit = true :=
        fun c hc => n.isDigit_whole c (hwhole ▸ List.mem_cons_of_mem d hc)
      rw [text, hwhole, List.cons_append] at htext
      obtain ⟨rfl, rfl⟩ := List.cons.inj htext
      have hpoint : [d].contains '.' = false := by
        rw [List.contains_cons, List.contains_nil, Bool.or_false, beq_eq_false_iff_ne]
        rintro rfl
        cases hd
      rw [scan_digit hd]
      refine hnumber [d] ?_ ?_
      · rw [hpoint, List.append_assoc, spanNumeral_digits hdigits, n.spanNumeral_fraction hend]
      · rw [text, hwhole]
        rfl
  | nil =>
      have hdecimals : n.decimals ≠ [] := fun h => n.nonempty (by rw [hwhole, h]; rfl)
      rw [text, hwhole, List.nil_append, fraction, if_neg hdecimals] at htext
      obtain ⟨rfl, rfl⟩ := List.cons.inj htext
      obtain ⟨d, decimals, hd⟩ := List.exists_cons_of_ne_nil hdecimals
      have hdigit : d.isDigit = true := n.isDigit_decimals d (hd ▸ List.mem_cons_self)
      rw [scan_dot, if_pos (by simp [hd, hdigit])]
      refine hnumber ['.'] (n.spanNumeral_decimals hend true) ?_
      rw [text, hwhole, fraction, if_neg hdecimals]
      rfl

/-- A number with its unit in front of other lexemes. -/
theorem lexes {signed : Bool} {unit behind : List Char} {ls : List Lexeme}
    (hend : EndsNumeral (unit ++ behind)) (hunit : spanUnit (unit ++ behind) = unit)
    (hbehind : Lexes false behind ls) :
    Lexes signed (n.text ++ unit ++ behind)
      (⟨.number n.value (String.ofList unit), String.ofList (n.text ++ unit)⟩ :: ls) := by
  cases htext : n.text with
  | nil =>
      rw [text, List.append_eq_nil_iff] at htext
      obtain ⟨hwhole, hfraction⟩ := htext
      refine absurd ?_ n.nonempty
      rw [hwhole, List.nil_append]
      unfold fraction at hfraction
      split at hfraction
      next hdecimals => exact hdecimals
      next => cases hfraction
  | cons c more => exact .token (n.scan_text htext hend hunit) hbehind

/-- A number without a unit, at the end. -/
theorem lexes_last {signed : Bool} : Lexes signed n.text
    [⟨.number n.value "", String.ofList n.text⟩, Lexeme.finish] := by
  have h : Lexes signed (n.text ++ [] ++ [])
      [⟨.number n.value (String.ofList []), String.ofList (n.text ++ [])⟩, Lexeme.finish] :=
    n.lexes (by rintro c ⟨⟩) rfl (.nil false)
  rwa [List.append_nil, List.append_nil] at h

/-- What a number begins with. -/
theorem head_text {c : Char} (h : c ∈ n.text.head?) : c.isDigit = true ∨ c = '.' := by
  rw [text, List.head?_append] at h
  cases hwhole : n.whole with
  | cons d whole =>
      obtain rfl : d = c := by simpa [hwhole] using h
      exact .inl (n.isDigit_whole d (hwhole ▸ List.mem_cons_self))
  | nil =>
      rw [hwhole, fraction] at h
      split at h
      · cases h
      · exact .inr (by simpa using h.symm)

end Numeral

/-! ## Units in letters -/

theorem endsNumeral_letters {unit behind : List Char} (hne : unit ≠ [])
    (hletters : ∀ c ∈ unit, isNameStart c = true) : EndsNumeral (unit ++ behind) := by
  obtain ⟨c, more, rfl⟩ := List.exists_cons_of_ne_nil hne
  have hc := hletters c List.mem_cons_self
  rintro d ⟨⟩
  exact ⟨isDigit_of_isNameStart hc, ne_of_test hc (by decide)⟩

/-- A unit in letters is read as a name, up to the first character that cannot be in one. -/
theorem spanUnit_letters {letters more behind : List Char} (hne : letters ≠ [])
    (hletters : ∀ c ∈ letters, isNameStart c = true) (hmore : ∀ c ∈ more, isNameChar c = true)
    (hbehind : ∀ c ∈ behind.head?, EndsName c) :
    spanUnit (letters ++ more ++ behind) = letters ++ more := by
  have hname : ∀ c ∈ letters ++ more, isNameChar c = true :=
    List.forall_mem_append.mpr ⟨fun c hc => isNameChar_of_isNameStart c (hletters c hc), hmore⟩
  have hspan := spanName_append hname hbehind
  obtain ⟨c, rest, rfl⟩ := List.exists_cons_of_ne_nil hne
  have hc := hletters c List.mem_cons_self
  rw [List.cons_append, List.cons_append] at hspan ⊢
  unfold spanUnit
  split
  next h => exact absurd (List.cons.inj h).1 (ne_of_test hc (by decide))
  next h =>
    obtain ⟨rfl, rfl⟩ := List.cons.inj h
    rw [if_pos hc, hspan]
  next h => cases h

/-! ## Behind a number, a dash subtracts -/

theorem scan_minus (n : Numeral) : scan false '-' n.text = .token (.mark .minus) [] := by
  have hword : (n.text.head?.any fun c => isNameStart c || c == '-') = false := by
    cases hhead : n.text.head? with
    | none => rfl
    | some c =>
        show (isNameStart c || c == '-') = false
        rcases n.head_text hhead with hdigit | rfl
        · rw [Bool.or_eq_false_iff, beq_eq_false_iff_ne]
          refine ⟨?_, ?_⟩
          · by_contra hstart
            rw [isDigit_of_isNameStart (by simpa using hstart)] at hdigit
            cases hdigit
          · rintro rfl
            cases hdigit
        · decide
  rw [scan_dash, Bool.false_and, if_neg (by decide), hword, if_neg (by decide)]

/-- The tokens of a text are of these kinds. -/
def ReadsAs (origin : Position) (text : List Char) (kinds : List Kind) : Prop :=
  ∃ tokens, read (String.ofList text) origin = .ok tokens ∧ tokens.map Token.kind = kinds

theorem Lexes.readsAs {text : List Char} {ls : List Lexeme} (h : Lexes true text ls)
    (origin : Position) : ReadsAs origin text (ls.map Lexeme.kind) := by
  obtain ⟨tokens, htokens, rfl⟩ :=
    h { origin with line := max origin.line 1, column := max origin.column 1 } 0
  refine ⟨tokens, ?_, ?_⟩
  · rw [read, String.toList_ofList, htokens]
  · rw [List.map_map]
    rfl

/-- **A dash between two numbers subtracts**, if the first one has no unit or is a percentage. Behind a
unit in letters it does not: the dash and the digits behind it go on with the unit, and only decimals
behind a point are a number again. -/
theorem read_dash_behind_number (a b : Numeral) (origin : Position) :
    (∀ unit, unit = [] ∨ unit = ['%'] →
      ReadsAs origin (a.text ++ unit ++ '-' :: b.text)
        [.number a.value (String.ofList unit), .mark .minus, .number b.value "", .finish]) ∧
    ∀ unit, unit ≠ [] → (∀ c ∈ unit, isNameStart c = true) →
      ReadsAs origin (a.text ++ unit ++ '-' :: b.text)
        (.number a.value (String.ofList (unit ++ '-' :: b.whole)) ::
          (b.ofFraction?.toList.map fun n => .number n.value "") ++ [.finish]) := by
  refine ⟨fun unit hunit => ?_, fun unit hne hletters => ?_⟩
  · have hminus : Lexes false ('-' :: b.text) (Lexeme.mark .minus :: _) :=
      .mark (scan_minus b) rfl fun _ => b.lexes_last
    rcases hunit with rfl | rfl
    · exact (a.lexes (by rintro c ⟨⟩; decide) rfl hminus).readsAs origin
    · exact (a.lexes (by rintro c ⟨⟩; decide) rfl hminus).readsAs origin
  · -- behind the digits there is a number of its own if the second one has decimals, else nothing
    have hfraction : Lexes false b.fraction
        ((b.ofFraction?.toList.map fun n => (⟨.number n.value "", String.ofList n.text⟩ : Lexeme)) ++
          [Lexeme.finish]) := by
      cases hb : b.ofFraction? with
      | none =>
          rw [Numeral.fraction_of_ofFraction? hb]
          exact .nil false
      | some n =>
          rw [← Numeral.text_of_ofFraction? hb]
          exact n.lexes_last
    -- the dash and the digits behind it are read with the unit, up to the point
    have hmore : ∀ c ∈ '-' :: b.whole, isNameChar c = true :=
      List.forall_mem_cons.mpr ⟨by decide, fun c hc =>
        isNameChar_of_isWordChar (isWordChar_of_isDigit (b.isDigit_whole c hc))⟩
    have hpoint : ∀ c ∈ b.fraction.head?, EndsName c := by
      unfold Numeral.fraction
      split
      · rintro c ⟨⟩
      · rintro c ⟨⟩
        exact ⟨by decide, by decide⟩
    have htext : a.text ++ unit ++ '-' :: b.text = a.text ++ (unit ++ '-' :: b.whole) ++ b.fraction := by
      simp [Numeral.text]
    have hend : EndsNumeral (unit ++ '-' :: b.whole ++ b.fraction) := by
      rw [List.append_assoc]
      exact endsNumeral_letters hne hletters
    have hread := (a.lexes hend (spanUnit_letters hne hletters hmore hpoint) hfraction).readsAs origin
    rw [htext]
    convert hread using 1
    simp [Function.comp_def, Lexeme.finish]

/-- `10` -/
def Numeral.ten : Numeral := ⟨['1', '0'], [], by simp, List.cons_ne_nil _ _⟩

/-- `2.5` -/
def Numeral.twoAndHalf : Numeral := ⟨['2'], ['5'], by simp, List.cons_ne_nil _ _⟩

/-- `10%-2.5` is a difference, and `10px-2.5` is two numbers. -/
theorem twoAndHalf_behind_ten :
    ReadsAs ⟨"", 1, 1⟩ ['1', '0', '%', '-', '2', '.', '5']
      [.number Numeral.ten.value "%", .mark .minus, .number Numeral.twoAndHalf.value "", .finish] ∧
    (['p', 'x'] ≠ [] ∧ ∀ c ∈ ['p', 'x'], isNameStart c = true) ∧
    ReadsAs ⟨"", 1, 1⟩ ['1', '0', 'p', 'x', '-', '2', '.', '5']
      [.number Numeral.ten.value "px-2",
        .number (Numeral.value ⟨[], ['5'], by simp, List.cons_ne_nil _ _⟩) "", .finish] := by
  obtain ⟨hpercent, hletters⟩ := read_dash_behind_number .ten .twoAndHalf ⟨"", 1, 1⟩
  exact ⟨hpercent ['%'] (.inr rfl), ⟨List.cons_ne_nil _ _, by simp [isNameStart]⟩,
    hletters ['p', 'x'] (List.cons_ne_nil _ _) (by simp [isNameStart])⟩

/-- `10px-10` is one number, and no difference. -/
theorem tenPixels_not_reduced :
    ReadsAs ⟨"", 1, 1⟩ ['1', '0', 'p', 'x', '-', '1', '0']
        [.number Numeral.ten.value "px-10", .finish] ∧
      ¬ReadsAs ⟨"", 1, 1⟩ ['1', '0', 'p', 'x', '-', '1', '0']
        [.number Numeral.ten.value "px", .mark .minus, .number Numeral.ten.value "", .finish] := by
  have hone : ReadsAs ⟨"", 1, 1⟩ ['1', '0', 'p', 'x', '-', '1', '0']
      [.number Numeral.ten.value "px-10", .finish] := ⟨_, rfl, rfl⟩
  refine ⟨hone, ?_⟩
  rintro ⟨tokens, hread, hkinds⟩
  obtain ⟨tokens', hread', hkinds'⟩ := hone
  obtain rfl := Except.ok.inj (hread'.symm.trans hread)
  cases congrArg List.length (hkinds'.symm.trans hkinds)

end Scss.Token
