import Scss.Proofs.Passages

/-!
# How far names and numbers look

Where a token ends is decided by what stands behind it, but by little of that: by the first character,
behind a number by a digit that follows a point, and behind `url(` by the quote that follows the blanks.
So two texts behind a token can look the same (`Alike`), and a space may stand there for any blank.
What closes itself, as a string does, looks at nothing behind it.
-/

namespace Scss.Token

open Text

/-! ## What closes itself -/

theorem spanComment_local {cs : List Char} (h : (spanComment cs).closed = true) (behind : List Char) :
    spanComment ((spanComment cs).text ++ '*' :: '/' :: behind) = spanComment cs := by
  fun_induction spanComment cs with
  | case1 => cases h
  | case2 => rfl
  | case3 c rest hopen ih =>
      have hopen' : ∀ tail, c = '*' → (spanComment rest).text ++ '*' :: '/' :: behind = '/' :: tail →
          False := by
        intro tail hc htail
        obtain ⟨after, hrest⟩ := isPrefix_spanComment h
        cases htext : (spanComment rest).text with
        | nil =>
            rw [htext] at htail
            cases (List.cons.inj htail).1
        | cons d text =>
            rw [htext] at htail hrest
            exact hopen _ hc (by rw [← hrest, (List.cons.inj htail).1]; rfl)
      show spanComment (c :: ((spanComment rest).text ++ '*' :: '/' :: behind)) = _
      rw [spanComment.eq_3 _ _ hopen', ih h]

/-- A character is no backslash if it is neither a lone one nor one with something behind it. -/
theorem ne_backslash {c : Char} {rest : List Char} (hlone : c = '\\' → rest = [] → False)
    (hescape : ∀ d more, c = '\\' → rest = d :: more → False) : c ≠ '\\' := by
  intro hc
  cases rest with
  | nil => exact hlone hc rfl
  | cons d more => exact hescape d more hc rfl

theorem spanQuoted_local {quote : Char} {cs : List Char} (h : (spanQuoted quote cs).closed = true)
    (behind : List Char) :
    spanQuoted quote ((spanQuoted quote cs).text ++ quote :: behind) = spanQuoted quote cs := by
  fun_induction spanQuoted quote cs with
  | case1 | case2 | case5 => cases h
  | case3 c rest ih =>
      show (spanQuoted quote ((spanQuoted quote rest).text ++ quote :: behind)).add ['\\', c] = _
      rw [ih h]
  | case4 rest hlone hescape =>
      have hquote : quote ≠ '\\' := ne_backslash hlone hescape
      rw [List.nil_append, spanQuoted.eq_4 _ _ _ (fun h _ => hquote h) fun _ _ h _ => hquote h,
        if_pos rfl]
  | case6 c rest hlone hescape hquote hline ih =>
      have hc : c ≠ '\\' := ne_backslash hlone hescape
      show spanQuoted quote (c :: ((spanQuoted quote rest).text ++ quote :: behind)) = _
      rw [spanQuoted.eq_4 _ _ _ (fun h _ => hc h) fun _ _ h _ => hc h, if_neg hquote, if_neg hline,
        ih h]

theorem spanArguments_local {quote : Option Char} {depth : Nat} {cs : List Char}
    (h : (spanArguments quote depth cs).closed = true) (behind : List Char) :
    spanArguments quote depth ((spanArguments quote depth cs).text ++ ')' :: behind) =
      spanArguments quote depth cs := by
  fun_induction spanArguments quote depth cs with
  | case1 | case2 => cases h
  | case3 quote depth c rest ih =>
      simp only [Span.add, List.cons_append, List.nil_append, spanArguments.eq_3, ih h]
  | case4 quote depth c rest hlone hescape ih =>
      have hc : c ≠ '\\' := ne_backslash hlone hescape
      simp only [Span.add, List.cons_append, List.nil_append]
      rw [spanArguments.eq_4 _ _ _ _ (fun h _ => hc h) fun _ _ h _ => hc h, ih h]
      rfl
  | case5 depth c rest hquote ih =>
      simp only [Span.add, List.cons_append, List.nil_append]
      rw [spanArguments_none_cons, if_pos hquote, ih h]
      rfl
  | case6 depth rest hquote ih =>
      simp only [Span.add, List.cons_append, List.nil_append]
      rw [spanArguments_none_cons, if_neg hquote, if_pos rfl, ih h]
      rfl
  | case7 rest hquote hopen => rfl
  | case8 rest depth hquote hopen ih =>
      simp only [Span.add, List.cons_append, List.nil_append]
      rw [spanArguments_none_cons, if_neg hquote, if_neg hopen, if_pos rfl]
      exact congrArg (Span.add · [')']) (ih h)
  | case9 depth c rest hquote hopen hclose ih =>
      simp only [Span.add, List.cons_append, List.nil_append]
      rw [spanArguments_none_cons, if_neg hquote, if_neg hopen, if_neg hclose, ih h]
      rfl

/-! ## What looks behind itself -/

/-- Whether a name goes on here. -/
def goesOn (behind : List Char) : Bool := behind.head?.any fun c => isNameChar c || c == '\\'

theorem spanName_of_not_goesOn {cs : List Char} (h : goesOn cs = false) : spanName cs = ([], cs) := by
  refine spanName_append (List.forall_mem_nil _) fun c hc => ?_
  rw [goesOn, hc, Option.any_some, Bool.or_eq_false_iff, beq_eq_false_iff_ne] at h
  exact h

theorem spanName_ne_nil {cs : List Char} (h : goesOn cs = true) : (spanName cs).1 ≠ [] := by
  cases cs with
  | nil => cases h
  | cons c rest =>
      rw [goesOn, List.head?_cons, Option.any_some, Bool.or_eq_true, beq_iff_eq] at h
      rcases h with hc | rfl
      · rw [spanName_cons hc]
        exact List.cons_ne_nil _ _
      · cases rest with
        | nil => exact List.cons_ne_nil _ _
        | cons d rest => exact List.cons_ne_nil _ _

/-- No name begins with a character that is neither of a name nor a backslash. -/
theorem spanName_eq_nil {c : Char} (hname : ¬isNameChar c = true) (hc : c ≠ '\\')
    (rest : List Char) : (spanName (c :: rest)).1 = [] := by
  have hends : goesOn (c :: rest) = false := by
    rw [goesOn, List.head?_cons, Option.any_some, Bool.or_eq_false_iff, beq_eq_false_iff_ne]
    exact ⟨Bool.not_eq_true _ ▸ hname, hc⟩
  rw [spanName_of_not_goesOn hends]

theorem goesOn_of_spanName {name behind : List Char} (h : (spanName (name ++ behind)).1 = name) :
    goesOn behind = false := by
  fun_induction spanName name with
  | case1 => exact Bool.eq_false_iff.mpr fun hgoes => spanName_ne_nil hgoes h
  | case2 =>
      -- the backslash would have taken the first character behind it
      cases behind with
      | nil => rfl
      | cons c rest => cases (List.cons.inj h).2
  | case3 c rest name after hspan ih => exact ih (List.cons.inj (List.cons.inj h).2).2
  | case4 c rest hlone hescape hc name after hspan ih =>
      rw [List.cons_append, spanName_cons hc] at h
      exact ih (List.cons.inj h).2
  | case5 c rest hlone hescape hc =>
      rw [List.cons_append, spanName_eq_nil hc (ne_backslash hlone hescape)] at h
      cases h

/-- A name that ends in front of some text ends in front of any other in which it does not go on. -/
theorem spanName_local {name behind behind' : List Char}
    (h : (spanName (name ++ behind)).1 = name) (hstops : goesOn behind' = false)
    (hnil : behind = [] → behind' = []) : spanName (name ++ behind') = (name, behind') := by
  fun_induction spanName name with
  | case1 => exact spanName_of_not_goesOn hstops
  | case2 =>
      cases behind with
      | nil =>
          rw [hnil rfl]
          rfl
      | cons c rest => cases (List.cons.inj h).2
  | case3 c rest name after hspan ih =>
      have htail : (spanName (rest ++ behind)).1 = rest := (List.cons.inj (List.cons.inj h).2).2
      show (('\\' :: c :: (spanName (rest ++ behind')).1, (spanName (rest ++ behind')).2) :
        List Char × List Char) = _
      rw [ih htail]
  | case4 c rest hlone hescape hc name after hspan ih =>
      rw [List.cons_append, spanName_cons hc] at h ⊢
      rw [ih (List.cons.inj h).2]
  | case5 c rest hlone hescape hc =>
      rw [List.cons_append, spanName_eq_nil hc (ne_backslash hlone hescape)] at h
      cases h

theorem takeWhile_local {p : Char → Bool} {front behind behind' : List Char}
    (h : (front ++ behind).takeWhile p = front) (hstops : behind'.head?.any p = false) :
    (front ++ behind').takeWhile p = front := by
  have hfront : ∀ c ∈ front, p c = true := fun c hc => List.mem_takeWhile_imp (h.symm ▸ hc)
  rw [List.takeWhile_append_of_pos hfront]
  cases behind' with
  | nil => simp
  | cons c rest => simpa using hstops

/-- Whether a digit stands behind the first character. -/
def digitFollows (behind : List Char) : Bool := behind.tail.head?.any Char.isDigit

/-- A token that stands in front of the first text does not tell the second from it. There may be
nothing, or a space for a blank. -/
structure Alike (behind behind' : List Char) : Prop where
  head : behind' = [] ∨ behind'.head? = behind.head? ∨
    behind.head?.any isBlank = true ∧ behind'.head? = some ' '
  point : behind'.head? = some '.' → digitFollows behind = false → digitFollows behind' = false
  quote : behind'.head? = some '(' → quoteFollows behind = true → quoteFollows behind' = true

namespace Alike

variable {behind behind' : List Char}

theorem nil (behind : List Char) : Alike behind [] := ⟨.inl rfl, nofun, nofun⟩

variable (h : Alike behind behind')
include h

/-- What the first character is not, it is not there either, unless it is about blanks. -/
theorem any_head {p : Char → Bool} (hspace : p ' ' = true → ∀ c, isBlank c = true → p c = true)
    (hp : behind.head?.any p = false) : behind'.head?.any p = false := by
  rcases h.head with rfl | hsame | ⟨hblank, hspaced⟩
  · rfl
  · rwa [hsame]
  · rw [hspaced, Option.any_some]
    by_contra hholds
    cases hc : behind.head? with
    | none =>
        rw [hc] at hblank
        cases hblank
    | some c =>
        rw [hc, Option.any_some] at hp hblank
        rw [hspace (Bool.not_eq_false _ ▸ hholds) c hblank] at hp
        cases hp

theorem eq_nil (hnil : behind = []) : behind' = [] := by
  rcases h.head with hnone | hsame | ⟨hblank, -⟩
  · exact hnone
  · subst hnil
    exact List.head?_eq_none_iff.mp hsame
  · subst hnil
    cases hblank

/-- The same character stands there, if any does that is not a blank. -/
theorem head_eq {c : Char} (hc : behind'.head? = some c) (hspace : c ≠ ' ') :
    behind.head? = some c := by
  rcases h.head with rfl | hsame | ⟨-, hspaced⟩
  · cases hc
  · exact hsame ▸ hc
  · exact absurd (Option.some.inj (hc.symm.trans hspaced)) hspace

end Alike

/-- What is in front of both does not tell them apart, if it begins with no point and no parenthesis. -/
theorem alike_append {front behind behind' : List Char} {c : Char} (hfront : front.head? = some c)
    (hpoint : c ≠ '.') (hparen : c ≠ '(') : Alike (front ++ behind) (front ++ behind') := by
  have hhead : ∀ cs, (front ++ cs).head? = some c := fun cs => by
    rw [List.head?_append, hfront, Option.some_or]
  refine ⟨.inr (.inl ?_), fun h => ?_, fun h => ?_⟩
  · rw [hhead, hhead]
  · exact absurd (Option.some.inj ((hhead _).symm.trans h)) hpoint
  · exact absurd (Option.some.inj ((hhead _).symm.trans h)) hparen

/-- Whether a unit begins with this character. -/
def startsUnit (c : Char) : Bool := c == '%' || isNameStart c

theorem spanUnit_ne_nil {c : Char} {rest : List Char} (h : startsUnit c = true) :
    spanUnit (c :: rest) ≠ [] := by
  rw [spanUnit_cons]
  rw [startsUnit, Bool.or_eq_true, beq_iff_eq] at h
  split
  · exact List.cons_ne_nil _ _
  next hc =>
    have hstart := h.resolve_left hc
    rw [if_pos hstart, spanName_cons (isNameChar_of_isNameStart c hstart)]
    exact List.cons_ne_nil _ _

/-- A number is a numeral and its unit. -/
theorem scanNumber_spans {front more behind : List Char} {negative : Bool} {kind : Kind}
    (h : scanNumber front (more ++ behind) negative = .token kind more) :
    ∃ numeral unit, more = numeral ++ unit ∧
      spanNumeral (front.contains '.') (numeral ++ (unit ++ behind)) = numeral ∧
      spanUnit (unit ++ behind) = unit ∧
      kind = .number (if negative then -numeralValue (front ++ numeral)
        else numeralValue (front ++ numeral)) (String.ofList unit) := by
  obtain ⟨rfl, hmore⟩ := Scan.token.inj h
  generalize hnumeral : spanNumeral (front.contains '.') (more ++ behind) = numeral at hmore ⊢
  generalize hunit : spanUnit ((more ++ behind).drop numeral.length) = unit at hmore ⊢
  subst hmore
  rw [List.append_assoc] at hnumeral hunit
  rw [List.drop_left] at hunit
  exact ⟨numeral, unit, rfl, hnumeral, hunit, rfl⟩

/-- A numeral begins where there is one. -/
theorem startsNumeral_eq (cs : List Char) : startsNumeral cs = !(spanNumeral false cs).isEmpty := by
  cases cs with
  | nil => rfl
  | cons c rest =>
      rw [startsNumeral_cons, spanNumeral]
      by_cases hdigit : c.isDigit = true
      · have hpoint : c ≠ '.' := by
          rintro rfl
          cases hdigit
        rw [if_neg hpoint, if_pos hdigit, hdigit]
        rfl
      · rw [if_neg hdigit]
        by_cases hpoint : c = '.'
        · cases hfollows : rest.head?.any Char.isDigit with
          | true => simp [hpoint]
          | false => simp [hpoint]
        · simp [hpoint, hdigit]

section
variable {behind behind' : List Char} (ha : Alike behind behind')
include ha

theorem spanName_alike {name : List Char} (h : (spanName (name ++ behind)).1 = name) :
    spanName (name ++ behind') = (name, behind') := by
  exact spanName_local h (ha.any_head (by decide) (goesOn_of_spanName h)) ha.eq_nil

theorem spanNumeral_alike {pointSeen : Bool} {numeral : List Char}
    (h : spanNumeral pointSeen (numeral ++ behind) = numeral) :
    spanNumeral pointSeen (numeral ++ behind') = numeral := by
  induction numeral generalizing pointSeen with
  | nil =>
      rw [List.nil_append] at h ⊢
      have hdigit : behind'.head?.any Char.isDigit = false := by
        refine ha.any_head (by decide) ?_
        cases behind with
        | nil => rfl
        | cons c rest =>
            rw [List.head?_cons, Option.any_some]
            by_contra hc
            rw [spanNumeral, if_pos (Bool.not_eq_false _ ▸ hc)] at h
            cases h
      cases hbehind' : behind' with
      | nil => rfl
      | cons d rest' =>
          rw [hbehind', List.head?_cons, Option.any_some] at hdigit
          rw [spanNumeral, if_neg (by simp [hdigit]), if_neg]
          rintro ⟨rfl, hfirst, hfollows⟩
          -- a point was behind the numeral already, and no digit behind that
          have hpoint : behind.head? = some '.' := ha.head_eq (by rw [hbehind']; rfl) (by decide)
          cases behind with
          | nil => cases hpoint
          | cons c rest =>
              obtain rfl := Option.some.inj hpoint
              rw [spanNumeral, if_neg (by decide)] at h
              split at h
              · cases h
              next hnone =>
                have hnot : digitFollows ('.' :: rest) = false := by
                  rw [Bool.eq_false_iff]
                  exact fun hdigit => hnone ⟨rfl, hfirst, hdigit⟩
                have hnot' := ha.point (by rw [hbehind']; rfl) hnot
                rw [hbehind'] at hnot'
                exact absurd hfollows (Bool.eq_false_iff.mp hnot')
  | cons c numeral ih =>
      rw [List.cons_append, spanNumeral] at h ⊢
      split at h
      next hc => rw [if_pos hc, ih (List.cons.inj h).2]
      next hc =>
        split at h
        next hpoint =>
          have hmore := (List.cons.inj h).2
          rw [if_neg hc, if_pos, ih hmore]
          refine ⟨hpoint.1, hpoint.2.1, ?_⟩
          cases numeral with
          | cons d numeral => exact hpoint.2.2
          | nil =>
              cases behind with
              | nil => cases hpoint.2.2
              | cons d rest =>
                  have hd : d.isDigit = true := hpoint.2.2
                  rw [List.nil_append, spanNumeral, if_pos hd] at hmore
                  cases hmore
        next => cases h

theorem spanUnit_alike {unit : List Char} (h : spanUnit (unit ++ behind) = unit) :
    spanUnit (unit ++ behind') = unit := by
  cases unit with
  | nil =>
      have hnone : behind.head?.any startsUnit = false := by
        cases behind with
        | nil => rfl
        | cons c rest => exact Bool.eq_false_iff.mpr fun hc => spanUnit_ne_nil hc h
      have hnone' := ha.any_head (by decide) hnone
      cases behind' with
      | nil => rfl
      | cons d rest =>
          rw [List.head?_cons, Option.any_some, startsUnit, Bool.or_eq_false_iff,
            beq_eq_false_iff_ne] at hnone'
          rw [List.nil_append, spanUnit_cons, if_neg hnone'.1, if_neg (by simp [hnone'.2])]
  | cons c unit =>
      rw [List.cons_append, spanUnit_cons] at h ⊢
      split at h
      next hc =>
        rw [if_pos hc]
        exact h
      next hc =>
        rw [if_neg hc]
        split at h
        next hstart =>
          rw [if_pos hstart]
          have hname : (spanName (c :: unit ++ behind)).1 = c :: unit := h
          exact congrArg Prod.fst (spanName_alike ha hname)
        next => cases h

/-- A unit in front of two texts that are alike. -/
theorem alike_unit {unit : List Char} (h : spanUnit (unit ++ behind) = unit) :
    Alike (unit ++ behind) (unit ++ behind') := by
  cases unit with
  | nil => exact ha
  | cons c unit =>
      have hstarts : startsUnit c = true := by
        rw [List.cons_append, spanUnit_cons] at h
        rw [startsUnit, Bool.or_eq_true, beq_iff_eq]
        split at h
        next hc => exact .inl hc
        next =>
          split at h
          next hstart => exact .inr hstart
          next => cases h
      refine alike_append rfl ?_ ?_
      · rintro rfl
        exact absurd hstarts (by decide)
      · rintro rfl
        exact absurd hstarts (by decide)

theorem scanNumber_alike {front more : List Char} {negative : Bool} {kind : Kind}
    (h : scanNumber front (more ++ behind) negative = .token kind more) :
    scanNumber front (more ++ behind') negative = .token kind more := by
  obtain ⟨numeral, unit, rfl, hnumeral, hunit, rfl⟩ := scanNumber_spans h
  have hnumeral' := spanNumeral_alike (alike_unit ha hunit) hnumeral
  rw [List.append_assoc, scanNumber, hnumeral', List.drop_left, spanUnit_alike ha hunit]

end

end Scss.Token
