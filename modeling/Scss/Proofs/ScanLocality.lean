import Scss.Proofs.Locality

/-!
# How far a token looks

A token is read as it was wherever the text behind it looks the same (`scan_alike`). Whether a sign
belongs to a number is decided by the token in front; where that makes no difference, a token is read
the same behind any other (`scan_unsigned`).
-/

namespace Scss.Token

open Text

/-! ## Words -/

theorem goesOn_of_spanWord {first : Char} {word behind : List Char}
    (h : spanWord first (word ++ behind) = word) : goesOn behind = false := by
  unfold spanWord at h
  dsimp only at h
  by_cases hfirst : first = '\\'
  · rw [if_pos hfirst] at h
    cases word with
    | nil =>
        cases behind with
        | nil => rfl
        | cons c rest => cases h
    | cons c word => exact goesOn_of_spanName (List.cons.inj h).2
  · rw [if_neg hfirst] at h
    exact goesOn_of_spanName h

theorem spanWord_local {first : Char} {word behind behind' : List Char}
    (h : spanWord first (word ++ behind) = word) (hstops : goesOn behind' = false)
    (hnil : behind = [] → behind' = []) : spanWord first (word ++ behind') = word := by
  unfold spanWord at h ⊢
  dsimp only at h ⊢
  by_cases hfirst : first = '\\'
  · rw [if_pos hfirst] at h ⊢
    cases word with
    | nil =>
        cases behind with
        | nil => rw [hnil rfl]; rfl
        | cons c rest => cases h
    | cons c word =>
        have hspan : (spanName (word ++ behind)).1 = word := (List.cons.inj h).2
        show c :: (spanName (word ++ behind')).1 = _
        rw [spanName_local hspan hstops hnil]
  · rw [if_neg hfirst] at h ⊢
    exact congrArg Prod.fst (spanName_local h hstops hnil)

theorem quoteFollows_closed (text behind behind' : List Char) :
    quoteFollows ('(' :: (text ++ ')' :: behind)) = quoteFollows ('(' :: (text ++ ')' :: behind')) := by
  have hhead : ∀ cs, (dropBlanks (text ++ ')' :: cs)).head? = (dropBlanks (text ++ [')'])).head? := by
    intro cs
    have happend : text ++ ')' :: cs = text ++ [')'] ++ cs := by simp
    have hne : (text ++ [')']).dropWhile isBlank ≠ [] := by
      intro hnil
      exact absurd (List.dropWhile_eq_nil_iff.mp hnil ')' (by simp)) (by decide)
    rw [happend, dropBlanks, List.dropWhile_append, if_neg (fun h => hne (List.isEmpty_iff.mp h)),
      dropBlanks, List.head?_append_of_ne_nil _ hne]
  simp only [quoteFollows, List.tail_cons, hhead]

theorem scanWord_alike {behind behind' : List Char} (ha : Alike behind behind') {first : Char}
    {more : List Char} {kind : Kind} (h : scanWord first (more ++ behind) = .token kind more) :
    scanWord first (more ++ behind') = .token kind more := by
  rw [scanWord_eq] at h
  generalize hword : spanWord first (more ++ behind) = word at h
  rcases scanWordEnd_cases h with ⟨rfl, rfl, hplain⟩ | ⟨text, after, hbehind, hraw, hspan, rfl, rfl⟩
  · -- a word by itself, or one with a raw path behind it, which closes before the new text begins
    have hword' : spanWord first (more ++ behind') = more :=
      spanWord_local hword (ha.any_head (by decide) (goesOn_of_spanWord hword)) ha.eq_nil
    rw [scanWord_eq, hword', List.drop_left]
    rw [List.drop_left] at hplain
    refine scanWordEnd_plain fun hopen => ?_
    -- an opening parenthesis behind the word was there before, and takes no argument either
    have hnot := hplain (ha.head_eq hopen (by decide))
    rw [takesArgument, Bool.and_eq_false_iff, Bool.not_eq_false', Bool.and_eq_true] at hnot ⊢
    exact hnot.imp_right fun hurl => ⟨hurl.1, ha.quote hopen hurl.2⟩
  · have hassoc : ∀ cs, word ++ '(' :: text ++ [')'] ++ cs = word ++ '(' :: (text ++ ')' :: cs) := by
      simp
    rw [hassoc] at hword hbehind hraw
    rw [List.drop_left] at hbehind hraw
    -- what was found to be behind the closing parenthesis is the text behind
    obtain rfl : after = behind := by
      have htail := List.append_cancel_left (List.cons.inj hbehind).2
      exact (List.cons.inj htail).2.symm
    have hword' : spanWord first (word ++ '(' :: (text ++ ')' :: behind')) = word :=
      spanWord_local hword rfl fun h => absurd h (List.cons_ne_nil _ _)
    have hraw' : takesArgument (String.ofList (first :: word)) ('(' :: (text ++ ')' :: behind')) =
        true := by
      rwa [takesArgument, quoteFollows_closed text behind' after]
    have hspan' : spanArguments none 0 (text ++ ')' :: behind') = ⟨text, true⟩ := by
      have hlocal := spanArguments_local (by rw [hspan]) behind'
      rwa [hspan] at hlocal
    rw [hassoc, scanWord_eq, hword', List.drop_left]
    exact scanWordEnd_rawCall hraw' hspan'

/-! ## Tokens -/

theorem head_of_takeWhile {p : Char → Bool} {front behind : List Char}
    (h : (front ++ behind).takeWhile p = front) : behind.head?.any p = false := by
  have hfront : ∀ c ∈ front, p c = true := fun c hc => List.mem_takeWhile_imp (h.symm ▸ hc)
  rw [List.takeWhile_append_of_pos hfront, List.append_right_eq_self] at h
  cases behind with
  | nil => rfl
  | cons c rest => exact Bool.eq_false_iff.mpr (List.takeWhile_eq_nil_iff.mp h (Nat.succ_pos _))

theorem spanNumeral_ne_nil {cs : List Char} (h : cs.head?.any Char.isDigit = true) (pointSeen : Bool) :
    spanNumeral pointSeen cs ≠ [] := by
  cases cs with
  | nil => cases h
  | cons c rest =>
      have hc : c.isDigit = true := h
      rw [spanNumeral, if_pos hc]
      exact List.cons_ne_nil _ _

theorem scan_slash (signed : Bool) {rest : List Char} (hline : rest.head? ≠ some '/')
    (hblock : rest.head? ≠ some '*') : scan signed '/' rest = .token (.mark .slash) [] := by
  unfold scan
  rw [if_neg (by decide)]
  split
  all_goals first
    | rfl
    | exact absurd rfl hline
    | exact absurd rfl hblock
    | simp_all

/-- Without an equals sign behind it, `!` begins a flag. -/
theorem scan_bang (signed : Bool) {rest : List Char} (hequal : rest.head? ≠ some '=') :
    scan signed '!' rest =
      let blanks := rest.takeWhile isBlank
      let name := (spanName (rest.drop blanks.length)).1
      if name.isEmpty then .token (.stray '!') blanks
      else .token (.flag (String.ofList name).toLower) (blanks ++ name) := by
  unfold scan
  rw [if_neg (by decide)]
  split
  all_goals first
    | rfl
    | exact absurd rfl hequal
    | simp_all

/-- A string is read up to its quote. -/
theorem scan_quote_local {signed : Bool} {quote : Char} {more behind : List Char} {kind : Kind}
    (hquote : quote = '"' ∨ quote = '\'')
    (h : (if (spanQuoted quote (more ++ behind)).closed then
      Scan.token (.quoted (String.ofList (spanQuoted quote (more ++ behind)).text) quote)
        ((spanQuoted quote (more ++ behind)).text ++ [quote])
      else .fail (.unterminated "string") (spanQuoted quote (more ++ behind)).text) = .token kind more)
    (behind' : List Char) : scan signed quote (more ++ behind') = .token kind more := by
  split at h
  next hclosed =>
    generalize hspan : spanQuoted quote (more ++ behind) = s at h hclosed
    obtain ⟨rfl, rfl⟩ := Scan.token.inj h
    have hspan' : spanQuoted quote (s.text ++ [quote] ++ behind') = s := by
      have hlocal := spanQuoted_local (hspan.symm ▸ hclosed) behind'
      rw [hspan] at hlocal
      rwa [List.append_assoc]
    rw [scan_quote hquote (hspan'.symm ▸ hclosed), hspan']
  next => cases h

/-- A comment is read up to its end. -/
theorem scan_comment_local {signed : Bool} {more behind inner : List Char} {kind : Kind}
    (hrest : more ++ behind = '*' :: inner)
    (h : (if (spanComment inner).closed then
      Scan.token (.comment (String.ofList ('/' :: '*' :: (spanComment inner).text ++ ['*', '/'])))
        ('*' :: (spanComment inner).text ++ ['*', '/'])
      else .fail (.unterminated "comment") ('*' :: (spanComment inner).text)) = .token kind more)
    (behind' : List Char) : scan signed '/' (more ++ behind') = .token kind more := by
  split at h
  next hclosed =>
    have hlocal := spanComment_local hclosed behind'
    generalize spanComment inner = s at h hclosed hlocal
    obtain ⟨rfl, rfl⟩ := Scan.token.inj h
    have happend : '*' :: s.text ++ ['*', '/'] ++ behind' =
        '*' :: (s.text ++ '*' :: '/' :: behind') := by
      simp
    have hscan : ∀ inner, scan signed '/' ('*' :: inner) =
        if (spanComment inner).closed then
          Scan.token (.comment (String.ofList ('/' :: '*' :: (spanComment inner).text ++ ['*', '/'])))
            ('*' :: (spanComment inner).text ++ ['*', '/'])
        else .fail (.unterminated "comment") ('*' :: (spanComment inner).text) := fun _ => rfl
    rw [happend, hscan, hlocal, if_pos hclosed]
  next => cases h

/-- A dash with a word behind it has no number there. -/
theorem startsNumeral_of_word {c : Char} (hc : (isNameStart c || c == '-') = true)
    (rest : List Char) : startsNumeral (c :: rest) = false := by
  rw [Bool.or_eq_true, beq_iff_eq] at hc
  rw [startsNumeral_cons, if_neg]
  · rcases hc with hstart | rfl
    · exact isDigit_of_isNameStart hstart
    · rfl
  · rintro rfl
    exact absurd hc (by decide)

theorem goesOn_of_dash {behind : List Char}
    (h : (behind.head?.any fun c => isNameStart c || c == '-') = true) : goesOn behind = true := by
  cases behind with
  | nil => cases h
  | cons c rest =>
      have hc : (isNameStart c || c == '-') = true := h
      rw [Bool.or_eq_true, beq_iff_eq] at hc
      rw [goesOn, List.head?_cons, Option.any_some, Bool.or_eq_true]
      refine .inl ?_
      rcases hc with hstart | rfl
      · exact isNameChar_of_isNameStart c hstart
      · rfl

section
variable {behind behind' : List Char} (ha : Alike behind behind')
include ha

/-- Where one character was not behind a token, it is not there now. -/
theorem head_ne {more : List Char} {c : Char} (hc : c ≠ ' ') (h : (more ++ behind).head? ≠ some c) :
    (more ++ behind').head? ≠ some c := by
  cases more with
  | nil => exact fun h' => h (ha.head_eq h' hc)
  | cons d more => exact h

theorem scan_dash_alike {signed : Bool} {more : List Char} {kind : Kind}
    (h : scan signed '-' (more ++ behind) = .token kind more) :
    scan signed '-' (more ++ behind') = .token kind more := by
  rw [scan_dash] at h ⊢
  split at h
  -- a number, a word or the sign by itself; which one it is depends on what is behind the dash
  next hnumeral =>
    rw [if_pos]
    · exact scanNumber_alike ha h
    obtain ⟨numeral, unit, rfl, hspan, hunit, -⟩ := scanNumber_spans h
    have hspan' := spanNumeral_alike (alike_unit ha hunit) hspan
    have hnone : ([] : List Char).contains '.' = false := rfl
    rw [hnone] at hspan hspan'
    rw [startsNumeral_eq, List.append_assoc] at hnumeral ⊢
    rw [hspan']
    rwa [hspan] at hnumeral
  next hnumeral =>
    split at h
    next hword =>
      -- a dash alone is no word, so what decides it is in the token itself
      have hne : more ≠ [] := by
        rintro rfl
        rw [scanWord_eq] at h
        have hspan : spanWord '-' ([] ++ behind) ≠ [] := spanName_ne_nil (goesOn_of_dash hword)
        rcases scanWordEnd_cases h with ⟨-, hmore, -⟩ | ⟨_, _, -, -, -, -, hmore⟩
        · exact hspan hmore.symm
        · simp at hmore
      obtain ⟨c, rest, rfl⟩ := List.exists_cons_of_ne_nil hne
      have hc : (isNameStart c || c == '-') = true := hword
      have hnone : startsNumeral (c :: rest ++ behind') = false := startsNumeral_of_word hc _
      rw [hnone, Bool.and_false, if_neg Bool.false_ne_true, if_pos]
      · exact scanWord_alike ha h
      · exact hc
    next hword =>
      obtain ⟨rfl, rfl⟩ := Scan.token.inj h
      rw [List.nil_append] at hnumeral hword ⊢
      rw [if_neg, if_neg]
      · rw [Bool.not_eq_true] at hword ⊢
        exact ha.any_head (by decide) hword
      · -- after an operand a sign is never part of a number; in front of one, no digits follow
        rw [startsNumeral_eq] at hnumeral ⊢
        cases signed with
        | false => exact Bool.false_ne_true
        | true =>
            have hspan : spanNumeral false ([] ++ behind) = [] := by
              simpa using hnumeral
            have hspan' := spanNumeral_alike ha hspan
            rw [List.nil_append] at hspan'
            rw [hspan']
            exact Bool.false_ne_true

theorem scan_bang_alike {signed : Bool} {more : List Char} {kind : Kind}
    (hequal : (more ++ behind).head? ≠ some '=')
    (h : scan signed '!' (more ++ behind) = .token kind more) :
    scan signed '!' (more ++ behind') = .token kind more := by
  rw [scan_bang signed hequal] at h
  rw [scan_bang signed (head_ne ha (by decide) hequal)]
  dsimp only at h ⊢
  generalize hblanks : (more ++ behind).takeWhile isBlank = blanks at h
  split at h
  next hname =>
    obtain ⟨rfl, rfl⟩ := Scan.token.inj h
    rw [List.drop_left, List.isEmpty_iff] at hname
    have hends : goesOn behind = false := Bool.eq_false_iff.mpr fun hgoes => spanName_ne_nil hgoes hname
    have hblanks' := takeWhile_local hblanks (ha.any_head (fun _ _ => id) (head_of_takeWhile hblanks))
    rw [hblanks', List.drop_left, spanName_of_not_goesOn (ha.any_head (by decide) hends)]
    rfl
  next hname =>
    obtain ⟨rfl, hmore⟩ := Scan.token.inj h
    generalize hspan : (spanName ((more ++ behind).drop blanks.length)).1 = name at hname hmore ⊢
    subst hmore
    rw [List.append_assoc] at hblanks hspan
    rw [List.drop_left] at hspan
    have hhead : (name ++ behind').head? = (name ++ behind).head? := by
      cases name with
      | nil => exact absurd rfl hname
      | cons c name => rfl
    have hblanks' : (blanks ++ (name ++ behind')).takeWhile isBlank = blanks :=
      takeWhile_local hblanks (hhead ▸ head_of_takeWhile hblanks)
    rw [List.append_assoc, hblanks', List.drop_left, spanName_alike ha hspan, if_neg hname]

/-- A name behind its mark. -/
theorem name_alike {more : List Char} {kind : Kind} {make : String → Kind} {fault : SyntaxFault}
    (h : (if (spanName (more ++ behind)).1.isEmpty then Scan.fail fault []
      else .token (make (String.ofList (spanName (more ++ behind)).1)) (spanName (more ++ behind)).1) =
        .token kind more) :
    (if (spanName (more ++ behind')).1.isEmpty then Scan.fail fault []
      else .token (make (String.ofList (spanName (more ++ behind')).1))
        (spanName (more ++ behind')).1) = .token kind more := by
  split at h
  next => cases h
  next hname =>
    obtain ⟨rfl, hmore⟩ := Scan.token.inj h
    rw [hmore] at hname ⊢
    rw [spanName_alike ha hmore, if_neg hname]

theorem scan_hash_alike {signed : Bool} {more : List Char} {kind : Kind}
    (hopen : (more ++ behind).head? ≠ some '\x7b')
    (h : scan signed '#' (more ++ behind) = .token kind more) :
    scan signed '#' (more ++ behind') = .token kind more := by
  rw [scan_hash signed hopen] at h
  rw [scan_hash signed (head_ne ha (by decide) hopen)]
  split at h
  next hname =>
    obtain ⟨rfl, rfl⟩ := Scan.token.inj h
    rw [spanName_alike ha (List.isEmpty_iff.mp hname)]
    rfl
  next hname =>
    obtain ⟨rfl, hmore⟩ := Scan.token.inj h
    rw [hmore] at hname ⊢
    rw [spanName_alike ha hmore, if_neg hname]

theorem scan_dot_alike {signed : Bool} {more : List Char} {kind : Kind}
    (h : scan signed '.' (more ++ behind) = .token kind more) :
    scan signed '.' (more ++ behind') = .token kind more := by
  rw [scan_dot] at h ⊢
  split at h
  next hdigit =>
    rw [if_pos]
    · exact scanNumber_alike ha h
    obtain ⟨numeral, unit, rfl, hspan, -, -⟩ := scanNumber_spans h
    cases numeral with
    | cons c numeral => exact hdigit
    | nil => exact absurd hspan (List.append_assoc _ _ _ ▸ spanNumeral_ne_nil hdigit _)
  next hdigit =>
    obtain ⟨rfl, rfl⟩ := Scan.token.inj h
    rw [Bool.not_eq_true, List.nil_append] at hdigit
    rw [List.nil_append, if_neg (Bool.eq_false_iff.mp (ha.any_head (by decide) hdigit))]

/-- **Whether a token is read is told from little of what stands behind it.** -/
theorem scan_alike {signed : Bool} {first : Char} {more : List Char} {kind : Kind}
    (h : scan signed first (more ++ behind) = .token kind more) :
    scan signed first (more ++ behind') = .token kind more := by
  have hno : ∀ {c : Char}, c ≠ ' ' → (∀ tail, more ++ behind = c :: tail → False) →
      (more ++ behind').head? ≠ some c := fun hc hnone =>
    head_ne ha hc (head?_ne_of_not_cons fun ⟨tail, htail⟩ => hnone tail htail)
  have hscan := h
  unfold scan at h
  split at h
  next hblank =>
    obtain ⟨rfl, hmore⟩ := Scan.token.inj h
    unfold scan
    rw [if_pos hblank, takeWhile_local hmore (ha.any_head (fun _ _ => id) (head_of_takeWhile hmore))]
  next hblank =>
    generalize hrest : more ++ behind = rest at h hno
    split at h
    -- most marks look at nothing behind them, and those of two characters have their own
    all_goals try (obtain ⟨rfl, rfl⟩ := Scan.token.inj h; rfl)
    case h_1 => cases h
    case h_2 inner => exact scan_comment_local hrest h behind'
    case h_16 hline hblock =>
      obtain ⟨rfl, rfl⟩ := Scan.token.inj h
      exact scan_slash signed (hno (by decide) hline) (hno (by decide) hblock)
    case h_21 hequal =>
      obtain ⟨rfl, rfl⟩ := Scan.token.inj h
      rw [scan_comparison rfl, if_neg (hno (by decide) hequal)]
    case h_23 hequal =>
      obtain ⟨rfl, rfl⟩ := Scan.token.inj h
      rw [scan_comparison rfl, if_neg (hno (by decide) hequal)]
    case h_24 hequal =>
      subst hrest
      exact scan_bang_alike ha (head?_ne_of_not_cons fun ⟨tail, htail⟩ => hequal tail htail) hscan
    case h_25 =>
      subst hrest
      exact scan_quote_local (.inl rfl) h behind'
    case h_26 =>
      subst hrest
      exact scan_quote_local (.inr rfl) h behind'
    case h_28 hopen =>
      subst hrest
      exact scan_hash_alike ha (head?_ne_of_not_cons fun ⟨tail, htail⟩ => hopen tail htail) hscan
    case h_29 =>
      subst hrest
      exact @name_alike _ _ ha _ _ _ _ h
    case h_30 =>
      subst hrest
      exact @name_alike _ _ ha _ _ _ _ h
    case h_31 =>
      subst hrest
      exact scan_dash_alike ha hscan
    case h_32 =>
      subst hrest
      exact scan_dot_alike ha hscan
    case h_33 =>
      subst hrest
      exact scanWord_alike ha h
    case h_34 hequal _ _ _ _ =>
      subst hrest
      split at h
      next hdigit =>
        rw [scan_digit hdigit]
        exact scanNumber_alike ha h
      next hdigit =>
        split at h
        next hstart =>
          rw [scan_nameStart hstart (Bool.eq_false_iff.mpr hblank)]
          exact scanWord_alike ha h
        next hstart =>
          obtain ⟨rfl, rfl⟩ := Scan.token.inj h
          by_cases hfirst : first = '='
          · subst hfirst
            rw [scan_comparison rfl, if_neg (hno (by decide) fun tail htail => hequal tail rfl htail)]
          · unfold scan
            rw [if_neg hblank]
            split
            all_goals try contradiction
            rw [if_neg hdigit, if_neg hstart]

end

/-- **The sign says something about a dash only.** A token that is read where a dash can begin a number,
and that is the same without what follows it and without that, is the same without that. -/
theorem scan_unsigned {first : Char} {more behind : List Char} {kind : Kind}
    (h : scan true first (more ++ behind) = .token kind more)
    (halone : scan false first more = .token kind more) :
    scan false first (more ++ behind) = .token kind more := by
  by_cases hfirst : first = '-'
  · subst hfirst
    rw [scan_dash] at h halone ⊢
    rw [Bool.false_and, if_neg Bool.false_ne_true] at halone ⊢
    rw [Bool.true_and] at h
    split at h
    next =>
      -- what is read without the sign is no number
      obtain ⟨_, _, -, -, -, hkind⟩ := scanNumber_spans h
      split at halone
      next =>
        rw [scanWord_eq] at halone
        rcases scanWordEnd_cases halone with ⟨hword, -⟩ | ⟨_, _, -, -, -, hcall, -⟩
        · rw [hkind] at hword
          cases hword
        · rw [hkind] at hcall
          cases hcall
      next =>
        rw [hkind] at halone
        cases halone
    next => exact h
  · have hsame : scan false first (more ++ behind) = scan true first (more ++ behind) := by
      unfold scan
      split
      · rfl
      · split
        all_goals first
          | rfl
          | exact absurd rfl hfirst
    rw [hsame, h]

end Scss.Token
