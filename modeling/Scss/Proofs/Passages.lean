import Scss.Proofs.PassageText

/-!
# Text in front of a brace or a colon

Selectors, queries and names of properties are read as text: piece by piece, up to the brace or colon
behind them. Here such a text is taken to be made of the characters of words, of the marks of selectors
and of single spaces, with its brackets closed. Its lexemes are then found without looking at
what follows, and put together they are the text again: a `Passage`.
-/

namespace Scss

namespace Token

open Text

/-! ## Lexemes that make up a text -/

/-- Whether a token is read as text and nothing else. -/
def Kind.isPlain : Kind → Bool
  | .word _ | .number .. | .hash _ | .stray _ => true
  | .mark m => m ∈ [.comma, .dot, .tilde, .plus, .minus, .star, .equal, .greater, .greaterEqual]
  | _ => false

/-- The lexemes of a text that is read in pieces. Of the brackets that are closed in it, so many are
open in front of it. -/
inductive Passage : Nat → List Lexeme → List Char → Prop where
  | nil : Passage 0 [] []
  | blank {depth : Nat} {ls : List Lexeme} {cs : List Char} (h : Passage depth ls cs) :
      Passage depth (Lexeme.blank :: ls) (' ' :: cs)
  | colon {depth : Nat} {ls : List Lexeme} {cs : List Char} (h : Passage depth ls cs) :
      Passage depth (Lexeme.mark .colon :: ls) (':' :: cs)
  | rawCall {depth : Nat} {ls : List Lexeme} {name argument cs : List Char} (written : String)
      (hargument : cutAtInterpolation? argument = none) (h : Passage depth ls cs) :
      Passage depth (⟨.rawCall (String.ofList name) (String.ofList argument), written⟩ :: ls)
        (name ++ '(' :: argument ++ ')' :: cs)
  | opening {depth : Nat} {ls : List Lexeme} {cs : List Char} {m : Mark}
      (hm : m = .openParen ∨ m = .openBracket) (h : Passage (depth + 1) ls cs) :
      Passage depth (Lexeme.mark m :: ls) (m.text.toList ++ cs)
  | closing {depth : Nat} {ls : List Lexeme} {cs : List Char} {m : Mark}
      (hm : m = .closeParen ∨ m = .closeBracket) (h : Passage depth ls cs) :
      Passage (depth + 1) (Lexeme.mark m :: ls) (m.text.toList ++ cs)
  | plain {depth : Nat} {kind : Kind} {ls : List Lexeme} {word cs : List Char}
      (hkind : kind.isPlain = true) (h : Passage depth ls cs) :
      Passage depth (⟨kind, String.ofList word⟩ :: ls) (word ++ cs)

/-- A text is a passage whose lexemes do not depend on what follows. -/
def Readable (signed : Bool) (depth : Nat) (cs : List Char) : Prop :=
  ∃ ls, Passage depth ls cs ∧ ∀ behind back, Stops behind → (∀ s, Lexes s behind back) →
    Lexes signed (cs ++ behind) (ls ++ back)

namespace Readable

variable {signed : Bool} {depth : Nat} {c : Char} {more r : List Char} {kind : Kind}

theorem nil (signed : Bool) : Readable signed 0 [] :=
  ⟨[], .nil, fun _ _ _ hbehind => hbehind signed⟩

/-- A token in front of a passage. -/
theorem token {depth' : Nat} {text : String}
    (hscan : ∀ behind, Stops behind → scan signed c (more ++ (r ++ behind)) = .token kind more)
    (htext : text = if kind.isBlank then "" else String.ofList (c :: more))
    (h : Readable (!kind.endsOperand) depth' r)
    (hpassage : ∀ ls, Passage depth' ls r → Passage depth (⟨kind, text⟩ :: ls) (c :: (more ++ r))) :
    Readable signed depth (c :: (more ++ r)) := by
  obtain ⟨ls, hls, hlexes⟩ := h
  refine ⟨_, hpassage ls hls, fun behind back hstops hbehind => ?_⟩
  subst htext
  rw [List.cons_append, List.append_assoc]
  exact Lexes.token (hscan behind hstops) (hlexes behind back hstops hbehind)

theorem plain (hkind : kind.isPlain = true)
    (hscan : ∀ behind, Stops behind → scan signed c (more ++ (r ++ behind)) = .token kind more)
    (h : Readable (!kind.endsOperand) depth r) : Readable signed depth (c :: (more ++ r)) := by
  have hblank : kind.isBlank = false := by cases kind <;> first | rfl | cases hkind
  have htext : String.ofList (c :: more) = if kind.isBlank then "" else String.ofList (c :: more) := by
    rw [hblank]
    rfl
  exact token hscan htext h fun ls hls => .plain hkind hls

/-- A plain mark of one character. -/
theorem mark {m : Mark} (hm : (Kind.mark m).isPlain = true)
    (hscan : ∀ behind, Stops behind → scan signed c (r ++ behind) = .token (.mark m) [])
    (h : ∀ s, Readable s depth r) : Readable signed depth (c :: r) :=
  @plain signed depth c [] r _ hm hscan (h _)

end Readable

/-- A text that can be read as a passage, if the brackets of `stack` are open in front of it. -/
structure IsPassage (stack cs : List Char) : Prop where
  chars : ∀ c ∈ cs, isPassageChar c = true
  /-- No space is followed by another one, or by nothing. -/
  spaced : (cs ++ [' ']).IsChain fun c d => c = ' ' → d ≠ ' '
  nested : Nested stack cs

namespace IsPassage

variable {stack more r : List Char} {c : Char}

theorem drop (h : IsPassage stack (c :: (more ++ r))) {below : List Char} (hnested : Nested below r) :
    IsPassage below r := by
  refine ⟨fun d hd => h.chars d (List.mem_cons_of_mem c (List.mem_append_right more hd)), ?_, hnested⟩
  refine h.spaced.suffix ?_
  rw [← List.cons_append, List.append_assoc]
  exact List.suffix_append _ _

theorem drop_word (h : IsPassage stack (c :: (more ++ r)))
    (hword : ∀ d ∈ c :: more, isBracket d = false) : IsPassage stack r :=
  h.drop ((nested_append hword).mp h.nested)

theorem behind (h : IsPassage stack (c :: r)) (hc : isBracket c = false) : IsPassage stack r := by
  refine @drop_word stack [] r c h ?_
  simpa using hc

end IsPassage

/-- Behind an opening parenthesis in a passage stands no string. -/
theorem no_quote_behind {inner behind : List Char} (hinner : ∀ d ∈ inner, isPassageChar d = true) :
    ((dropBlanks (inner ++ ')' :: behind)).head?.any fun d => d == '"' || d == '\'') = false := by
  induction inner with
  | nil => rfl
  | cons d inner ih =>
      obtain ⟨hd, hinner⟩ := List.forall_mem_cons.mp hinner
      rw [List.cons_append, dropBlanks, List.dropWhile_cons]
      split
      · exact ih hinner
      · have hdouble : d ≠ '"' := ne_of_test hd (by decide)
        have hsimple : d ≠ '\'' := ne_of_test hd (by decide)
        simp [hdouble, hsimple]

theorem no_interpolation {cs : List Char} (hcs : ∀ d ∈ cs, isPassageChar d = true) :
    cutAtInterpolation? cs = none := by
  induction cs with
  | nil => rfl
  | cons c rest ih =>
      obtain ⟨-, hrest⟩ := List.forall_mem_cons.mp hcs
      unfold cutAtInterpolation?
      split
      next h => cases h
      next tail h =>
        obtain ⟨-, rfl⟩ := List.cons.inj h
        exact absurd (hrest '\x7b' List.mem_cons_self) (by decide)
      next h =>
        obtain ⟨rfl, rfl⟩ := List.cons.inj h
        rw [ih hrest]
        rfl

/-- A word in a passage ends there. -/
theorem scanWord_passage {c : Char} {r behind : List Char} (hc : isWordChar c = true)
    (hr : ∀ d ∈ r, isPassageChar d = true) (hbehind : Stops behind) :
    scanWord c (r ++ behind) = scanWordEnd (String.ofList (c :: wordAt r)) (wordAt r)
      (r.dropWhile isNameChar ++ behind) := by
  have hescape : c ≠ '\\' := ne_of_test hc (by decide)
  have hspan := spanName_passage hr hbehind
  have hword : spanWord c (r ++ behind) = wordAt r := by
    rw [spanWord, if_neg hescape]
    exact congrArg Prod.fst hspan
  have hdrop : (r ++ behind).drop (wordAt r).length = r.dropWhile isNameChar ++ behind := by
    have hsplit := spanName_append_eq (r ++ behind)
    rw [hspan] at hsplit
    rw [← hsplit, List.drop_left]
  rw [scanWord_eq, hword, hdrop]

section Words

variable {signed : Bool} {stack r : List Char} {c : Char}

/-- A word by itself, if what is behind it is readable. -/
theorem readable_plainWord
    (hscan : ∀ behind, Stops behind → scan signed c (r ++ behind) =
      .token (.word (String.ofList (c :: wordAt r))) (wordAt r))
    (h : Readable false stack.length (r.dropWhile isNameChar)) :
    Readable signed stack.length (c :: r) := by
  have hsplit : wordAt r ++ r.dropWhile isNameChar = r := List.takeWhile_append_dropWhile
  have hfound : ∀ behind, Stops behind →
      scan signed c (wordAt r ++ (r.dropWhile isNameChar ++ behind)) =
        .token (.word (String.ofList (c :: wordAt r))) (wordAt r) := by
    intro behind hbehind
    rw [← List.append_assoc, hsplit, hscan behind hbehind]
  have hreadable := Readable.plain rfl hfound h
  rwa [hsplit] at hreadable

/-- A raw function is one lexeme with its argument, if what is behind it is readable. -/
theorem readable_rawWord {tail : List Char} (hc : isWordChar c = true)
    (hscan : ∀ behind, Stops behind → scan signed c (r ++ behind) = scanWord c (r ++ behind))
    (hr : ∀ d ∈ r, isPassageChar d = true) (htail : r.dropWhile isNameChar = '(' :: tail)
    (hraw : rawFunctions.contains (String.ofList (c :: wordAt r)).toLower = true)
    (hrest : IsPassage stack ('(' :: tail))
    (ih : ∀ s stack' r', r'.length ≤ r.length → IsPassage stack' r' →
      Readable s stack'.length r') : Readable signed stack.length (c :: r) := by
  have hsplit : r = wordAt r ++ '(' :: tail := by
    rw [← htail]
    exact List.takeWhile_append_dropWhile.symm
  have hchars : ∀ d ∈ tail, isPassageChar d = true := (List.forall_mem_cons.mp hrest.chars).2
  have hnested : Nested ([] ++ ')' :: stack) tail := by simpa [Nested] using hrest.nested
  obtain ⟨inner, after, rfl, hafter, hspan⟩ := spanArguments_passage hchars hnested
  have hinner : ∀ d ∈ inner, isPassageChar d = true := fun d hd =>
    hchars d (List.mem_append_left _ hd)
  have hlength : after.length ≤ r.length := by
    rw [hsplit]
    simp only [List.length_append, List.length_cons]
    omega
  have hreadable : Readable true stack.length after :=
    ih true stack after hlength ⟨fun d hd => hchars d (by simp [hd]),
      hrest.spaced.suffix ⟨'(' :: inner ++ [')'], by simp⟩, hafter⟩
  generalize hname : String.ofList (c :: wordAt r) = name at hraw
  have hfound : ∀ behind, Stops behind →
      scan signed c ((wordAt r ++ '(' :: inner ++ [')']) ++ (after ++ behind)) =
        .token (.rawCall name (String.ofList inner)) (wordAt r ++ '(' :: inner ++ [')']) := by
    intro behind hbehind
    have hwhole : (wordAt r ++ '(' :: inner ++ [')']) ++ (after ++ behind) = r ++ behind := by
      conv => rhs; rw [hsplit]
      simp
    -- no string is read as an address, whatever the function is called
    have htakes : takesArgument name ('(' :: (inner ++ ')' :: after ++ behind)) = true := by
      rw [takesArgument, hraw, quoteFollows, List.tail_cons, List.append_assoc, List.cons_append,
        no_quote_behind hinner]
      simp
    rw [hwhole, hscan behind hbehind, scanWord_passage hc hr hbehind, htail, hname]
    exact scanWordEnd_rawCall htakes (hspan behind)
  have hcall : c :: r = c :: ((wordAt r ++ '(' :: inner ++ [')']) ++ after) := by
    conv => lhs; rw [hsplit]
    simp
  have hwritten : c :: ((wordAt r ++ '(' :: inner ++ [')']) ++ after) =
      (c :: wordAt r) ++ '(' :: inner ++ ')' :: after := by simp
  rw [hcall]
  refine Readable.token hfound rfl hreadable fun ls hls => ?_
  rw [hwritten, ← hname]
  exact .rawCall _ (no_interpolation hinner) hls

/-- A passage beginning with a word, if what is behind the word is readable. -/
theorem readable_word (hc : isWordChar c = true)
    (hscan : ∀ behind, Stops behind → scan signed c (r ++ behind) = scanWord c (r ++ behind))
    (h : IsPassage stack (c :: r))
    (ih : ∀ s stack' r', r'.length ≤ r.length → IsPassage stack' r' →
      Readable s stack'.length r') : Readable signed stack.length (c :: r) := by
  have hr : ∀ d ∈ r, isPassageChar d = true := (List.forall_mem_cons.mp h.chars).2
  have hword : ∀ d ∈ c :: wordAt r, isBracket d = false := by
    refine List.forall_mem_cons.mpr ⟨?_, fun d hd => ?_⟩
    · exact isBracket_of_isWordOrDot (by simp [isWordOrDot, hc])
    · exact isBracket_of_isWordOrDot (by simp [isWordOrDot, isWordChar_of_mem_wordAt hr d hd])
  have hsplit : wordAt r ++ r.dropWhile isNameChar = r := List.takeWhile_append_dropWhile
  have hrest : IsPassage stack (r.dropWhile isNameChar) :=
    IsPassage.drop_word (hsplit.symm ▸ h) hword
  have hlength : (r.dropWhile isNameChar).length ≤ r.length :=
    (List.dropWhile_sublist isNameChar).length_le
  have hbehind := ih false stack _ hlength hrest
  by_cases hopen : ∃ tail, r.dropWhile isNameChar = '(' :: tail
  · obtain ⟨tail, htail⟩ := hopen
    by_cases hraw : rawFunctions.contains (String.ofList (c :: wordAt r)).toLower
    · exact readable_rawWord hc hscan hr htail hraw (htail ▸ hrest) ih
    · refine readable_plainWord (fun behind hstops => ?_) hbehind
      rw [hscan behind hstops, scanWord_passage hc hr hstops]
      refine scanWordEnd_plain fun _ => ?_
      rw [takesArgument, Bool.eq_false_iff.mpr hraw, Bool.false_and]
  · refine readable_plainWord (fun behind hstops => ?_) hbehind
    rw [hscan behind hstops, scanWord_passage hc hr hstops]
    -- what opens is either in the passage or behind it, where no parenthesis stands
    refine scanWordEnd_plain fun hhead => ?_
    cases hdrop : r.dropWhile isNameChar with
    | nil =>
        rw [hdrop, List.nil_append] at hhead
        exact absurd rfl (hstops.ne (by decide) (by decide) '(' hhead)
    | cons d rest =>
        rw [hdrop] at hhead
        exact absurd ⟨rest, by rw [hdrop, Option.some.inj hhead]⟩ hopen

end Words

theorem startsNumeral_passage {behind : List Char} (hbehind : Stops behind) (r : List Char) :
    startsNumeral (r ++ behind) = startsNumeral r := by
  have hdigit := fun r : List Char =>
    head?_append_of_stops (r := r) Char.isDigit (by decide) (by decide) hbehind
  cases r with
  | cons c r => rw [List.cons_append, startsNumeral_cons, startsNumeral_cons, hdigit]
  | nil =>
      cases behind with
      | nil => rfl
      | cons d behind =>
          rw [List.nil_append, startsNumeral_cons]
          rcases hbehind d rfl with rfl | rfl
          · rfl
          · rfl

/-- A number in a passage ends there. -/
theorem scanNumber_passage {r : List Char} (front : List Char) (negative : Bool)
    (hr : ∀ d ∈ r, isPassageChar d = true) :
    ∃ value unit more after, r = more ++ after ∧ (∀ d ∈ more, isBracket d = false) ∧
      ∀ behind, Stops behind →
        scanNumber front (r ++ behind) negative = .token (.number value unit) more := by
  obtain ⟨rest, hsplit⟩ := isPrefix_spanNumeral (front.contains '.') r
  have hword := isWordOrDot_of_mem_spanNumeral (front.contains '.') r
  have hspan := fun behind hbehind => @spanNumeral_passage behind hbehind (front.contains '.') r
  generalize spanNumeral (front.contains '.') r = numeral at hsplit hword hspan
  subst hsplit
  have hrest : ∀ d ∈ rest, isPassageChar d = true := fun d hd => hr d (List.mem_append_right _ hd)
  obtain ⟨unit, ⟨after, rfl⟩, hunitWord, hunit⟩ := spanUnit_passage hrest
  refine ⟨if negative then -numeralValue (front ++ numeral) else numeralValue (front ++ numeral),
    String.ofList unit, numeral ++ unit, after, (List.append_assoc _ _ _).symm, ?_, ?_⟩
  · refine List.forall_mem_append.mpr ⟨fun d hd => isBracket_of_isWordOrDot (hword d hd), fun d hd => ?_⟩
    exact isBracket_of_isWordOrDot (by simp [isWordOrDot, hunitWord d hd])
  · intro behind hbehind
    rw [scanNumber, hspan behind hbehind, List.append_assoc, List.drop_left, hunit behind hbehind]

/-- A passage beginning with a number, if what is behind the number is readable. -/
theorem readable_number {signed : Bool} {stack r front : List Char} {c : Char} {negative : Bool}
    (hc : isBracket c = false)
    (hscan : ∀ behind, Stops behind →
      scan signed c (r ++ behind) = scanNumber front (r ++ behind) negative)
    (h : IsPassage stack (c :: r))
    (ih : ∀ s stack' r', r'.length ≤ r.length → IsPassage stack' r' →
      Readable s stack'.length r') : Readable signed stack.length (c :: r) := by
  have hr : ∀ d ∈ r, isPassageChar d = true := (List.forall_mem_cons.mp h.chars).2
  obtain ⟨value, unit, more, after, rfl, hmore, hnumber⟩ := scanNumber_passage front negative hr
  have hrest : IsPassage stack after := h.drop_word (List.forall_mem_cons.mpr ⟨hc, hmore⟩)
  have hfound : ∀ behind, Stops behind →
      scan signed c (more ++ (after ++ behind)) = .token (.number value unit) more := by
    intro behind hbehind
    rw [← List.append_assoc, hscan behind hbehind, hnumber behind hbehind]
  refine Readable.plain rfl hfound (ih _ stack after ?_ hrest)
  rw [List.length_append]
  exact Nat.le_add_left _ _

/-- A passage beginning with a dash, if what is behind its first token is readable. -/
theorem readable_dash {signed : Bool} {stack r : List Char} (h : IsPassage stack ('-' :: r))
    (ih : ∀ s stack' r', r'.length ≤ r.length → IsPassage stack' r' →
      Readable s stack'.length r') : Readable signed stack.length ('-' :: r) := by
  have hscan : ∀ behind, Stops behind → scan signed '-' (r ++ behind) =
      if signed && startsNumeral r then scanNumber [] (r ++ behind) true
      else if r.head?.any fun c => isNameStart c || c == '-' then scanWord '-' (r ++ behind)
      else .token (.mark .minus) [] := by
    intro behind hbehind
    rw [scan_dash, startsNumeral_passage hbehind,
      head?_append_of_stops _ (by decide) (by decide) hbehind]
  by_cases hnumber : (signed && startsNumeral r) = true
  · exact readable_number rfl (fun behind hbehind => (hscan behind hbehind).trans (if_pos hnumber)) h ih
  simp only [if_neg hnumber] at hscan
  by_cases hword : (r.head?.any fun c => isNameStart c || c == '-') = true
  · exact readable_word rfl (fun behind hbehind => (hscan behind hbehind).trans (if_pos hword)) h ih
  · refine Readable.mark rfl (fun behind hbehind => (hscan behind hbehind).trans (if_neg hword)) ?_
    exact fun s => ih s stack r (Nat.le_refl _) (h.behind rfl)

/-- A passage beginning with a space, if what is behind it is readable. -/
theorem readable_space {signed : Bool} {stack r : List Char} (h : IsPassage stack (' ' :: r))
    (behind : Readable true stack.length r) : Readable signed stack.length (' ' :: r) := by
  cases r with
  | nil => exact absurd rfl ((List.isChain_cons_cons.mp h.spaced).1 rfl)
  | cons d r =>
      have hd : d ≠ ' ' := (List.isChain_cons_cons.mp h.spaced).1 rfl
      have hblank : isBlank d = false := by
        rcases isPassageChar_cases (h.chars d (by simp)) with hword | rfl | hmark
        · exact isBlank_of_isWordChar hword
        · exact absurd rfl hd
        · fin_cases hmark <;> decide
      have hscan : ∀ behind, Stops behind →
          scan signed ' ' ([] ++ (d :: r ++ behind)) = .token .blank [] := by
        intro behind _
        show Scan.token .blank ((d :: (r ++ behind)).takeWhile isBlank) = .token .blank []
        rw [List.takeWhile_cons_of_neg (by simp [hblank])]
      exact Readable.token hscan rfl behind fun ls hls => .blank hls

/-- A passage beginning with a bracket that opens, if what is behind it is readable. -/
theorem readable_opening {signed : Bool} {depth : Nat} {r : List Char} {m : Mark} {c : Char}
    (hm : m = .openParen ∨ m = .openBracket) (htext : m.text = String.ofList [c])
    (hscan : ∀ rest, scan signed c rest = .token (.mark m) [])
    (behind : ∀ s, Readable s (depth + 1) r) : Readable signed depth (c :: r) := by
  have hfound : ∀ rest, Stops rest → scan signed c ([] ++ (r ++ rest)) = .token (.mark m) [] :=
    fun rest _ => hscan _
  refine Readable.token hfound htext (behind _) fun ls hls => ?_
  have hpassage := Passage.opening hm hls
  rw [htext, String.toList_ofList] at hpassage
  exact hpassage

/-- A passage beginning with a bracket that closes, if what is behind it is readable. -/
theorem readable_closing {signed : Bool} {depth : Nat} {r : List Char} {m : Mark} {c : Char}
    (hm : m = .closeParen ∨ m = .closeBracket) (htext : m.text = String.ofList [c])
    (hscan : ∀ rest, scan signed c rest = .token (.mark m) [])
    (behind : ∀ s, Readable s depth r) : Readable signed (depth + 1) (c :: r) := by
  have hfound : ∀ rest, Stops rest → scan signed c ([] ++ (r ++ rest)) = .token (.mark m) [] :=
    fun rest _ => hscan _
  refine Readable.token hfound htext (behind _) fun ls hls => ?_
  have hpassage := Passage.closing hm hls
  rw [htext, String.toList_ofList] at hpassage
  exact hpassage

/-- A passage beginning with a mark that can have an `=` behind it, if what follows is readable. -/
theorem readable_comparison {signed : Bool} {stack r : List Char} {c : Char} {alone joined : Kind}
    (hc : isBracket c = false)
    (hscan : ∀ rest, scan signed c rest =
      if rest.head? = some '=' then .token joined ['='] else .token alone [])
    (halone : alone.isPlain = true) (hjoined : joined.isPlain = true)
    (h : IsPassage stack (c :: r))
    (ih : ∀ s stack' r', r'.length ≤ r.length → IsPassage stack' r' →
      Readable s stack'.length r') : Readable signed stack.length (c :: r) := by
  by_cases hequal : ∃ after, r = '=' :: after
  · obtain ⟨after, rfl⟩ := hequal
    have hfound : ∀ behind, Stops behind →
        scan signed c (['='] ++ (after ++ behind)) = .token joined ['='] := fun behind _ =>
      (hscan _).trans (if_pos rfl)
    refine Readable.plain hjoined hfound (ih _ stack after (by simp) ?_)
    exact (h.behind hc).behind (by decide)
  · have hfound : ∀ behind, Stops behind →
        scan signed c ([] ++ (r ++ behind)) = .token alone [] := by
      intro behind hbehind
      refine (hscan _).trans (if_neg fun hhead => ?_)
      cases r with
      | nil => exact hbehind.ne (by decide) (by decide) '=' hhead rfl
      | cons d r => exact hequal ⟨r, by rw [Option.some.inj hhead]⟩
    exact Readable.plain halone hfound (ih _ stack r (Nat.le_refl _) (h.behind hc))

/-- A passage beginning with `#`, if what is behind the name is readable. -/
theorem readable_hash {signed : Bool} {stack r : List Char} (h : IsPassage stack ('#' :: r))
    (ih : ∀ s stack' r', r'.length ≤ r.length → IsPassage stack' r' →
      Readable s stack'.length r') : Readable signed stack.length ('#' :: r) := by
  have hr : ∀ d ∈ r, isPassageChar d = true := (List.forall_mem_cons.mp h.chars).2
  have hscan : ∀ behind, Stops behind → scan signed '#' (r ++ behind) =
      if (wordAt r).isEmpty then .token (.stray '#') []
      else .token (.hash (String.ofList (wordAt r))) (wordAt r) := by
    intro behind hbehind
    rw [scan_hash, spanName_passage hr hbehind]
    cases r with
    | nil => exact fun hhead => hbehind.ne (by decide) (by decide) '\x7b' hhead rfl
    | cons d r =>
        exact fun hhead => ne_of_test (hr d List.mem_cons_self) (by decide) (Option.some.inj hhead)
  by_cases hname : (wordAt r).isEmpty = true
  · simp only [if_pos hname] at hscan
    have hfound : ∀ behind, Stops behind →
        scan signed '#' ([] ++ (r ++ behind)) = .token (.stray '#') [] := hscan
    exact Readable.plain rfl hfound (ih _ stack r (Nat.le_refl _) (h.behind (by decide)))
  · simp only [if_neg hname] at hscan
    have hword : ∀ d ∈ '#' :: wordAt r, isBracket d = false := by
      refine List.forall_mem_cons.mpr ⟨by decide, fun d hd => ?_⟩
      exact isBracket_of_isWordOrDot (by simp [isWordOrDot, isWordChar_of_mem_wordAt hr d hd])
    obtain ⟨rest, hsplit⟩ := isPrefix_wordAt r
    generalize wordAt r = name at hscan hword hsplit
    subst hsplit
    have hfound : ∀ behind, Stops behind →
        scan signed '#' (name ++ (rest ++ behind)) = .token (.hash (String.ofList name)) name := by
      intro behind hbehind
      rw [← List.append_assoc, hscan behind hbehind]
    refine Readable.plain rfl hfound (ih _ stack rest ?_ (h.drop_word hword))
    rw [List.length_append]
    exact Nat.le_add_left _ _

/-- A passage beginning with a mark, if what is behind it is readable. -/
theorem readable_mark {signed : Bool} {stack r : List Char} {c : Char} (hc : c ∈ passageMarks)
    (h : IsPassage stack (c :: r))
    (ih : ∀ s stack' r', r'.length ≤ r.length → IsPassage stack' r' →
      Readable s stack'.length r') : Readable signed stack.length (c :: r) := by
  have behind (hbracket : isBracket c = false) (s : Bool) : Readable s stack.length r :=
    ih s stack r (Nat.le_refl _) (h.behind hbracket)
  -- what is behind a bracket, with others open
  have inside {below : List Char} (hnested : Nested below r) (s : Bool) : Readable s below.length r :=
    ih s below r (Nat.le_refl _) (@IsPassage.drop stack [] r c h below hnested)
  simp only [passageMarks, List.mem_cons, List.not_mem_nil, or_false] at hc
  rcases hc with rfl | rfl | rfl | rfl | rfl | rfl | rfl | rfl | rfl | rfl | rfl | rfl | rfl
  · by_cases hdigit : r.head?.any Char.isDigit = true
    · have hscan : ∀ rest, Stops rest → scan signed '.' (r ++ rest) = scanNumber ['.'] (r ++ rest) false := by
        intro rest hrest
        rw [scan_dot, head?_append_of_stops _ (by decide) (by decide) hrest, if_pos hdigit]
      exact readable_number (by decide) hscan h ih
    · refine Readable.mark (m := .dot) rfl (fun rest hrest => ?_) (behind (by decide))
      rw [scan_dot, head?_append_of_stops _ (by decide) (by decide) hrest, if_neg hdigit]
  · exact readable_hash h ih
  · have hnested : Nested (']' :: stack) r := by simpa [Nested] using h.nested
    exact readable_opening (Or.inr rfl) rfl (fun _ => rfl) (inside hnested)
  · obtain ⟨below, rfl, hnested⟩ : ∃ below, stack = ']' :: below ∧ Nested below r := by
      simpa [Nested] using h.nested
    exact readable_closing (Or.inr rfl) rfl (fun _ => rfl) (inside hnested)
  · have hnested : Nested (')' :: stack) r := by simpa [Nested] using h.nested
    exact readable_opening (Or.inl rfl) rfl (fun _ => rfl) (inside hnested)
  · obtain ⟨below, rfl, hnested⟩ : ∃ below, stack = ')' :: below ∧ Nested below r := by
      simpa [Nested] using h.nested
    exact readable_closing (Or.inl rfl) rfl (fun _ => rfl) (inside hnested)
  · have hscan : ∀ rest, Stops rest →
        scan signed ':' ([] ++ (r ++ rest)) = .token (.mark .colon) [] := fun _ _ => rfl
    exact Readable.token hscan rfl (behind (by decide) _) fun ls hls => .colon hls
  · exact readable_comparison (by decide) (scan_comparison rfl signed) rfl rfl h ih
  · exact Readable.mark (m := .plus) rfl (fun _ _ => rfl) (behind (by decide))
  · exact Readable.mark (m := .tilde) rfl (fun _ _ => rfl) (behind (by decide))
  · exact Readable.mark (m := .star) rfl (fun _ _ => rfl) (behind (by decide))
  · exact readable_comparison (by decide) (scan_comparison rfl signed) rfl rfl h ih
  · exact Readable.mark (m := .comma) rfl (fun _ _ => rfl) (behind (by decide))

/-- **A passage is read as such**, and its lexemes do not depend on what follows. -/
theorem readable_of_isPassage (cs : List Char) (signed : Bool) (stack : List Char)
    (h : IsPassage stack cs) : Readable signed stack.length cs := by
  induction hlength : cs.length using Nat.strong_induction_on generalizing cs signed stack with
  | _ n ih =>
  cases cs with
  | nil =>
      obtain rfl : stack = [] := h.nested
      exact .nil signed
  | cons c r =>
      have ih : ∀ s stack' r', r'.length ≤ r.length → IsPassage stack' r' →
          Readable s stack'.length r' := fun s stack' r' hr' h' =>
        ih r'.length (by rw [← hlength, List.length_cons]; omega) r' s stack' h' rfl
      obtain ⟨hc, hr⟩ := List.forall_mem_cons.mp h.chars
      have behind (hbracket : isBracket c = false) (s : Bool) : Readable s stack.length r :=
        ih s stack r (Nat.le_refl _) (h.behind hbracket)
      rcases isPassageChar_cases hc with hword | rfl | hmark
      · have hbracket : isBracket c = false :=
          isBracket_of_isWordOrDot (by simp [isWordOrDot, hword])
        have hblank := isBlank_of_isWordChar hword
        rcases isWordChar_cases hword with hstart | hdigit | rfl
        · exact readable_word hword (fun _ _ => scan_nameStart hstart hblank) h ih
        · exact readable_number hbracket (fun _ _ => scan_digit hdigit) h ih
        · exact readable_dash h ih
      · exact readable_space h (behind (by decide) true)
      · exact readable_mark hmark h ih

/-- The lexemes of a passage. -/
def passageLexemes (cs : List Char) : List Lexeme :=
  match readFrom true (Position.start "") 0 0 cs with
  | .ok tokens => (tokens.map lexeme).dropLast
  | .error _ => []

/-- **The lexemes of a passage make up its text**, and stand in front of those of what follows. -/
theorem passageLexemes_spec {cs : List Char} (h : IsPassage [] cs) :
    Passage 0 (passageLexemes cs) cs ∧ ∀ behind back, Stops behind →
      (∀ s, Lexes s behind back) → Lexes true (cs ++ behind) (passageLexemes cs ++ back) := by
  obtain ⟨ls, hls, hlexes⟩ := readable_of_isPassage cs true [] h
  obtain ⟨tokens, htokens, hmap⟩ :=
    hlexes [] _ (fun _ hd => nomatch hd) Lexes.nil (Position.start "") 0
  rw [List.append_nil] at htokens
  have hpassage : passageLexemes cs = ls := by
    rw [passageLexemes, htokens]
    dsimp only
    rw [hmap, List.dropLast_concat]
  rw [hpassage]
  exact ⟨hls, hlexes⟩

end Token

end Scss
