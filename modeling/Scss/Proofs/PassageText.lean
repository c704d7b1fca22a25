import Scss.Proofs.Scanning
import Scss.Text.Split

/-!
# The characters of a passage

Selectors, queries and names of properties are written with the characters of words, with some marks and
with spaces, in brackets that are closed. Behind such a text stands a space or a colon, and neither
goes on with anything: so names, numerals, units and raw arguments that begin in the text end in it.
-/

namespace Scss

namespace Text

/-- A text with no blanks at its ends. -/
structure IsTrimmed (cs : List Char) : Prop where
  nonempty : cs ≠ []
  front : ∀ c ∈ cs.head?, isBlank c = false
  back : ∀ c ∈ cs.getLast?, isBlank c = false

namespace IsTrimmed

variable {cs ds : List Char}

theorem singleton {c : Char} (h : isBlank c = false) : IsTrimmed [c] :=
  ⟨List.cons_ne_nil _ _, by simp [h], by simp [h]⟩

theorem head_append (h : IsTrimmed cs) (ds : List Char) :
    ∀ c ∈ (cs ++ ds).head?, isBlank c = false := by
  rw [List.head?_append_of_ne_nil _ h.nonempty]
  exact h.front

/-- What stands between two texts does not matter. -/
theorem append (h : IsTrimmed cs) (between : List Char) (h' : IsTrimmed ds) :
    IsTrimmed (cs ++ (between ++ ds)) where
  nonempty hnil := h.nonempty (List.append_eq_nil_iff.mp hnil).1
  front := h.head_append _
  back c hc := by
    rw [← List.append_assoc, List.getLast?_append_of_ne_nil _ h'.nonempty] at hc
    exact h'.back c hc

theorem dropBlanks_append (h : IsTrimmed cs) (ds : List Char) : dropBlanks (cs ++ ds) = cs ++ ds := by
  obtain ⟨c, rest, rfl⟩ := List.exists_cons_of_ne_nil h.nonempty
  exact List.dropWhile_cons_of_neg (by simp [h.front c rfl])

theorem dropBlanks_eq (h : IsTrimmed cs) : dropBlanks cs = cs := by
  simpa using h.dropBlanks_append []

theorem dropBlanksEnd_eq (h : IsTrimmed cs) : dropBlanksEnd cs = cs := by
  rw [dropBlanksEnd, dropBlanks]
  cases hcs : cs.reverse with
  | nil => rw [← List.reverse_reverse cs, hcs]; rfl
  | cons c rest =>
      have hlast : cs.getLast? = some c := by rw [← List.head?_reverse, hcs, List.head?_cons]
      rw [List.dropWhile_cons_of_neg (by simp [h.back c hlast]), ← hcs, List.reverse_reverse]

/-- Blanks behind it are dropped, and nothing else. -/
theorem dropBlanksEnd_append (h : IsTrimmed cs) {blanks : List Char}
    (hblanks : ∀ c ∈ blanks, isBlank c = true) : dropBlanksEnd (cs ++ blanks) = cs := by
  have hdrop : dropBlanksEnd (cs ++ blanks) = dropBlanksEnd cs := by
    have hreverse : ∀ c ∈ blanks.reverse, isBlank c = true := fun c hc =>
      hblanks c (List.mem_reverse.mp hc)
    rw [dropBlanksEnd, dropBlanks, List.reverse_append, List.dropWhile_append_of_pos hreverse]
    rfl
  rw [hdrop, h.dropBlanksEnd_eq]

/-- Blanks behind a text go. -/
theorem trim_append {s : String} (h : IsTrimmed s.toList) {blanks : String}
    (hblanks : ∀ c ∈ blanks.toList, isBlank c = true) : trim (s ++ blanks) = s := by
  rw [trim, String.toList_append, h.dropBlanks_append, h.dropBlanksEnd_append hblanks,
    String.ofList_toList]

/-- A trimmed text is left as it is. -/
theorem trim_eq {s : String} (h : IsTrimmed s.toList) : trim s = s := by
  rw [trim, h.dropBlanks_eq, h.dropBlanksEnd_eq, String.ofList_toList]

end IsTrimmed

/-- Trimming takes away blanks at both ends. -/
theorem exists_dropBlanks (cs : List Char) : ∃ front back : List Char,
    (∀ c ∈ front, isBlank c = true) ∧ (∀ c ∈ back, isBlank c = true) ∧
      cs = front ++ (dropBlanksEnd (dropBlanks cs) ++ back) ∧
        (dropBlanksEnd (dropBlanks cs) = [] ∨ IsTrimmed (dropBlanksEnd (dropBlanks cs))) := by
  have hfront : cs.takeWhile isBlank ++ dropBlanks cs = cs := List.takeWhile_append_dropWhile
  have hback : dropBlanksEnd (dropBlanks cs) ++
      ((dropBlanks cs).reverse.takeWhile isBlank).reverse = dropBlanks cs := by
    rw [dropBlanksEnd, dropBlanks, ← List.reverse_append, List.takeWhile_append_dropWhile,
      List.reverse_reverse]
  refine ⟨cs.takeWhile isBlank, ((dropBlanks cs).reverse.takeWhile isBlank).reverse,
    fun c hc => List.mem_takeWhile_imp hc,
    fun c hc => List.mem_takeWhile_imp (List.mem_reverse.mp hc), ?_, ?_⟩
  · rw [hback, hfront]
  · -- what is left begins and ends where the two runs of blanks stopped
    by_cases hnil : dropBlanksEnd (dropBlanks cs) = []
    · exact Or.inl hnil
    · refine Or.inr ⟨hnil, fun c hc => ?_, fun c hc => ?_⟩
      · have hhead : (dropBlanks cs).head? = some c := by
          rw [← hback, List.head?_append_of_ne_nil _ hnil]
          exact hc
        have hnot := List.head?_dropWhile_not isBlank cs
        rw [dropBlanks] at hhead
        rw [hhead] at hnot
        simpa using hnot
      · have hhead : (dropBlanks (dropBlanks cs).reverse).head? = some c := by
          rw [← List.getLast?_reverse]
          exact hc
        have hnot := List.head?_dropWhile_not isBlank (dropBlanks cs).reverse
        rw [dropBlanks] at hhead
        rw [hhead] at hnot
        simpa using hnot

/-- The first text, and the others with the joint in front of each. -/
theorem toList_intercalate_cons (joint first : String) (rest : List String) :
    (joint.intercalate (first :: rest)).toList =
      first.toList ++ (rest.map String.toList).flatMap (joint.toList ++ ·) := by
  induction rest generalizing first with
  | nil => simp
  | cons next rest ih =>
      rw [String.intercalate_cons_of_ne_nil (List.cons_ne_nil _ _), String.toList_append,
        String.toList_append, ih]
      simp

/-- A character that words are made of. -/
def isWordChar (c : Char) : Bool := isNameChar c && !isBlank c

/-- The marks in selectors and queries. -/
def passageMarks : List Char := ['.', '#', '[', ']', '(', ')', ':', '>', '+', '~', '*', '=', ',']

def isPassageChar (c : Char) : Bool := isWordChar c || c == ' ' || passageMarks.contains c

theorem isNameChar_of_isWordChar {c : Char} (h : isWordChar c = true) : isNameChar c = true := by
  rw [isWordChar, Bool.and_eq_true] at h
  exact h.1

theorem isBlank_of_isWordChar {c : Char} (h : isWordChar c = true) : isBlank c = false := by
  rw [isWordChar, Bool.and_eq_true, Bool.not_eq_true'] at h
  exact h.2

/-- A word begins like a name, or with a digit or a dash. -/
theorem isWordChar_cases {c : Char} (h : isWordChar c = true) :
    isNameStart c = true ∨ c.isDigit = true ∨ c = '-' := by
  have hname := isNameChar_of_isWordChar h
  simp only [isNameChar, isNameStart, Char.isAlphanum, Bool.or_eq_true, beq_iff_eq] at hname ⊢
  tauto

/-- Brackets are closed in the order opposite to that in which they were opened; `stack` are the
closing brackets of those that are open. -/
def Nested (stack : List Char) : List Char → Prop
  | [] => stack = []
  | c :: rest =>
    if c = '(' then Nested (')' :: stack) rest
    else if c = '[' then Nested (']' :: stack) rest
    else if c = ')' ∨ c = ']' then ∃ below, stack = c :: below ∧ Nested below rest
    else Nested stack rest

def isBracket (c : Char) : Bool := c == '(' || c == '[' || c == ')' || c == ']'

theorem nested_cons {stack rest : List Char} {c : Char} (hc : isBracket c = false) :
    Nested stack (c :: rest) ↔ Nested stack rest := by
  simp only [isBracket, Bool.or_eq_false_iff, beq_eq_false_iff_ne] at hc
  rw [Nested, if_neg hc.1.1.1, if_neg hc.1.1.2, if_neg (not_or.mpr ⟨hc.1.2, hc.2⟩)]

/-- A word opens and closes nothing. -/
theorem nested_append {stack word rest : List Char} (hword : ∀ c ∈ word, isBracket c = false) :
    Nested stack (word ++ rest) ↔ Nested stack rest := by
  induction word with
  | nil => exact Iff.rfl
  | cons c word ih =>
      obtain ⟨hc, hword⟩ := List.forall_mem_cons.mp hword
      rw [List.cons_append, nested_cons hc, ih hword]

/-! ## Spans end with the passage -/

/-- What can follow a passage. -/
def Stops (behind : List Char) : Prop := ∀ d ∈ behind.head?, d = ' ' ∨ d = ':'

theorem stops_space (rest : List Char) : Stops (' ' :: rest) := fun _ hd =>
  Or.inl (Option.some.inj hd).symm

theorem stops_colon (rest : List Char) : Stops (':' :: rest) := fun _ hd =>
  Or.inr (Option.some.inj hd).symm

theorem Stops.endsName {behind : List Char} (h : Stops behind) : ∀ d ∈ behind.head?, EndsName d := by
  intro d hd
  rcases h d hd with rfl | rfl <;> exact ⟨by decide, by decide⟩

theorem Stops.ne {behind : List Char} (h : Stops behind) {c : Char} (hspace : c ≠ ' ')
    (hcolon : c ≠ ':') : ∀ d ∈ behind.head?, d ≠ c := by
  intro d hd
  rcases h d hd with rfl | rfl
  · exact hspace.symm
  · exact hcolon.symm

theorem isPassageChar_cases {c : Char} (h : isPassageChar c = true) :
    isWordChar c = true ∨ c = ' ' ∨ c ∈ passageMarks := by
  simpa only [isPassageChar, Bool.or_eq_true, beq_iff_eq, List.contains_iff_mem, or_assoc] using h

/-- The marks of a passage are not part of a name. -/
theorem isWordChar_of_isNameChar {c : Char} (h : isPassageChar c = true)
    (hname : isNameChar c = true) : isWordChar c = true := by
  rcases isPassageChar_cases h with h | rfl | h
  · exact h
  · exact absurd hname (by decide)
  · fin_cases h <;> exact absurd hname (by decide)

/-- Characters that a test tells apart are different. -/
theorem ne_of_test {p : Char → Bool} {c d : Char} (h : p c = true) (hd : p d = false) : c ≠ d := by
  rintro rfl
  rw [h] at hd
  cases hd

/-- The name at the front of a passage. -/
def wordAt (r : List Char) : List Char := r.takeWhile isNameChar

theorem isPrefix_wordAt (r : List Char) : wordAt r <+: r := List.takeWhile_prefix _

theorem isWordChar_of_mem_wordAt {r : List Char} (hr : ∀ d ∈ r, isPassageChar d = true) :
    ∀ d ∈ wordAt r, isWordChar d = true := fun d hd =>
  isWordChar_of_isNameChar (hr d ((isPrefix_wordAt r).subset hd)) (List.mem_takeWhile_imp hd)

/-- The name at the front of a passage ends where the passage does. -/
theorem spanName_passage {r behind : List Char} (hr : ∀ d ∈ r, isPassageChar d = true)
    (hbehind : Stops behind) :
    spanName (r ++ behind) = (wordAt r, r.dropWhile isNameChar ++ behind) := by
  have hsplit : r ++ behind = wordAt r ++ (r.dropWhile isNameChar ++ behind) := by
    rw [← List.append_assoc, wordAt, List.takeWhile_append_dropWhile]
  rw [hsplit]
  refine spanName_append (fun d hd => List.mem_takeWhile_imp hd) fun d hd => ?_
  cases hrest : r.dropWhile isNameChar with
  | nil =>
      rw [hrest] at hd
      exact hbehind.endsName d hd
  | cons c rest =>
      rw [hrest] at hd
      obtain rfl : c = d := Option.some.inj hd
      have hmem : c ∈ r := (List.dropWhile_suffix isNameChar).subset (hrest ▸ List.mem_cons_self)
      refine ⟨?_, ne_of_test (hr c hmem) (by decide)⟩
      have hhead := List.head?_dropWhile_not isNameChar r
      rw [hrest] at hhead
      simpa using hhead

end Text

namespace Token

open Text

/-- What a word or a number can be made of besides its first character. -/
def isWordOrDot (c : Char) : Bool := isWordChar c || c == '.'

theorem isBracket_of_isWordOrDot {c : Char} (h : isWordOrDot c = true) : isBracket c = false := by
  rw [isWordOrDot, Bool.or_eq_true, beq_iff_eq] at h
  rcases h with h | rfl
  · by_contra hbracket
    have hbracket : isBracket c = true := by simpa using hbracket
    simp only [isBracket, Bool.or_eq_true, beq_iff_eq] at hbracket
    rcases hbracket with ((rfl | rfl) | rfl) | rfl <;> exact absurd h (by decide)
  · decide

theorem isWordChar_of_isDigit {c : Char} (h : c.isDigit = true) : isWordChar c = true := by
  have hname : isNameChar c = true := by simp [isNameChar, Char.isAlphanum, h]
  simp [isWordChar, hname, isBlank_of_isDigit h]

/-- A test on the next character gives the same behind the passage as at its end. -/
theorem head?_append_of_stops {r behind : List Char} (test : Char → Bool) (hspace : test ' ' = false)
    (hcolon : test ':' = false) (hbehind : Stops behind) :
    (r ++ behind).head?.any test = r.head?.any test := by
  cases r with
  | cons d r => rfl
  | nil =>
      cases behind with
      | nil => rfl
      | cons d behind =>
          show test d = false
          rcases hbehind d rfl with rfl | rfl
          · exact hspace
          · exact hcolon

/-- A numeral in a passage ends there. -/
theorem spanNumeral_passage {behind : List Char} (hbehind : Stops behind) (pointSeen : Bool)
    (r : List Char) : spanNumeral pointSeen (r ++ behind) = spanNumeral pointSeen r := by
  induction r generalizing pointSeen with
  | nil =>
      cases behind with
      | nil => rfl
      | cons d behind =>
          rcases hbehind d rfl with rfl | rfl
          · simp [spanNumeral]
          · simp [spanNumeral]
  | cons c r ih =>
      rw [List.cons_append, spanNumeral, spanNumeral,
        head?_append_of_stops Char.isDigit (by decide) (by decide) hbehind, ih, ih]

theorem isWordOrDot_of_mem_spanNumeral (pointSeen : Bool) (r : List Char) :
    ∀ d ∈ spanNumeral pointSeen r, isWordOrDot d = true := by
  fun_induction spanNumeral pointSeen r with
  | case1 | case4 => exact fun _ h => absurd h List.not_mem_nil
  | case2 _ c rest hdigit ih =>
      refine List.forall_mem_cons.mpr ⟨?_, ih⟩
      simp [isWordOrDot, isWordChar_of_isDigit hdigit]
  | case3 _ c rest _ hpoint ih =>
      refine List.forall_mem_cons.mpr ⟨?_, ih⟩
      simp [isWordOrDot, hpoint.1]

/-- The unit of a number in a passage is a name there. -/
theorem spanUnit_passage {r : List Char} (hr : ∀ d ∈ r, isPassageChar d = true) :
    ∃ unit, unit <+: r ∧ (∀ d ∈ unit, isWordChar d = true) ∧
      ∀ behind, Stops behind → spanUnit (r ++ behind) = unit := by
  have hnone : ∀ behind, Stops behind → spanUnit ([] ++ behind) = [] := by
    intro behind hbehind
    cases behind with
    | nil => rfl
    | cons d behind =>
        rcases hbehind d rfl with rfl | rfl
        · rfl
        · rfl
  cases r with
  | nil => exact ⟨[], List.nil_prefix, fun _ h => absurd h List.not_mem_nil, hnone⟩
  | cons c r =>
      -- no passage has a percent sign, so that only a name can be the unit
      have hpercent : c ≠ '%' := ne_of_test (hr c List.mem_cons_self) (by decide)
      have hunit : ∀ behind, spanUnit (c :: r ++ behind) =
          if isNameStart c then (spanName (c :: r ++ behind)).1 else [] := fun behind =>
        (spanUnit_cons c (r ++ behind)).trans (if_neg hpercent)
      by_cases hc : isNameStart c = true
      · refine ⟨wordAt (c :: r), isPrefix_wordAt _, isWordChar_of_mem_wordAt hr, fun behind hbehind => ?_⟩
        rw [hunit, if_pos hc, spanName_passage hr hbehind]
      · refine ⟨[], List.nil_prefix, fun _ h => absurd h List.not_mem_nil, fun behind _ => ?_⟩
        rw [hunit, if_neg hc]

/-- Raw arguments in a passage end there, with the parenthesis that closes them. `inside` are the
brackets that were opened in them. -/
theorem spanArguments_passage {stack inside r : List Char} (hr : ∀ d ∈ r, isPassageChar d = true)
    (hnested : Nested (inside ++ ')' :: stack) r) :
    ∃ inner rest, r = inner ++ ')' :: rest ∧ Nested stack rest ∧
      ∀ behind, spanArguments none (inside.count ')') (r ++ behind) = ⟨inner, true⟩ := by
  induction r generalizing inside with
  | nil => exact absurd hnested (by simp [Nested])
  | cons c r ih =>
      obtain ⟨hc, hr⟩ := List.forall_mem_cons.mp hr
      -- what is said of `r` with other brackets open, said of the text with `c` in front
      have step : ∀ inside', Nested (inside' ++ ')' :: stack) r →
          (∀ behind, spanArguments none (inside.count ')') (c :: (r ++ behind)) =
            (spanArguments none (inside'.count ')') (r ++ behind)).add [c]) →
          ∃ inner rest, c :: r = inner ++ ')' :: rest ∧ Nested stack rest ∧
            ∀ behind, spanArguments none (inside.count ')') (c :: r ++ behind) = ⟨inner, true⟩ := by
        intro inside' hnested hspan
        obtain ⟨inner, rest, rfl, hrest, harguments⟩ := ih hr hnested
        refine ⟨c :: inner, rest, rfl, hrest, fun behind => ?_⟩
        rw [List.cons_append, hspan, harguments]
        rfl
      have hquote : ¬(c = '"' ∨ c = '\'') := by
        rintro (rfl | rfl) <;> exact absurd hc (by decide)
      rw [Nested] at hnested
      split at hnested
      next hopen =>
        refine step (')' :: inside) hnested fun behind => ?_
        rw [spanArguments_none_cons, if_neg hquote, if_pos hopen, List.count_cons_self]
      next hopen =>
        split at hnested
        next hbracket =>
          refine step (']' :: inside) hnested fun behind => ?_
          rw [spanArguments_none_cons, if_neg hquote, if_neg hopen, if_neg (by rw [hbracket]; decide)]
          simp
        next =>
          split at hnested
          next hclose =>
            obtain ⟨below, hbelow, hnested⟩ := hnested
            cases inside with
            | nil =>
                obtain ⟨rfl, rfl⟩ := List.cons.inj hbelow
                refine ⟨[], r, rfl, hnested, fun behind => ?_⟩
                exact (spanArguments_none_cons 0 ')' (r ++ behind)).trans (if_neg hquote)
            | cons top inside =>
                obtain ⟨rfl, rfl⟩ := List.cons.inj hbelow
                refine step inside hnested fun behind => ?_
                rcases hclose with rfl | rfl
                · rw [spanArguments_none_cons, if_neg hquote, List.count_cons_self]
                  rfl
                · rw [spanArguments_none_cons, if_neg hquote, List.count_cons_of_ne (by decide)]
                  rfl
          next hclose =>
            refine step inside hnested fun behind => ?_
            rw [spanArguments_none_cons, if_neg hquote, if_neg hopen, if_neg (not_or.mp hclose).1]

end Token

end Scss
