import Scss.Proofs.Lexing

/-!
# What begins with a character

The scanner decides by the first character which token it reads, and often by what stands behind it.
Here is one equation for each of the cases that texts are later taken apart by: arguments and units,
numbers, dashes, hashes, comparisons, and words. A word is read in two steps, its name and what a
parenthesis behind the name means (`scanWord_eq`).
-/

namespace Scss.Token

open Text

/-! ## Spans -/

/-- Outside strings only quotes and parentheses matter. -/
theorem spanArguments_none_cons (depth : Nat) (c : Char) (rest : List Char) :
    spanArguments none depth (c :: rest) =
      if c = '"' ∨ c = '\'' then (spanArguments (some c) depth rest).add [c]
      else if c = '(' then (spanArguments none (depth + 1) rest).add [c]
      else if c = ')' then
        match depth with
        | 0 => ⟨[], true⟩
        | depth + 1 => (spanArguments none depth rest).add [c]
      else (spanArguments none depth rest).add [c] := by
  cases depth with
  | zero => exact spanArguments.eq_5 c rest
  | succ depth => exact spanArguments.eq_6 c rest depth

theorem spanUnit_cons (c : Char) (rest : List Char) :
    spanUnit (c :: rest) =
      if c = '%' then ['%'] else if isNameStart c then (spanName (c :: rest)).1 else [] := by
  unfold spanUnit
  split
  next h => rw [if_pos (List.cons.inj h).1]
  next hpercent h =>
    obtain ⟨rfl, rfl⟩ := List.cons.inj h
    rw [if_neg fun hc => hpercent hc]
  next h => cases h

theorem startsNumeral_cons (c : Char) (rest : List Char) : startsNumeral (c :: rest) =
    if c = '.' then rest.head?.any Char.isDigit else c.isDigit := by
  unfold startsNumeral
  split
  next h =>
    obtain ⟨rfl, rfl⟩ := List.cons.inj h
    rfl
  next d _ hne h =>
    obtain ⟨rfl, rfl⟩ := List.cons.inj h
    split
    next heq =>
      subst heq
      cases rest with
      | nil => rfl
      | cons e rest => exact absurd rfl (hne e rest rfl)
    · rfl
  next h => cases h

/-! ## Numbers and marks -/

theorem isBlank_of_isDigit {c : Char} (h : c.isDigit = true) : isBlank c = false := by
  simp only [Char.isDigit, Bool.and_eq_true, decide_eq_true_eq, UInt32.le_iff_toNat_le, ge_iff_le] at h
  have hval : c.toNat = c.val.toNat := rfl
  simp [isBlank, blankRanges] at h ⊢
  omega

theorem scan_digit {signed : Bool} {c : Char} {rest : List Char} (hc : c.isDigit = true) :
    scan signed c rest = scanNumber [c] rest false := by
  have hblank := isBlank_of_isDigit hc
  unfold scan
  rw [if_neg (by simp [hblank])]
  split
  all_goals try exact absurd hc (by decide)
  exact if_pos hc

theorem scan_dash (signed : Bool) (rest : List Char) : scan signed '-' rest =
    if signed && startsNumeral rest then scanNumber [] rest true
    else if rest.head?.any fun c => isNameStart c || c == '-' then scanWord '-' rest
    else .token (.mark .minus) [] := rfl

/-- Without a brace behind it, `#` begins a hash. -/
theorem scan_hash (signed : Bool) {rest : List Char} (hrest : rest.head? ≠ some '\x7b') :
    scan signed '#' rest =
      if (spanName rest).1.isEmpty then .token (.stray '#') []
      else .token (.hash (String.ofList (spanName rest).1)) (spanName rest).1 := by
  unfold scan
  rw [if_neg (by decide)]
  split
  all_goals first
    | rfl
    | exact absurd rfl hrest
    | simp_all

theorem scan_dot (signed : Bool) (rest : List Char) : scan signed '.' rest =
    if rest.head?.any Char.isDigit then scanNumber ['.'] rest false else .token (.mark .dot) [] := rfl

theorem head?_ne_of_not_cons {c : Char} {rest : List Char} (h : ¬∃ tail, rest = c :: tail) :
    rest.head? ≠ some c := by
  cases rest with
  | nil => exact nofun
  | cons d rest => exact fun hd => h ⟨rest, by rw [Option.some.inj hd]⟩

/-- What a character is together with an `=` behind it, and what it is alone. -/
def comparison? : Char → Option (Kind × Kind)
  | '<' => some (.mark .lessEqual, .mark .less)
  | '>' => some (.mark .greaterEqual, .mark .greater)
  | '=' => some (.mark .equal, .stray '=')
  | _ => none

theorem scan_comparison {c : Char} {joined alone : Kind} (h : comparison? c = some (joined, alone))
    (signed : Bool) (rest : List Char) : scan signed c rest =
      if rest.head? = some '=' then .token joined ['='] else .token alone [] := by
  obtain ⟨rfl, rfl, rfl⟩ | ⟨rfl, rfl, rfl⟩ | ⟨rfl, rfl, rfl⟩ :
      (c = '<' ∧ joined = .mark .lessEqual ∧ alone = .mark .less) ∨
      (c = '>' ∧ joined = .mark .greaterEqual ∧ alone = .mark .greater) ∨
      (c = '=' ∧ joined = .mark .equal ∧ alone = .stray '=') := by
    unfold comparison? at h
    split at h <;> simp_all
  all_goals
    by_cases hequal : ∃ tail, rest = '=' :: tail
    · obtain ⟨tail, rfl⟩ := hequal
      rfl
    · rw [if_neg (head?_ne_of_not_cons hequal)]
      unfold scan
      rw [if_neg (by decide)]
      split
      all_goals first
        | rfl
        | exact absurd ⟨_, rfl⟩ hequal
        | simp_all

/-! ## Words -/

/-- Whether a quote stands behind the first character and blanks. -/
def quoteFollows (behind : List Char) : Bool :=
  (dropBlanks behind.tail).head?.any fun c => c == '"' || c == '\''

/-- The characters of a word behind its first one. -/
def spanWord (first : Char) (rest : List Char) : List Char :=
  let escaped := if first = '\\' then rest.take 1 else []
  escaped ++ (spanName (rest.drop escaped.length)).1

/-- Whether the text behind a word is its argument, which is not read as an expression. -/
def takesArgument (name : String) (behind : List Char) : Bool :=
  rawFunctions.contains name.toLower && !(sameIgnoringCase name "url" && quoteFollows behind)

/-- What a word is, with some text behind it. -/
def scanWordEnd (name : String) (word behind : List Char) : Scan :=
  match behind with
  | '(' :: argument =>
    if takesArgument name behind then
      let s := spanArguments none 0 argument
      if s.closed then
        .token (.rawCall name (String.ofList s.text)) (word ++ '(' :: s.text ++ [')'])
      else .fail (.unterminated "function arguments") (word ++ '(' :: s.text)
    else .token (.word name) word
  | _ => .token (.word name) word

/-- A word by itself, unless a parenthesis behind it opens its argument. -/
theorem scanWordEnd_plain {name : String} {word behind : List Char}
    (h : behind.head? = some '(' → takesArgument name behind = false) :
    scanWordEnd name word behind = .token (.word name) word := by
  unfold scanWordEnd
  split
  next argument => exact if_neg (Bool.eq_false_iff.mp (h rfl))
  next => rfl

/-- A raw function is one token with its argument. -/
theorem scanWordEnd_rawCall {name : String} {word argument text : List Char}
    (htakes : takesArgument name ('(' :: argument) = true)
    (hspan : spanArguments none 0 argument = ⟨text, true⟩) :
    scanWordEnd name word ('(' :: argument) =
      .token (.rawCall name (String.ofList text)) (word ++ '(' :: text ++ [')']) := by
  rw [scanWordEnd, if_pos htakes, hspan]
  rfl

/-- A word is read in two steps: its name, and what stands behind that. -/
theorem scanWord_eq (first : Char) (rest : List Char) :
    scanWord first rest = scanWordEnd (String.ofList (first :: spanWord first rest))
      (spanWord first rest) (rest.drop (spanWord first rest).length) := by
  unfold scanWord
  extract_lets escaped word name plain
  have hword : spanWord first rest = word := rfl
  rw [hword]
  generalize rest.drop word.length = behind
  split
  next argument =>
    show _ = if (_ && !(_ && (dropBlanks argument).head?.any _)) = true then _ else _
    cases rawFunctions.contains name.toLower with
    | false => rfl
    | true =>
        cases sameIgnoringCase name "url" &&
            (dropBlanks argument).head?.any fun c => c == '"' || c == '\'' with
        | false => rfl
        | true => rfl
  next hnone =>
    refine (scanWordEnd_plain fun hopen => ?_).symm
    obtain ⟨argument, rfl⟩ := List.head?_eq_some_iff.mp hopen
    exact absurd rfl (hnone argument)

/-- A word with nothing behind it that it takes, or a function with its argument. -/
theorem scanWordEnd_cases {name : String} {word behind more : List Char} {kind : Kind}
    (h : scanWordEnd name word behind = .token kind more) :
    (kind = .word name ∧ more = word ∧
        (behind.head? = some '(' → takesArgument name behind = false)) ∨
      ∃ text after, behind = '(' :: (text ++ ')' :: after) ∧ takesArgument name behind = true ∧
        spanArguments none 0 (text ++ ')' :: after) = ⟨text, true⟩ ∧
        kind = .rawCall name (String.ofList text) ∧ more = word ++ '(' :: text ++ [')'] := by
  unfold scanWordEnd at h
  split at h
  next argument =>
    split at h
    next hraw =>
      dsimp only at h
      split at h
      next hclosed =>
        obtain ⟨rfl, rfl⟩ := Scan.token.inj h
        obtain ⟨after, hafter⟩ := isPrefix_spanArguments hclosed
        have hargument : argument = (spanArguments none 0 argument).text ++ ')' :: after :=
          hafter.symm.trans (List.append_assoc _ _ _)
        refine .inr ⟨_, after, congrArg ('(' :: ·) hargument, hraw, ?_, rfl, rfl⟩
        rw [← hargument]
        exact congrArg (Span.mk (spanArguments none 0 argument).text) hclosed
      next => cases h
    next hraw =>
      obtain ⟨rfl, rfl⟩ := Scan.token.inj h
      exact .inl ⟨rfl, rfl, fun _ => Bool.eq_false_iff.mpr hraw⟩
  next hnone =>
    obtain ⟨rfl, rfl⟩ := Scan.token.inj h
    refine .inl ⟨rfl, rfl, fun hhead => ?_⟩
    cases behind with
    | nil => cases hhead
    | cons c argument => exact absurd (Option.some.inj hhead ▸ rfl) (hnone argument)

end Scss.Token
