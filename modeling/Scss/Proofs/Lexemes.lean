import Mathlib
import Scss.Token.Lexer

/-!
# What the tokens of a text are

A reader of tokens can tell two of them apart by kind and by the text they were written as. Where they
stand it uses for messages only, and what a blank was written as it never looks at. What is left of
a token is a `Lexeme`, and `Lexes` says which lexemes a text has, wherever it is placed.

What a lexeme is depends on what follows. So the lexemes of a text are found from its end: with those
of what follows given, a token in front adds its own.
-/

namespace Scss

/-- What a reader can tell of a token. -/
structure Lexeme where
  kind : Token.Kind
  text : String

namespace Lexeme

def blank : Lexeme := ⟨.blank, ""⟩

def mark (m : Mark) : Lexeme := ⟨.mark m, m.text⟩

def word (name : String) : Lexeme := ⟨.word name, name⟩

def atWord (name : String) : Lexeme := ⟨.atWord name, "@" ++ name⟩

def quoted (text : String) (quote : Char) : Lexeme :=
  ⟨.quoted text quote, quote.toString ++ text ++ quote.toString⟩

/-- A flag, written without a space. -/
def flag (name : String) : Lexeme := ⟨.flag name, "!" ++ name⟩

def finish : Lexeme := ⟨.finish, ""⟩

end Lexeme

namespace Text

theorem isDigit_of_isNameStart {c : Char} (hc : isNameStart c = true) : c.isDigit = false := by
  simp only [isNameStart, isAscii, Char.isAlpha, Char.isUpper, Char.isLower, Bool.or_eq_true,
    Bool.and_eq_true, Bool.not_eq_true', decide_eq_true_eq, decide_eq_false_iff_not, beq_iff_eq,
    UInt32.le_iff_toNat_le, ge_iff_le] at hc
  simp only [Char.isDigit, Bool.and_eq_false_iff, decide_eq_false_iff_not, UInt32.le_iff_toNat_le,
    ge_iff_le]
  have hval : c.toNat = c.val.toNat := rfl
  rcases hc with (hc | rfl) | hc
  · simp at hc ⊢
    omega
  · decide
  · simp at hc ⊢
    omega

/-- A character that ends a name. -/
def EndsName (c : Char) : Prop := isNameChar c = false ∧ c ≠ '\\'

theorem spanName_cons {c : Char} (hc : isNameChar c = true) (rest : List Char) :
    spanName (c :: rest) = (c :: (spanName rest).1, (spanName rest).2) := by
  have hne : c ≠ '\\' := by
    rintro rfl
    exact absurd hc (by decide)
  conv_lhs => unfold spanName
  split
  next h => cases h
  next h => exact absurd (List.cons.inj h).1 hne
  next h => exact absurd (List.cons.inj h).1 hne
  next h =>
    obtain ⟨rfl, rfl⟩ := List.cons.inj h
    rw [if_pos hc]

/-- A name is read up to the first character that cannot be in one. -/
theorem spanName_append {name behind : List Char} (hname : ∀ c ∈ name, isNameChar c = true)
    (hbehind : ∀ c ∈ behind.head?, EndsName c) : spanName (name ++ behind) = (name, behind) := by
  induction name with
  | nil =>
      cases behind with
      | nil => rfl
      | cons c rest =>
          obtain ⟨hc, hne⟩ := hbehind c rfl
          show spanName (c :: rest) = ([], c :: rest)
          unfold spanName
          split
          next h => cases h
          next h => exact absurd (List.cons.inj h).1 hne
          next h => exact absurd (List.cons.inj h).1 hne
          next h =>
            obtain ⟨rfl, rfl⟩ := List.cons.inj h
            simp [hc]
  | cons c name ih =>
      obtain ⟨hc, hname⟩ := List.forall_mem_cons.mp hname
      rw [List.cons_append, spanName_cons hc, ih hname]

end Text

namespace Token

open Text

def lexeme (t : Token) : Lexeme := ⟨t.kind, if t.kind.isBlank then "" else t.text⟩

/-- Wherever a text is placed, it has these lexemes. `signed` tells whether a dash in front of it can
begin a number. -/
def Lexes (signed : Bool) (cs : List Char) (ls : List Lexeme) : Prop :=
  ∀ place offset, ∃ tokens, readFrom signed place offset 0 cs = .ok tokens ∧ tokens.map lexeme = ls

theorem readFrom_taken (signed : Bool) (place : Position) (offset : Nat) (more behind : List Char) :
    readFrom signed place offset more.length (more ++ behind) =
      readFrom signed place offset 0 behind := by
  induction more with
  | nil => rfl
  | cons c more ih => exact ih

/-! ## Names -/

theorem scan_nameStart {signed : Bool} {c : Char} {rest : List Char} (hc : isNameStart c = true)
    (hblank : isBlank c = false) : scan signed c rest = scanWord c rest := by
  unfold scan
  rw [if_neg (by simp [hblank])]
  split
  all_goals try exact absurd hc (by decide)
  rw [if_neg (by simp [isDigit_of_isNameStart hc]), if_pos hc]

/-- A word that is no call of a function with a raw argument. -/
theorem scanWord_plain {c : Char} {more behind : List Char} (hc : c ≠ '\\')
    (hmore : ∀ d ∈ more, isNameChar d = true) (hhead : ∀ d ∈ behind.head?, EndsName d ∧ d ≠ '(') :
    scanWord c (more ++ behind) = .token (.word (String.ofList (c :: more))) more := by
  have hspan : spanName (more ++ behind) = (more, behind) :=
    spanName_append hmore fun d hd => (hhead d hd).1
  unfold scanWord
  rw [if_neg hc]
  simp only [List.length_nil, List.drop_zero, List.nil_append, hspan, List.drop_left]
  split
  next behind' => exact absurd rfl (hhead '(' rfl).2
  next => rfl

theorem scan_flag {signed : Bool} {name behind : List Char}
    (hname : ∀ c ∈ name, isNameChar c = true ∧ isBlank c = false) (hne : name ≠ [])
    (hhead : ∀ c ∈ behind.head?, EndsName c) :
    scan signed '!' (name ++ behind) = .token (.flag (String.ofList name).toLower) name := by
  have hspan := spanName_append (fun c hc => (hname c hc).1) hhead
  cases name with
  | nil => exact absurd rfl hne
  | cons c more =>
      obtain ⟨hc, hblank⟩ := hname c List.mem_cons_self
      have hblanks : (c :: more ++ behind).takeWhile isBlank = [] := by simp [hblank]
      have hequal : c ≠ '=' := by
        rintro rfl
        exact absurd hc (by decide)
      have hflag : scan signed '!' (c :: more ++ behind) =
          let blanks := (c :: more ++ behind).takeWhile isBlank
          let name := (spanName ((c :: more ++ behind).drop blanks.length)).1
          if name.isEmpty then .token (.stray '!') blanks
          else .token (.flag (String.ofList name).toLower) (blanks ++ name) := by
        unfold scan
        rw [if_neg (by decide)]
        split <;> simp_all
      rw [hflag, hblanks]
      dsimp only
      rw [List.length_nil, List.drop_zero, hspan]
      rfl

/-! ## Strings -/

/-- A string is read up to the quote that closes it. -/
theorem spanQuoted_append {quote : Char} {text behind : List Char} (hquote : quote ≠ '\\')
    (htext : ∀ c ∈ text, c ≠ quote ∧ c ≠ '\\' ∧ c ≠ '\n') :
    spanQuoted quote (text ++ quote :: behind) = ⟨text, true⟩ := by
  induction text with
  | nil =>
      rw [List.nil_append]
      unfold spanQuoted
      split
      next h => cases h
      next h => exact absurd (List.cons.inj h).1 hquote
      next h => exact absurd (List.cons.inj h).1 hquote
      next h =>
        obtain ⟨rfl, rfl⟩ := List.cons.inj h
        rw [if_pos rfl]
  | cons c text ih =>
      obtain ⟨⟨hne, hescape, hline⟩, htext⟩ := List.forall_mem_cons.mp htext
      rw [List.cons_append]
      unfold spanQuoted
      split
      next h => cases h
      next h => exact absurd (List.cons.inj h).1 hescape
      next h => exact absurd (List.cons.inj h).1 hescape
      next h =>
        obtain ⟨rfl, rfl⟩ := List.cons.inj h
        rw [if_neg hne, if_neg hline, ih htext]
        rfl

theorem scan_quote {signed : Bool} {quote : Char} {rest : List Char}
    (hquote : quote = '"' ∨ quote = '\'') (hclosed : (spanQuoted quote rest).closed = true) :
    scan signed quote rest = .token (.quoted (String.ofList (spanQuoted quote rest).text) quote)
      ((spanQuoted quote rest).text ++ [quote]) := by
  have hblank : isBlank quote = false := by rcases hquote with rfl | rfl <;> decide
  unfold scan
  rw [if_neg (by simp [hblank])]
  rcases hquote with rfl | rfl
  · exact if_pos hclosed
  · exact if_pos hclosed

namespace Lexes

variable {signed : Bool} {c : Char} {more behind : List Char} {ls : List Lexeme} {kind : Kind}

theorem nil (signed : Bool) : Lexes signed [] [Lexeme.finish] := fun _ _ => ⟨_, rfl, rfl⟩

/-- A token in front of a text. -/
theorem token (h : scan signed c (more ++ behind) = .token kind more)
    (hbehind : Lexes (!kind.endsOperand) behind ls) :
    Lexes signed (c :: (more ++ behind))
      (⟨kind, if kind.isBlank then "" else String.ofList (c :: more)⟩ :: ls) := by
  intro place offset
  obtain ⟨tokens, htokens, rfl⟩ := hbehind (place.after (c :: more)) (offset + more.length + 1)
  let found : Token := ⟨kind, place, offset, offset + more.length + 1, String.ofList (c :: more)⟩
  refine ⟨found :: tokens, ?_, rfl⟩
  rw [readFrom, h]
  dsimp only
  rw [readFrom_taken, htokens]
  rfl

/-- A token of one character. -/
theorem single (h : scan signed c behind = .token kind [])
    (hbehind : Lexes (!kind.endsOperand) behind ls) :
    Lexes signed (c :: behind) (⟨kind, if kind.isBlank then "" else String.ofList [c]⟩ :: ls) :=
  @token signed c [] behind ls kind h hbehind

/-- Blanks in front of a text that begins with none. -/
theorem blanks {w : List Char} (hw : w ≠ []) (hblank : ∀ c ∈ w, isBlank c = true)
    (hhead : ∀ c ∈ behind.head?, isBlank c = false) (hbehind : Lexes true behind ls) :
    Lexes signed (w ++ behind) (Lexeme.blank :: ls) := by
  cases w with
  | nil => exact absurd rfl hw
  | cons c more =>
      obtain ⟨hc, hmore⟩ := List.forall_mem_cons.mp hblank
      have htake : (more ++ behind).takeWhile isBlank = more := by
        rw [List.takeWhile_append_of_pos hmore]
        cases behind with
        | nil => simp
        | cons d rest => simp [hhead d rfl]
      have hscan : scan signed c (more ++ behind) = .token .blank more := by
        unfold scan
        rw [if_pos hc, htake]
      exact token hscan hbehind

/-- A space in front of a text that does not begin with a blank. -/
theorem space (hhead : ∀ c ∈ behind.head?, isBlank c = false) (hbehind : Lexes true behind ls) :
    Lexes signed (' ' :: behind) (Lexeme.blank :: ls) :=
  @blanks signed behind ls [' '] (List.cons_ne_nil _ _) (List.forall_mem_singleton.mpr rfl) hhead
    hbehind

/-- A name, where no parenthesis touches it. -/
theorem word {name : List Char} (hstart : ∀ c ∈ name.head?, isNameStart c = true)
    (hname : ∀ c ∈ name, isNameChar c = true ∧ isBlank c = false) (hne : name ≠ [])
    (hhead : ∀ c ∈ behind.head?, EndsName c ∧ c ≠ '(') (hbehind : Lexes false behind ls) :
    Lexes signed (name ++ behind) (Lexeme.word (String.ofList name) :: ls) := by
  cases name with
  | nil => exact absurd rfl hne
  | cons c more =>
      have hescape : c ≠ '\\' := by
        rintro rfl
        exact absurd (hname _ List.mem_cons_self).1 (by decide)
      have hscan : scan signed c (more ++ behind) =
          .token (.word (String.ofList (c :: more))) more := by
        rw [scan_nameStart (hstart c rfl) (hname c List.mem_cons_self).2]
        exact scanWord_plain hescape (fun d hd => (hname d (List.mem_cons_of_mem c hd)).1) hhead
      exact token hscan hbehind

/-- A string. -/
theorem quoted {quote : Char} {text : List Char} (hquote : quote = '"' ∨ quote = '\'')
    (htext : ∀ c ∈ text, c ≠ quote ∧ c ≠ '\\' ∧ c ≠ '\n') (hbehind : Lexes false behind ls) :
    Lexes signed (quote :: (text ++ quote :: behind))
      (Lexeme.quoted (String.ofList text) quote :: ls) := by
  have hspan : spanQuoted quote (text ++ quote :: behind) = ⟨text, true⟩ := by
    refine spanQuoted_append ?_ htext
    rcases hquote with rfl | rfl <;> decide
  have hscan : scan signed quote (text ++ [quote] ++ behind) =
      .token (.quoted (String.ofList text) quote) (text ++ [quote]) := by
    rw [List.append_assoc]
    show scan signed quote (text ++ quote :: behind) = _
    rw [scan_quote hquote (by rw [hspan]), hspan]
  have hwritten : String.ofList (quote :: (text ++ [quote])) =
      quote.toString ++ String.ofList text ++ quote.toString := by
    rw [← String.toList_inj]
    simp
  have htoken := token hscan hbehind
  rw [List.append_assoc, hwritten] at htoken
  exact htoken

/-- A flag in lower case. -/
theorem flag {name : List Char} (hname : ∀ c ∈ name, isNameChar c = true ∧ isBlank c = false)
    (hne : name ≠ []) (hlower : (String.ofList name).toLower = String.ofList name)
    (hhead : ∀ c ∈ behind.head?, EndsName c) (hbehind : Lexes true behind ls) :
    Lexes signed ('!' :: (name ++ behind)) (Lexeme.flag (String.ofList name) :: ls) := by
  have hscan : scan signed '!' (name ++ behind) = .token (.flag (String.ofList name)) name := by
    rw [scan_flag hname hne hhead, hlower]
  have hwritten : String.ofList ('!' :: name) = "!" ++ String.ofList name := by
    rw [← String.toList_inj]
    simp
  have htoken := token hscan hbehind
  rw [hwritten] at htoken
  exact htoken

/-- The name of a directive. -/
theorem atWord {name : List Char} (hname : ∀ c ∈ name, isNameChar c = true) (hne : name ≠ [])
    (hhead : ∀ c ∈ behind.head?, EndsName c) (hbehind : Lexes true behind ls) :
    Lexes signed ('@' :: (name ++ behind)) (Lexeme.atWord (String.ofList name) :: ls) := by
  have hscan : scan signed '@' (name ++ behind) = .token (.atWord (String.ofList name)) name := by
    have hspan := spanName_append hname hhead
    unfold scan
    rw [if_neg (by decide)]
    show (if (spanName (name ++ behind)).1.isEmpty then _ else _) = _
    rw [hspan, if_neg (by simpa using hne)]
  have htext : String.ofList ('@' :: name) = "@" ++ String.ofList name := by
    rw [← String.toList_inj]
    simp
  have htoken := token hscan hbehind
  rw [htext] at htoken
  exact htoken

/-- A mark of one character. -/
theorem mark {m : Mark} (hscan : scan signed c behind = .token (.mark m) [])
    (htext : m.text = String.ofList [c]) (hbehind : ∀ s, Lexes s behind ls) :
    Lexes signed (c :: behind) (Lexeme.mark m :: ls) := by
  rw [Lexeme.mark, htext]
  exact single hscan (hbehind _)

end Lexes

end Token

end Scss
