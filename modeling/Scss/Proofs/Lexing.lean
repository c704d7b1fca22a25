import Mathlib
import Scss.Proofs.Lexemes

/-!
# What reading tokens leaves

A lexeme is what stands next in the text (`scan_fits`), and the text it holds is shorter than itself. So
the tokens of a text are together no longer than the text (`Token.read_yields`), and what a string or
a raw function holds can be read in turn, with less to read. This is what bounds how deep reading can
nest.

A failure of reading is a fault of the text, placed in the file that the text is from.
-/

namespace Scss

/-- A fault of the text of a file. -/
def Failure.IsParseAt (uri : String) (failure : Failure) : Prop :=
  ∃ position fault, failure = .parse position fault ∧ position.uri = uri

/-- A result that satisfies a property, or a fault of the text of a file. -/
def Yields {α : Type} (uri : String) (Q : α → Prop) : Except Failure α → Prop
  | .ok a => Q a
  | .error failure => failure.IsParseAt uri

theorem Yields.bind {α β : Type} {uri : String} {Q : α → Prop} {P : β → Prop}
    {r : Except Failure α} {f : α → Except Failure β} (hr : Yields uri Q r)
    (hf : ∀ a, Q a → Yields uri P (f a)) : Yields uri P (r >>= f) := by
  cases r with
  | ok a => exact hf a hr
  | error failure => exact hr

theorem Yields.mono {α : Type} {uri : String} {Q P : α → Prop} {r : Except Failure α}
    (hr : Yields uri Q r) (h : ∀ a, Q a → P a) : Yields uri P r := by
  cases r with
  | ok a => exact h a hr
  | error failure => exact hr

@[simp] theorem Position.uri_after (p : Position) (text : List Char) : (p.after text).uri = p.uri := by
  induction text generalizing p with
  | nil => rfl
  | cons c rest ih =>
      rw [after_cons, ih, step]
      split <;> rfl

namespace Text

theorem spanName_append_eq (cs : List Char) : (spanName cs).1 ++ (spanName cs).2 = cs := by
  fun_induction spanName cs with
  | case1 | case2 | case5 => rfl
  | case3 c rest name after hspan ih | case4 c rest _ _ _ name after hspan ih =>
      rw [hspan] at ih
      simp only [List.cons_append, ih]

theorem isPrefix_spanName (cs : List Char) : (spanName cs).1 <+: cs :=
  ⟨(spanName cs).2, spanName_append_eq cs⟩

end Text

namespace Token

open Text

/-! ## Spans -/

theorem isPrefix_append {α : Type} {xs ys rest : List α} (hxs : xs <+: rest)
    (hys : ys <+: rest.drop xs.length) : xs ++ ys <+: rest := by
  obtain ⟨behind, rfl⟩ := hxs
  rw [List.drop_left] at hys
  exact (List.prefix_append_right_inj xs).mpr hys

theorem isPrefix_spanComment {cs : List Char} (h : (spanComment cs).closed = true) :
    (spanComment cs).text ++ ['*', '/'] <+: cs := by
  fun_induction spanComment cs with
  | case1 => cases h
  | case2 => simp
  | case3 c rest _ ih => exact List.cons_prefix_cons.mpr ⟨rfl, ih h⟩

theorem isPrefix_spanQuoted {quote : Char} {cs : List Char}
    (h : (spanQuoted quote cs).closed = true) : (spanQuoted quote cs).text ++ [quote] <+: cs := by
  fun_induction spanQuoted quote cs with
  | case1 | case2 | case5 => cases h
  | case3 c rest ih =>
      exact List.cons_prefix_cons.mpr ⟨rfl, List.cons_prefix_cons.mpr ⟨rfl, ih h⟩⟩
  | case4 rest => simp
  | case6 c rest _ _ _ _ ih => exact List.cons_prefix_cons.mpr ⟨rfl, ih h⟩

theorem isPrefix_spanArguments {quote : Option Char} {depth : Nat} {cs : List Char}
    (h : (spanArguments quote depth cs).closed = true) :
    (spanArguments quote depth cs).text ++ [')'] <+: cs := by
  fun_induction spanArguments quote depth cs <;> simp_all [Span.add]

theorem isPrefix_spanNumeral (pointSeen : Bool) (cs : List Char) : spanNumeral pointSeen cs <+: cs := by
  fun_induction spanNumeral pointSeen cs with
  | case1 | case4 => exact List.nil_prefix
  | case2 _ c rest _ ih | case3 _ c rest _ _ ih => exact List.cons_prefix_cons.mpr ⟨rfl, ih⟩

theorem isPrefix_spanUnit (cs : List Char) : spanUnit cs <+: cs := by
  unfold spanUnit
  split
  · exact List.cons_prefix_cons.mpr ⟨rfl, List.nil_prefix⟩
  · split
    · exact isPrefix_spanName _
    · exact List.nil_prefix
  · exact List.nil_prefix

/-! ## One token -/

/-- The text that a token holds. -/
def Kind.embeddedText : Kind → String
  | .quoted text _ => text
  | .rawCall _ argument => argument
  | _ => ""

/-- What is found at the front of a text is the front of it, and longer than the text that it holds. A
comment that leaves no token runs from `//` up to the end of its line, or of the text. -/
def Scan.Fits (first : Char) (rest : List Char) : Scan → Prop
  | .token kind more =>
    kind ≠ .finish ∧ more <+: rest ∧ kind.embeddedText.length ≤ more.length
  | .skip more => ∃ line behind, first = '/' ∧ more = '/' :: line ∧ rest = more ++ behind ∧
      '\n' ∉ line ∧ ∀ c ∈ behind.head?, c = '\n'
  | .fail _ _ => True

/-- A token that holds no text of its own. -/
theorem fits_token {kind : Kind} {first : Char} {more rest : List Char} (hkind : kind ≠ .finish)
    (htext : kind.embeddedText = "") (h : more <+: rest) : (Scan.token kind more).Fits first rest :=
  ⟨hkind, h, by rw [htext]; exact Nat.zero_le _⟩

theorem Scan.Fits.isPrefix {first : Char} {more rest : List Char}
    (h : (Scan.skip more).Fits first rest) : more <+: rest := by
  obtain ⟨line, behind, -, -, rfl, -⟩ := h
  exact List.prefix_append more behind

theorem scanNumber_fits (first : Char) (front rest : List Char) (negative : Bool) :
    (scanNumber front rest negative).Fits first rest :=
  fits_token nofun rfl (isPrefix_append (isPrefix_spanNumeral _ rest) (isPrefix_spanUnit _))

theorem scanWord_fits (first : Char) (rest : List Char) :
    (scanWord first rest).Fits first rest := by
  unfold scanWord
  extract_lets escaped more name plain
  -- what is consumed is an escaped character, if there is one, and a name
  have hmore : more <+: rest := by
    refine isPrefix_append ?_ (isPrefix_spanName _)
    show (if first = '\\' then rest.take 1 else []) <+: rest
    split
    · exact List.take_prefix 1 rest
    · exact List.nil_prefix
  have hplain : plain.Fits first rest := fits_token nofun rfl hmore
  split
  -- a name in front of a parenthesis may be a raw path, which is one token with its parentheses
  next behind hbehind =>
    split
    · dsimp only
      split
      · exact hplain
      · split
        next hclosed =>
          refine ⟨nofun, ?_, ?_⟩
          · rw [List.append_assoc]
            refine isPrefix_append hmore ?_
            rw [hbehind]
            exact List.cons_prefix_cons.mpr ⟨rfl, isPrefix_spanArguments hclosed⟩
          · simp only [Kind.embeddedText, String.length_ofList, List.length_append, List.length_cons]
            omega
        · trivial
    · exact hplain
  · exact hplain

/-- A comment to the end of a line. -/
theorem lineComment_fits (behind : List Char) :
    (Scan.skip (('/' :: behind).takeWhile (· != '\n'))).Fits '/' ('/' :: behind) := by
  refine ⟨behind.takeWhile (· != '\n'), behind.dropWhile (· != '\n'), rfl, rfl, ?_, ?_, ?_⟩
  · simp
  · intro hmem
    simpa using List.mem_takeWhile_imp hmem
  · intro c hc
    have hstop := List.head?_dropWhile_not (· != '\n') behind
    rw [Option.mem_def.mp hc] at hstop
    simpa using hstop

/-- A string behind its opening quote, if it is closed. -/
theorem quoted_fits (quote : Char) (rest : List Char) :
    (if (spanQuoted quote rest).closed then
      Scan.token (.quoted (String.ofList (spanQuoted quote rest).text) quote)
        ((spanQuoted quote rest).text ++ [quote])
    else .fail (.unterminated "string") (spanQuoted quote rest).text).Fits quote rest := by
  split
  next hclosed =>
    refine ⟨nofun, isPrefix_spanQuoted hclosed, ?_⟩
    simp [Kind.embeddedText]
  · trivial

/-- **What `scan` finds is what stands next in the text.** -/
theorem scan_fits (signed : Bool) (first : Char) (rest : List Char) :
    (scan signed first rest).Fits first rest := by
  have hname := isPrefix_spanName rest
  unfold scan
  split
  · exact fits_token nofun rfl (List.takeWhile_prefix _)
  · split
    -- marks of one character, and of two
    all_goals try exact fits_token nofun rfl List.nil_prefix
    all_goals try exact fits_token nofun rfl (List.cons_prefix_cons.mpr ⟨rfl, List.nil_prefix⟩)
    next behind _ => exact lineComment_fits behind
    next behind _ =>
      dsimp only
      split
      next hclosed =>
        refine fits_token nofun rfl ?_
        exact List.cons_prefix_cons.mpr ⟨rfl, isPrefix_spanComment hclosed⟩
      · trivial
    next =>
      have hblanks := @List.takeWhile_prefix _ rest isBlank
      dsimp only
      split
      · exact fits_token nofun rfl hblanks
      · exact fits_token nofun rfl (isPrefix_append hblanks (isPrefix_spanName _))
    next => exact quoted_fits _ rest
    next => exact quoted_fits _ rest
    next =>
      dsimp only
      split
      · exact fits_token nofun rfl List.nil_prefix
      · exact fits_token nofun rfl hname
    next =>
      dsimp only
      split
      · trivial
      · exact fits_token nofun rfl hname
    next =>
      dsimp only
      split
      · trivial
      · exact fits_token nofun rfl hname
    next =>
      split
      · exact scanNumber_fits _ [] rest true
      · split
        · exact scanWord_fits '-' rest
        · exact fits_token nofun rfl List.nil_prefix
    next =>
      split
      · exact scanNumber_fits _ ['.'] rest false
      · exact fits_token nofun rfl List.nil_prefix
    next => exact scanWord_fits '\\' rest
    next =>
      split
      · exact scanNumber_fits _ _ rest false
      · split
        · exact scanWord_fits _ rest
        · exact fits_token nofun rfl List.nil_prefix

/-- The texts that a token of some kind can have, as far as its kind tells. -/
def Kind.Spells : Kind → List Char → Prop
  | .blank, cs => ∀ c ∈ cs, Text.isBlank c = true
  | .comment _, cs => cs.head? = some '/'
  | .quoted text quote, cs =>
    (quote = '"' ∨ quote = '\'') ∧ cs = quote :: (text.toList ++ [quote])
  | .rawCall name argument, cs => cs = name.toList ++ '(' :: (argument.toList ++ [')'])
  | .stray c, cs => ∃ blanks, cs = c :: blanks ∧ ∀ d ∈ blanks, Text.isBlank d = true
  | _, _ => True

def Scan.Spells (first : Char) : Scan → Prop
  | .token kind more => kind.Spells (first :: more)
  | .skip _ | .fail _ _ => True

theorem scanWord_spells (first : Char) (rest : List Char) : (scanWord first rest).Spells first := by
  unfold scanWord
  extract_lets escaped more name plain
  split
  · split
    · dsimp only
      split
      · trivial
      · split
        · simp [Scan.Spells, Kind.Spells, name]
        · trivial
    · trivial
  · trivial

theorem quoted_spells {quote : Char} (h : quote = '"' ∨ quote = '\'') (rest : List Char) :
    (if (spanQuoted quote rest).closed then
      Scan.token (.quoted (String.ofList (spanQuoted quote rest).text) quote)
        ((spanQuoted quote rest).text ++ [quote])
    else .fail (.unterminated "string") (spanQuoted quote rest).text).Spells quote := by
  split
  · exact ⟨h, by rw [String.toList_ofList]⟩
  · trivial

/-- **The kind of what `scan` finds tells its text.** -/
theorem scan_spells (signed : Bool) (first : Char) (rest : List Char) :
    (scan signed first rest).Spells first := by
  unfold scan
  split
  next hblank => exact List.forall_mem_cons.mpr ⟨hblank, fun c hc => List.mem_takeWhile_imp hc⟩
  -- what is no token has no text to speak of
  split
  all_goals try trivial
  next => dsimp only; split <;> trivial
  next =>
    dsimp only
    split
    · exact ⟨_, rfl, fun c hc => List.mem_takeWhile_imp hc⟩
    · trivial
  next => exact quoted_spells (Or.inl rfl) rest
  next => exact quoted_spells (Or.inr rfl) rest
  next =>
    dsimp only
    split
    · exact ⟨[], rfl, List.forall_mem_nil _⟩
    · trivial
  next => dsimp only; split <;> trivial
  next => dsimp only; split <;> trivial
  next =>
    split
    · trivial
    split
    · exact scanWord_spells _ rest
    · trivial
  next => split <;> trivial
  next => exact scanWord_spells _ rest
  next =>
    split
    · trivial
    split
    · exact scanWord_spells _ rest
    · exact ⟨[], rfl, List.forall_mem_nil _⟩

/-! ## All tokens -/

/-- A token of the text of a file. -/
structure Sound (uri : String) (t : Token) : Prop where
  position : t.position.uri = uri
  finish : t.kind = .finish → t.text.length = 0
  shorter : t.kind ≠ .finish → t.kind.embeddedText.length < t.text.length

/-- The characters of some tokens. -/
def weight (tokens : List Token) : Nat := (tokens.map fun t => t.text.length).sum

/-- The tokens of the text of a file: the last one is its end. -/
structure AllSound (uri : String) (tokens : List Token) : Prop where
  sound : ∀ t ∈ tokens, t.Sound uri
  terminated : ∃ t, tokens.getLast? = some t ∧ t.kind = .finish

theorem weight_cons (t : Token) (tokens : List Token) :
    weight (t :: tokens) = t.text.length + weight tokens := rfl

theorem AllSound.cons {uri : String} {t : Token} {tokens : List Token} (ht : t.Sound uri)
    (h : AllSound uri tokens) : AllSound uri (t :: tokens) := by
  obtain ⟨last, hlast, hfinish⟩ := h.terminated
  refine ⟨List.forall_mem_cons.mpr ⟨ht, h.sound⟩, last, ?_, hfinish⟩
  cases tokens with
  | nil => cases hlast
  | cons u rest => rwa [List.getLast?_cons_cons]

/-- **What reading does at a character**: it takes a token, or passes over a comment to the end of the
line. -/
theorem readFrom_step {signed : Bool} {place : Position} {offset : Nat} {first : Char}
    {rest : List Char} {tokens : List Token}
    (h : readFrom signed place offset 0 (first :: rest) = .ok tokens) :
    (∃ kind more behind later, rest = more ++ behind ∧
      scan signed first (more ++ behind) = .token kind more ∧ kind ≠ .finish ∧
      readFrom (!kind.endsOperand) (place.after (first :: more)) (offset + more.length + 1) 0 behind =
        .ok later ∧
      tokens = ⟨kind, place, offset, offset + more.length + 1, String.ofList (first :: more)⟩ :: later) ∨
    ∃ line behind, first = '/' ∧ rest = '/' :: line ++ behind ∧ '\n' ∉ line ∧
      (∀ c ∈ behind.head?, c = '\n') ∧
      readFrom signed (place.after ('/' :: '/' :: line)) (offset + ('/' :: line).length + 1) 0 behind =
        .ok tokens := by
  have hfits := scan_fits signed first rest
  rw [readFrom] at h
  cases hscan : scan signed first rest with
  | fail fault more =>
      rw [hscan] at h
      cases h
  | token kind more =>
      rw [hscan] at hfits h
      obtain ⟨hkind, ⟨behind, rfl⟩, -⟩ := hfits
      dsimp only at h
      rw [readFrom_taken] at h
      cases hlater : readFrom (!kind.endsOperand) (place.after (first :: more))
          (offset + more.length + 1) 0 behind with
      | error failure =>
          rw [hlater] at h
          cases h
      | ok later =>
          rw [hlater] at h
          exact .inl ⟨kind, more, behind, later, rfl, hscan, hkind, hlater, (Except.ok.inj h).symm⟩
  | skip more =>
      rw [hscan] at hfits h
      obtain ⟨line, behind, rfl, rfl, rfl, hline, hhead⟩ := hfits
      dsimp only at h
      rw [readFrom_taken] at h
      exact .inr ⟨line, behind, rfl, rfl, hline, hhead, h⟩

/-- **The tokens of a text are together no longer than what is left of it.** -/
theorem readFrom_yields {uri : String} (signed : Bool) {place : Position} (hplace : place.uri = uri)
    (offset : Nat) {taken : Nat} {cs : List Char} (h : taken ≤ cs.length) :
    Yields uri (fun tokens => AllSound uri tokens ∧ weight tokens + taken ≤ cs.length)
      (readFrom signed place offset taken cs) := by
  induction cs generalizing signed place offset taken with
  | nil =>
      obtain rfl := Nat.le_zero.mp h
      refine ⟨⟨fun t ht => ?_, _, rfl, rfl⟩, Nat.le_refl 0⟩
      obtain rfl := List.mem_singleton.mp ht
      exact ⟨hplace, fun _ => rfl, fun hne => absurd rfl hne⟩
  | cons first rest ih =>
      have hafter : ∀ text, (place.after text).uri = uri := fun text =>
        (Position.uri_after place text).trans hplace
      cases taken with
      | succ taken =>
          rw [readFrom]
          refine (ih signed hplace offset (Nat.le_of_succ_le_succ h)).mono fun tokens ht =>
            ⟨ht.1, Nat.succ_le_succ ht.2⟩
      | zero =>
          have hfits := scan_fits signed first rest
          rw [readFrom]
          cases hscan : scan signed first rest with
          | fail fault more => exact ⟨_, fault, rfl, hafter _⟩
          | skip more =>
              rw [hscan] at hfits
              refine (ih _ (hafter _) _ hfits.isPrefix.length_le).mono fun tokens ht => ⟨ht.1, ?_⟩
              have hweight := ht.2
              rw [List.length_cons]
              omega
          | token kind more =>
              rw [hscan] at hfits
              obtain ⟨hkind, hmore, htext⟩ := hfits
              -- what the token embeds is shorter than it, and the tokens behind it fit the rest
              refine Yields.bind (ih _ (hafter _) _ hmore.length_le) fun tokens ht => ⟨?_, ?_⟩
              · refine ht.1.cons ⟨hplace, fun hfinish => absurd hfinish hkind, fun _ => ?_⟩
                show kind.embeddedText.length < (String.ofList (first :: more)).length
                rw [String.length_ofList, List.length_cons]
                omega
              · have hweight := ht.2
                show (String.ofList (first :: more)).length + weight tokens + 0 ≤ _
                rw [String.length_ofList, List.length_cons, List.length_cons]
                omega

/-- A text has at most one token for each character, and its end. -/
theorem length_readFrom (signed : Bool) (place : Position) (offset : Nat) {cs : List Char}
    {tokens : List Token} (h : readFrom signed place offset 0 cs = .ok tokens) :
    tokens.length ≤ cs.length + 1 := by
  -- a token and what it takes leave less of the text
  induction hlength : cs.length using Nat.strong_induction_on
    generalizing signed place offset cs tokens with
  | h n ih =>
      subst hlength
      cases cs with
      | nil =>
          obtain rfl := Except.ok.inj h
          exact Nat.le_refl 1
      | cons first rest =>
          rcases readFrom_step h with ⟨_, more, behind, later, rfl, -, -, hlater, rfl⟩ |
            ⟨line, behind, -, rfl, -, -, h⟩
          · simp only [List.length_cons, List.length_append] at ih ⊢
            have hrest := ih behind.length (by omega) _ _ _ hlater rfl
            omega
          · simp only [List.length_cons, List.length_append] at ih ⊢
            have hrest := ih behind.length (by omega) _ _ _ h rfl
            omega

theorem read_yields {uri : String} (text : String) {origin : Position} (h : origin.uri = uri) :
    Yields uri (fun tokens => AllSound uri tokens ∧ weight tokens ≤ text.length)
      (read text origin) := by
  have hplace : ({ origin with line := max origin.line 1, column := max origin.column 1 } :
      Position).uri = uri := h
  refine (readFrom_yields true hplace 0 (Nat.zero_le text.toList.length)).mono fun tokens ht => ?_
  rw [← String.length_toList]
  exact ht

end Token

end Scss
