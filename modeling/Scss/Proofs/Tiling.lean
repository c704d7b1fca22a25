import Scss.Proofs.Lexemes
import Scss.Proofs.Lexing
import Scss.Proofs.Parts

/-!
# Tokens tile their text

The readers of tokens answer what they have used of the text. From that, offsets and positions are
counted, and a reader of selectors or queries takes what was written between two offsets for granted. So
nothing may get lost: what a token is read from is what stands next in the text, and between two tokens
stands nothing, or one comment to the end of its line.

A token is placed by stepping through the text, character by character. The line counts the ends of lines
in front of it, and the column what stands in front of it on its line (`Position.after_eq_reached`).
-/

namespace Scss

/-! ## Counting lines and columns -/

namespace Position

/-- The position behind some text: a line later for each of its ends of lines, and in a column that
counts the characters on the last line. -/
def reached (origin : Position) (before : List Char) : Position where
  uri := origin.uri
  line := origin.line + before.count '\n'
  column :=
    if '\n' ∈ before then (before.rtakeWhile (· != '\n')).length + 1
    else origin.column + before.length

theorem after_eq_reached (origin : Position) (before : List Char) :
    origin.after before = origin.reached before := by
  induction before using List.reverseRecOn with
  | nil => rfl
  | append_singleton before c ih =>
      rw [after_append, ih]
      show (origin.reached before).step c = _
      by_cases hc : c = '\n'
      · subst hc
        simp [step, reached, List.rtakeWhile_concat_neg, Nat.add_assoc]
      · have hne : '\n' ≠ c := Ne.symm hc
        have hlast : (before ++ [c]).rtakeWhile (· != '\n') = before.rtakeWhile (· != '\n') ++ [c] :=
          List.rtakeWhile_concat_pos _ _ _ (by simpa using hc)
        by_cases hline : '\n' ∈ before <;>
          simp [step, reached, hc, hne, hlast, hline, Nat.add_assoc]

/-- The position with zeros counted as one. -/
def fromOne (p : Position) : Position :=
  { p with line := max p.line 1, column := max p.column 1 }

end Position

namespace Token

open Text

/-! ## What tokens make of a text -/

/-- What may stand between two tokens: nothing, or one comment from `//` up to the end of its line, or of
the text. `behind` is what follows. -/
inductive IsGap (behind : List Char) : List Char → Prop where
  | nothing : IsGap behind []
  | comment {line : List Char} (hline : '\n' ∉ line) (hbehind : ∀ c ∈ behind.head?, c = '\n') :
      IsGap behind ('/' :: '/' :: line)

/-- From one offset of a text up to another stands what may stand between tokens. -/
structure Gap (text : List Char) (a b : Nat) : Prop where
  le : a ≤ b
  between : IsGap (text.drop b) (text.extract a b)

/-- A token in its place in a text, with lines and columns counted from `origin`. -/
structure Placed (text : List Char) (origin : Position) (t : Token) : Prop where
  le : t.start ≤ t.stop
  within : t.stop ≤ text.length
  written : t.text.toList = text.extract t.start t.stop
  position : t.position = origin.reached (text.take t.start)

/-- Tokens cover a text from an offset on, but for the gaps between them. -/
structure Tiles (text : List Char) (origin : Position) (offset : Nat) (tokens : List Token) :
    Prop where
  /-- Each token is in its place. -/
  placed : ∀ t ∈ tokens, t.Placed text origin
  /-- They follow one another. -/
  ordered : tokens.Pairwise fun t u => t.stop ≤ u.start
  /-- In front of the first token is a gap. -/
  begins : ∀ t ∈ tokens.head?, Gap text offset t.start
  /-- Between a token and the next is a gap. -/
  goesOn : tokens.IsChain fun t u => Gap text t.stop u.start
  /-- The last token, and only that, is the end of the text, and the others are not empty. -/
  ends : ∃ front last, tokens = front ++ [last] ∧
    (∀ t ∈ front, t.kind ≠ .finish ∧ t.start < t.stop) ∧
    last.kind = .finish ∧ last.start = text.length ∧ last.stop = text.length

theorem gap_self (text : List Char) (a : Nat) : Gap text a a := by
  refine ⟨Nat.le_refl a, ?_⟩
  rw [List.extract_eq_take_drop, Nat.sub_self, List.take_zero]
  exact .nothing

theorem extract_middle {α : Type} (front middle back : List α) :
    (front ++ (middle ++ back)).extract front.length (front.length + middle.length) = middle := by
  simp [List.extract_eq_take_drop]

namespace Tiles

variable {text : List Char} {origin : Position} {offset : Nat} {tokens : List Token}

/-- Where the text ends, nothing is left but its end. -/
theorem finish (text : List Char) (origin : Position) : Tiles text origin text.length
    [⟨.finish, origin.reached text, text.length, text.length, ""⟩] where
  placed := List.forall_mem_singleton.mpr
    ⟨Nat.le_refl _, Nat.le_refl _, by simp [List.extract_eq_take_drop], by simp⟩
  ordered := List.pairwise_singleton _ _
  begins := by
    rintro t ⟨⟩
    exact gap_self text _
  goesOn := .singleton _
  ends := ⟨[], _, rfl, fun _ h => absurd h List.not_mem_nil, rfl, rfl, rfl⟩

theorem le_start (h : Tiles text origin offset tokens) : ∀ t ∈ tokens, offset ≤ t.start := by
  intro t ht
  cases tokens with
  | nil => cases ht
  | cons first rest =>
      have hfirst : offset ≤ first.start := (h.begins first rfl).le
      rcases List.mem_cons.mp ht with rfl | ht
      · exact hfirst
      · calc offset ≤ first.start := hfirst
          _ ≤ first.stop := (h.placed first List.mem_cons_self).le
          _ ≤ t.start := (List.pairwise_cons.mp h.ordered).1 t ht

/-- A token in front of tokens that go on where it stops. -/
theorem cons {t : Token} (ht : t.Placed text origin) (hkind : t.kind ≠ .finish)
    (hlt : t.start < t.stop) (h : Tiles text origin t.stop tokens) :
    Tiles text origin t.start (t :: tokens) where
  placed := List.forall_mem_cons.mpr ⟨ht, h.placed⟩
  ordered := List.pairwise_cons.mpr ⟨h.le_start, h.ordered⟩
  begins := by
    rintro _ ⟨⟩
    exact gap_self text _
  goesOn := List.isChain_cons.mpr ⟨h.begins, h.goesOn⟩
  ends := by
    obtain ⟨front, last, rfl, hfront, hlast⟩ := h.ends
    exact ⟨t :: front, last, rfl, List.forall_mem_cons.mpr ⟨⟨hkind, hlt⟩, hfront⟩, hlast⟩

/-- A gap in front of tokens of which the first begins where the gap ends. -/
theorem behindGap {a : Nat} (hgap : Gap text offset a) (h : Tiles text origin a tokens)
    (hhead : ∀ t ∈ tokens.head?, t.start = a) : Tiles text origin offset tokens :=
  { h with begins := fun t ht => hhead t ht ▸ hgap }

end Tiles

/-! ## All tokens -/

/-- At the end of a line, the next token begins right away. -/
theorem start_of_readFrom {signed : Bool} {place : Position} {offset : Nat} {cs : List Char}
    {tokens : List Token} (hcs : ∀ c ∈ cs.head?, c = '\n')
    (h : readFrom signed place offset 0 cs = .ok tokens) : ∀ t ∈ tokens.head?, t.start = offset := by
  cases cs with
  | nil =>
      obtain rfl := Except.ok.inj h
      rintro t ⟨⟩
      rfl
  | cons c rest =>
      obtain rfl := hcs c rfl
      have hscan : scan signed '\n' rest = .token .blank (rest.takeWhile isBlank) := by
        unfold scan
        rw [if_pos (by decide)]
      rw [readFrom, hscan] at h
      obtain ⟨later, -, hlater⟩ := bind_eq_ok_iff.mp h
      obtain rfl := Except.ok.inj hlater
      rintro t ⟨⟩
      rfl

/-- A token that begins behind some text and is the front of what follows. -/
theorem placed_behind (kind : Kind) (origin : Position) (before : List Char) (first : Char)
    (more behind : List Char) :
    (⟨kind, origin.after before, before.length, before.length + more.length + 1,
      String.ofList (first :: more)⟩ : Token).Placed (before ++ first :: (more ++ behind)) origin where
  le := by
    show before.length ≤ before.length + more.length + 1
    omega
  within := by
    simp only [List.length_append, List.length_cons]
    omega
  written := by
    rw [String.toList_ofList]
    exact (extract_middle before (first :: more) behind).symm
  position := by
    rw [List.take_left, Position.after_eq_reached]

/-- A comment to the end of a line is a gap. -/
theorem gap_lineComment (before : List Char) {line behind : List Char} (hline : '\n' ∉ line)
    (hbehind : ∀ c ∈ behind.head?, c = '\n') :
    Gap (before ++ '/' :: ('/' :: line ++ behind)) before.length
      (before.length + ('/' :: line).length + 1) where
  le := by omega
  between := by
    have hextract := extract_middle before ('/' :: '/' :: line) behind
    have hdrop : (before ++ '/' :: ('/' :: line ++ behind)).drop
        (before.length + ('/' :: line).length + 1) = behind := by
      rw [Nat.add_assoc, List.drop_append]
      simp
    rw [hdrop]
    exact hextract ▸ .comment hline hbehind

/-- **The tokens of what is left of a text tile it.** -/
theorem readFrom_tiles (signed : Bool) (origin : Position) (before cs : List Char)
    {tokens : List Token} (h : readFrom signed (origin.after before) before.length 0 cs = .ok tokens) :
    Tiles (before ++ cs) origin before.length tokens := by
  -- a token and what it takes leave less of the text
  induction hlength : cs.length using Nat.strong_induction_on
    generalizing signed before cs tokens with
  | h n ih =>
      cases cs with
      | nil =>
          obtain rfl := Except.ok.inj h
          rw [List.append_nil, Position.after_eq_reached]
          exact .finish before origin
      | cons first rest =>
          have hstop : ∀ more : List Char,
              (before ++ first :: more).length = before.length + more.length + 1 := by
            intro more
            rw [List.length_append, List.length_cons, Nat.add_assoc]
          have hshorter : ∀ more behind : List Char, rest = more ++ behind → behind.length < n := by
            rintro more behind rfl
            rw [← hlength, List.length_cons, List.length_append]
            omega
          rcases readFrom_step h with ⟨kind, more, behind, later, rfl, -, hkind, hlater, rfl⟩ |
            ⟨line, behind, rfl, rfl, hline, hhead, h⟩
          · rw [← Position.after_append, ← hstop] at hlater
            have hbehind := ih _ (hshorter more behind rfl) _ _ _ hlater rfl
            rw [List.append_assoc, hstop] at hbehind
            exact .cons (placed_behind kind origin before first more behind) hkind
              (Nat.lt_succ_of_le (Nat.le_add_right _ _)) hbehind
          · rw [← Position.after_append, ← hstop] at h
            have hbehind := ih _ (hshorter _ behind rfl) _ _ _ h rfl
            rw [List.append_assoc] at hbehind
            refine .behindGap ?_ hbehind (start_of_readFrom hhead h)
            rw [hstop ('/' :: line)]
            exact gap_lineComment before hline hhead

/-- **Tokens tile their text.** Whatever position a text begins at, the tokens read of it are in their
places, follow one another without a gap other than a comment to the end of a line, and end where the
text ends. Their lines and columns are counted from the position, with its zeros counted as one. -/
theorem read_tiles {text : String} {origin : Position} {tokens : List Token}
    (h : read text origin = .ok tokens) : Tiles text.toList origin.fromOne 0 tokens :=
  readFrom_tiles true origin.fromOne [] text.toList h

/-- Comments at both ends and in the middle, and the one in the middle goes over a line. -/
def commented : String := "//a\n$b: /*\n*/ c//d"

/-- Where the tokens are, from one offset up to another, and in which line and column. -/
def places (tokens : List Token) : List (Nat × Nat × Nat × Nat) :=
  tokens.map fun t => (t.start, t.stop, t.position.line, t.position.column)

theorem commented_tiles : ∃ tokens, read commented ⟨"x", 0, 7⟩ = .ok tokens ∧
    Tiles commented.toList ⟨"x", 1, 7⟩ 0 tokens ∧
    places tokens = [(3, 4, 1, 10), (4, 6, 2, 1), (6, 7, 2, 3), (7, 8, 2, 4), (8, 13, 2, 5),
      (13, 14, 3, 3), (14, 15, 3, 4), (18, 18, 3, 8)] := by
  have hread : (read commented ⟨"x", 0, 7⟩).map places = .ok [(3, 4, 1, 10), (4, 6, 2, 1),
      (6, 7, 2, 3), (7, 8, 2, 4), (8, 13, 2, 5), (13, 14, 3, 3), (14, 15, 3, 4), (18, 18, 3, 8)] := by
    cbv
  cases htokens : read commented ⟨"x", 0, 7⟩ with
  | error failure =>
      rw [htokens] at hread
      cases hread
  | ok tokens =>
      rw [htokens] at hread
      exact ⟨tokens, rfl, read_tiles htokens, Except.ok.inj hread⟩

end Token

end Scss
