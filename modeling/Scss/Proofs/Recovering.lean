import Scss.Proofs.Balance
import Scss.Proofs.Rereading
import Scss.Proofs.Taking

/-!
# Text recovered from tokens

Selectors, queries and preludes of directives are read as text up to a token that ends them, and that
text is put together of tokens. Where nothing among these is to be evaluated, reading succeeds, takes
the tokens up to the end (`phrase`), and makes the text of their pieces without the blanks at its ends
(`run_piecesUntil_phrase`). A reader of that text finds the tokens that were written, unless a comment
was all that kept two of them apart (`interpolationUntil_rereads`).
-/

namespace Scss

namespace Token

open Text

/-- Whether there is nothing to be evaluated in a token, nor for it. -/
def Kind.isLiteral : Kind → Bool
  | .variable _ | .mark .interpolation => false
  | kind => (cutAtInterpolation? kind.embeddedText.toList).isNone

/-- Whether text ends at a token, where so many brackets are open. -/
def Kind.endsText (stop : Kind → Bool) (depth : Nat) : Kind → Bool
  | .finish => true
  | kind => depth == 0 && stop kind

/-- The tokens up to the first one outside brackets that `stop` picks. -/
def phrase (stop : Kind → Bool) (depth : Nat) : List Token → List Token
  | [] => []
  | t :: ts =>
    if t.kind.endsText stop depth then [] else t :: phrase stop (t.kind.deepen depth) ts

theorem Kind.endsText_iff {stop : Kind → Bool} {depth : Nat} {kind : Kind} :
    kind.endsText stop depth = true ↔ kind = .finish ∨ depth = 0 ∧ stop kind = true := by
  unfold endsText
  split
  next => simp
  next hfinish => rw [Bool.and_eq_true, beq_iff_eq, or_iff_right hfinish]

section

variable {stop : Kind → Bool} {depth : Nat}

theorem phrase_cons_of_ends {t : Token} (h : t.kind.endsText stop depth = true) (ts : List Token) :
    phrase stop depth (t :: ts) = [] := if_pos h

theorem phrase_cons {t : Token} (h : t.kind.endsText stop depth = false) (ts : List Token) :
    phrase stop depth (t :: ts) = t :: phrase stop (t.kind.deepen depth) ts :=
  if_neg (Bool.eq_false_iff.mp h)

theorem not_finish_of_mem_phrase {ts : List Token} :
    ∀ t ∈ phrase stop depth ts, t.kind ≠ .finish := by
  induction ts generalizing depth with
  | nil => exact List.forall_mem_nil _
  | cons t ts ih =>
      cases hends : t.kind.endsText stop depth with
      | true =>
          rw [phrase_cons_of_ends hends]
          exact List.forall_mem_nil _
      | false =>
          rw [phrase_cons hends]
          refine List.forall_mem_cons.mpr ⟨fun hfinish => ?_, ih⟩
          rw [hfinish] at hends
          cases hends

/-- Where a phrase ends, all brackets that it opens are closed, or the text is at its end. -/
theorem openBrackets_phrase {ts rest : List Token} (h : ts = phrase stop depth ts ++ rest) :
    openBrackets depth (phrase stop depth ts) = 0 ∨ ∀ t ∈ rest.head?, t.kind = .finish := by
  induction ts generalizing depth with
  | nil =>
      obtain rfl := (List.append_eq_nil_iff.mp h.symm).2
      exact .inr nofun
  | cons t ts ih =>
      cases hends : t.kind.endsText stop depth with
      | true =>
          rw [phrase_cons_of_ends hends] at h ⊢
          subst h
          rcases Kind.endsText_iff.mp hends with hfinish | ⟨rfl, -⟩
          · refine .inr ?_
            rintro _ ⟨⟩
            exact hfinish
          · exact .inl rfl
      | false =>
          rw [phrase_cons hends] at h ⊢
          exact ih (List.cons.inj h).2

theorem openBrackets_kept (ts : List Token) (depth : Nat) :
    openBrackets depth (kept ts) = openBrackets depth ts := by
  induction ts generalizing depth with
  | nil => rfl
  | cons t ts ih =>
      cases hcomment : t.kind.isComment with
      | false =>
          rw [kept_cons hcomment]
          exact ih _
      | true =>
          have hdeepen : t.kind.deepen depth = depth := by
            cases hkind : t.kind <;> simp_all [Kind.isComment, Kind.deepen]
          rw [kept_cons_of_comment hcomment, ih]
          show _ = openBrackets (t.kind.deepen depth) ts
          rw [hdeepen]

theorem openBrackets_of_isBlank {ts : List Token} (h : ∀ t ∈ ts, t.kind.isBlank = true)
    (depth : Nat) : openBrackets depth ts = depth := by
  exact (Cursor.closes_of_isBlank h).openBrackets_eq depth

theorem grouped_phrase {ts rest : List Token} (h : ts = phrase stop 0 ts ++ rest) :
    Grouped (kept (phrase stop 0 ts)) (kept rest) := by
  intro t more hsuffix hparen
  rcases openBrackets_phrase h with hclosed | hfinish
  · refine .inl ?_
    by_contra hnone
    have hblank : ∀ u ∈ more, u.kind.isBlank = true := fun u hu =>
      Bool.not_eq_false _ ▸ fun hu' => hnone ⟨u, hu, hu'⟩
    obtain ⟨front, hfront⟩ := hsuffix
    rw [← openBrackets_kept, ← hfront, openBrackets_append] at hclosed
    have hopen : openBrackets (openBrackets 0 front) (t :: more) = openBrackets 0 front + 1 := by
      show openBrackets (t.kind.deepen _) more = _
      rw [openBrackets_of_isBlank hblank, hparen]
      rfl
    omega
  · refine .inr fun u hu => ?_
    cases rest with
    | nil => cases hu
    | cons v rest =>
        have hv := hfinish v rfl
        rw [kept_cons (by rw [hv]; rfl)] at hu
        exact Option.some.inj hu ▸ hv

end

end Token

namespace Grammar

open Token Scss.Parser

variable {stop : Kind → Bool} {substitute : Bool} {fuel depth : Nat} {c d : Cursor}

theorem run_textParts {text : List Char} (htext : Text.cutAtInterpolation? text = none)
    (hfuel : 0 < fuel) (origin : Position) (c : Cursor) :
    ∃ parts, (textParts fuel origin text).run c = .ok (parts, c) ∧
      Interpolation.plain? parts = some (String.ofList text) := by
  obtain ⟨fuel, rfl⟩ := Nat.exists_eq_succ_of_ne_zero (Nat.ne_of_gt hfuel)
  rw [textParts, htext]
  refine ⟨_, rfl, ?_⟩
  cases text with
  | nil => rfl
  | cons c rest => simp [Interpolation.plain?]

/-- Pieces between two texts, and others behind them. -/
theorem plain?_between {parts rest : Interpolation} {opening inner closing text : String}
    (hparts : Interpolation.plain? parts = some inner) (hrest : Interpolation.plain? rest = some text) :
    Interpolation.plain? (.literal opening :: parts ++ .literal closing :: rest) =
      some (opening ++ inner ++ closing ++ text) := by
  have hclosed : Interpolation.plain? (.literal closing :: rest) = some (closing ++ text) := by
    rw [Interpolation.plain?, hrest]
    rfl
  rw [List.cons_append, Interpolation.plain?, plain?_append hparts hclosed]
  simp [String.append_assoc]

/-- A token in which there is nothing to be evaluated is read as its text. -/
theorem run_piecesUntil_literal {rest : Interpolation} {text : String}
    (hliteral : c.current.kind.isLiteral = true) (hends : c.current.kind.endsText stop depth = false)
    (hspells : c.current.kind.Spells c.current.text.toList) (hfuel : 0 < fuel)
    (hrest : (piecesUntil stop substitute fuel (c.current.kind.deepen depth)).run c.advance =
      .ok (rest, d))
    (hplain : Interpolation.plain? rest = some text) :
    ∃ parts, (piecesUntil stop substitute (fuel + 1) depth).run c = .ok (parts, d) ∧
      Interpolation.plain? parts = some (String.ofList c.current.piece ++ text) := by
  have hstop : ¬(depth == 0 && stop c.current.kind) = true := by
    rw [Bool.and_eq_true, beq_iff_eq]
    exact fun h => Bool.eq_false_iff.mp hends (Kind.endsText_iff.mpr (.inr h))
  -- whatever is put in front of them, the pieces behind the token are read as before
  have hadd : ∀ g : Interpolation → Interpolation,
      (do return g (← piecesUntil stop substitute fuel (c.current.kind.deepen depth)) :
        Parser Interpolation).run c.advance = .ok (g rest, d) := fun _ => run_bind_of_ok hrest
  have hwritten : Interpolation.plain? (.literal c.current.text :: rest) =
      some (String.ofList c.current.text.toList ++ text) := by
    rw [String.ofList_toList, Interpolation.plain?, hplain]
    rfl
  rw [piecesUntil, run_token_bind, if_neg hstop]
  unfold piece
  generalize hkind : c.current.kind = kind at *
  cases kind with
  | finish => cases hends
  | «variable» name => cases hliteral
  | mark m =>
      cases m
      all_goals first
        | exact absurd hliteral (by decide)
        | exact ⟨_, (run_over_bind _).trans (hadd (.literal c.current.text :: ·)), hwritten⟩
  | blank =>
      refine ⟨_, (run_over_bind _).trans (hadd (.literal " " :: ·)), ?_⟩
      rw [Interpolation.plain?, hplain]
      rfl
  | comment inner =>
      refine ⟨rest, (run_over_bind _).trans hrest, ?_⟩
      rw [hplain]
      simp
  | quoted inner quote =>
      obtain ⟨parts, hrun, hinner⟩ := run_textParts (Option.isNone_iff_eq_none.mp hliteral) hfuel
        c.current.position c
      obtain ⟨-, hwhole⟩ := hspells
      refine ⟨_, (run_bind_of_ok hrun).trans ((run_over_bind _).trans
        (hadd fun rest => .literal quote.toString :: parts ++ .literal quote.toString :: rest)), ?_⟩
      rw [plain?_between hinner hplain]
      simp [hwhole, Kind.embeddedText, ← String.toList_inj]
  | rawCall name inner =>
      obtain ⟨parts, hrun, hinner⟩ := run_textParts (Option.isNone_iff_eq_none.mp hliteral) hfuel
        c.current.position c
      refine ⟨_, (run_bind_of_ok hrun).trans ((run_over_bind _).trans
        (hadd fun rest => .literal (name ++ "(") :: parts ++ .literal ")" :: rest)), ?_⟩
      have hwhole : c.current.text.toList = name.toList ++ '(' :: (inner.toList ++ [')']) := hspells
      rw [plain?_between hinner hplain]
      simp [hwhole, Kind.embeddedText, ← String.toList_inj]
  | _ => exact ⟨_, (run_over_bind _).trans (hadd (.literal c.current.text :: ·)), hwritten⟩

/-- Behind a token that is not the end of the text stands another. -/
theorem tokens_advance_of_last (hlast : ∀ t ∈ c.tokens.getLast?, t.kind = .finish)
    (hfinish : c.current.kind ≠ .finish) : c.tokens = c.current :: c.advance.tokens := by
  rcases c.tokens_advance with ⟨-, hend | hnone⟩ | hmoves
  · exact absurd hend hfinish
  · refine absurd (hlast c.current ?_) hfinish
    rw [Cursor.tokens, hnone]
    rfl
  · exact hmoves

theorem run_piecesUntil_end (hends : c.current.kind.endsText stop depth = true) (substitute : Bool)
    (fuel : Nat) : (piecesUntil stop substitute (fuel + 1) depth).run c = .ok ([], c) := by
  rw [piecesUntil, run_token_bind]
  by_cases hstop : (depth == 0 && stop c.current.kind) = true
  · rw [if_pos hstop]
    rfl
  · rw [if_neg hstop]
    rw [Bool.and_eq_true, beq_iff_eq] at hstop
    rw [(Kind.endsText_iff.mp hends).resolve_right hstop]
    rfl

/-- **A phrase in which there is nothing to be evaluated is read as its text**, and up to its end. -/
theorem run_piecesUntil_phrase (hlast : ∀ t ∈ c.tokens.getLast?, t.kind = .finish)
    (hspells : ∀ t ∈ c.tokens, t.kind.Spells t.text.toList)
    (hliteral : ∀ t ∈ phrase stop depth c.tokens, t.kind.isLiteral = true)
    (hfuel : (phrase stop depth c.tokens).length < fuel) :
    ∃ parts d, (piecesUntil stop substitute fuel depth).run c = .ok (parts, d) ∧
      c.tokens = phrase stop depth c.tokens ++ d.tokens ∧
        Interpolation.plain? parts = some (String.ofList (pieces (phrase stop depth c.tokens))) := by
  -- each token takes one of the fuel, and the phrase goes on behind it in the new depth
  induction fuel generalizing c depth with
  | zero => exact absurd hfuel (Nat.not_lt_zero _)
  | succ fuel ih =>
      cases hends : c.current.kind.endsText stop depth with
      | true =>
          have hphrase : phrase stop depth c.tokens = [] := phrase_cons_of_ends hends _
          rw [hphrase]
          exact ⟨[], c, run_piecesUntil_end hends substitute fuel, rfl, rfl⟩
      | false =>
          have hfinish : c.current.kind ≠ .finish := fun hfinish =>
            Bool.eq_false_iff.mp hends (Kind.endsText_iff.mpr (.inl hfinish))
          have hmoves := tokens_advance_of_last hlast hfinish
          have hphrase : phrase stop depth c.tokens =
              c.current :: phrase stop (c.current.kind.deepen depth) c.advance.tokens :=
            (congrArg _ hmoves).trans (phrase_cons hends _)
          rw [hphrase] at hliteral hfuel ⊢
          obtain ⟨hcurrent, hliteral⟩ := List.forall_mem_cons.mp hliteral
          have hless := Nat.lt_of_succ_lt_succ hfuel
          rw [hmoves] at hspells hlast
          obtain ⟨hwritten, hspells⟩ := List.forall_mem_cons.mp hspells
          have hlast' : ∀ t ∈ c.advance.tokens.getLast?, t.kind = .finish := by
            intro t ht
            refine hlast t ?_
            rw [List.getLast?_cons, Option.mem_def.mp ht]
            rfl
          obtain ⟨rest, d, hrun, hd, hplain⟩ := ih hlast' hspells hliteral hless
          obtain ⟨parts, hparts, htext⟩ := run_piecesUntil_literal hcurrent hends hwritten
            (Nat.zero_lt_of_lt hless) hrun hplain
          refine ⟨parts, d, hparts, ?_, ?_⟩
          · rw [List.cons_append, ← hd, ← hmoves]
          · rw [htext, pieces_cons, String.ofList_append]

theorem plain?_ofPieces {parts : Interpolation} {text : String}
    (h : Interpolation.plain? parts = some text) :
    Interpolation.plain? (ofPieces parts) = some (Text.trim text) := by
  rw [ofPieces_plain h]
  split
  next hempty =>
    rw [String.isEmpty_iff.mp hempty]
    rfl
  next => simp [Interpolation.plain?]

/-- **Recovered text means what was written.** At any token of a text that does not stand right behind an
operand, text is read up to the token that ends it, if there is nothing to be evaluated up to there, and
what is recovered is text only. Read again, at any place, it has the tokens of the phrase, but for
comments, blanks at the ends, and how many blanks follow one another; provided that nothing joins where
comments are left out, and that the last token does not lose a blank of its own. -/
theorem interpolationUntil_rereads {source : String} {origin : Position} {before : List Token}
    {c : Cursor} {stop : Kind → Bool} {fuel : Nat}
    (hread : Token.read source origin = .ok (before ++ c.tokens))
    (hbefore : ∀ t ∈ before.getLast?, t.kind.endsOperand = false)
    (hliteral : ∀ t ∈ phrase stop 0 c.tokens, t.kind.isLiteral = true)
    (hfuel : (phrase stop 0 c.tokens).length < fuel) (substitute : Bool) :
    ∃ text d plain, (interpolationUntil fuel stop substitute).run c = .ok (text, d) ∧
      c.tokens = phrase stop 0 c.tokens ++ d.tokens ∧ Interpolation.plain? text = some plain ∧
        (Recoverable (phrase stop 0 c.tokens) → ∀ place, ∃ again,
          Token.read plain place = .ok again ∧ gist again = gist (phrase stop 0 c.tokens)) := by
  have hyields := read_yields source (rfl : origin.uri = origin.uri)
  rw [hread] at hyields
  have hlast : ∀ t ∈ c.tokens.getLast?, t.kind = .finish := by
    obtain ⟨last, hlast, hfinish⟩ := hyields.1.terminated
    have hne : c.tokens ≠ [] := List.cons_ne_nil _ _
    intro t ht
    rw [List.getLast?_append_of_ne_nil _ hne, Option.mem_def.mp ht] at hlast
    exact Option.some.inj hlast ▸ hfinish
  have hspells : ∀ t ∈ c.tokens, t.kind.Spells t.text.toList := fun t ht =>
    spells_of_readFrom hread t (List.mem_append_right before ht)
  obtain ⟨parts, d, hrun, hsplit, hplain⟩ := run_piecesUntil_phrase hlast hspells hliteral hfuel
  have hwhole : (interpolationUntil fuel stop substitute).run c = .ok (ofPieces parts, d) :=
    run_bind_of_ok hrun
  refine ⟨_, d, _, hwhole, hsplit, plain?_ofPieces hplain, fun hrecoverable place => ?_⟩
  rw [hsplit] at hread
  exact read_pieces hread (List.cons_ne_nil _ _) hbefore not_finish_of_mem_phrase
    (grouped_phrase hsplit) hrecoverable place

/-- A token on the first line of a text. -/
def onLine (start : Nat) (kind : Kind) (text : String) : Token :=
  ⟨kind, ⟨"m", 1, start + 1⟩, start, start + text.length, text⟩

/-- The tokens of `.a/**/.b {`. -/
def commentedSelector : List Token :=
  [onLine 0 (.mark .dot) ".", onLine 1 (.word "a") "a", onLine 2 (.comment "/**/") "/**/",
    onLine 6 (.mark .dot) ".", onLine 7 (.word "b") "b", onLine 8 .blank " ",
    onLine 9 (.mark .openBrace) "\x7b", onLine 10 .finish ""]

/-- Of `.a` and `.b` nothing is joined without the comment between them. -/
theorem commentedSelector_rereads :
    Token.read ".a/**/.b \x7b" (.start "m") = .ok commentedSelector ∧
      Recoverable (phrase atBrace 0 commentedSelector) ∧
      ∃ text d plain again,
        (interpolationUntil 8 atBrace false).run (.ofTokens (.start "m") commentedSelector) =
          .ok (text, d) ∧
        commentedSelector = phrase atBrace 0 commentedSelector ++ d.tokens ∧
        Interpolation.plain? text = some plain ∧ Token.read plain (.start "m") = .ok again ∧
        gist again = gist (phrase atBrace 0 commentedSelector) := by
  have hread : Token.read ".a/**/.b \x7b" (.start "m") = .ok commentedSelector := rfl
  have hkept : kept (phrase atBrace 0 commentedSelector) =
      [onLine 0 (.mark .dot) ".", onLine 1 (.word "a") "a", onLine 6 (.mark .dot) ".",
        onLine 7 (.word "b") "b", onLine 8 .blank " "] := rfl
  have happart : KeptApart true (kept (phrase atBrace 0 commentedSelector)) := by
    rw [hkept]
    have hends : (onLine 1 (.word "a") "a").ReadsBefore true ['.'] := ⟨'a', [], rfl, rfl⟩
    have hagain : (onLine 6 (.mark .dot) ".").ReadsBefore false [] := ⟨'.', [], rfl, rfl⟩
    exact ⟨.inr (.inl rfl), .inr (.inr ⟨hends, hagain⟩), .inr (.inl rfl), .inr (.inl rfl), trivial⟩
  have hkeeps : KeepsEnd (kept (phrase atBrace 0 commentedSelector)) := by
    rw [hkept]
    rintro t ⟨⟩
    refine .inr ?_
    rintro c ⟨⟩
    rfl
  have hrecoverable : Recoverable (phrase atBrace 0 commentedSelector) := ⟨happart, hkeeps⟩
  obtain ⟨text, d, plain, hrun, hsplit, hplain, hrereads⟩ := @interpolationUntil_rereads _ _ []
    (.ofTokens (.start "m") commentedSelector) atBrace 8 hread nofun (by decide) (by decide) false
  obtain ⟨again, hagain, hgist⟩ := hrereads hrecoverable (.start "m")
  exact ⟨hread, hrecoverable, text, d, plain, again, hrun, hsplit, hplain, hagain, hgist⟩

/-- The tokens of `x { --y: a/**/b; }`, in front of the value of the custom property and from there on. -/
def commentedValue : List Token × List Token :=
  ([onLine 0 (.word "x") "x", onLine 1 .blank " ", onLine 2 (.mark .openBrace) "\x7b",
      onLine 3 .blank " ", onLine 4 (.word "--y") "--y", onLine 7 (.mark .colon) ":",
      onLine 8 .blank " "],
    [onLine 9 (.word "a") "a", onLine 10 (.comment "/**/") "/**/", onLine 14 (.word "b") "b",
      onLine 15 (.mark .semicolon) ";", onLine 16 .blank " ", onLine 17 (.mark .closeBrace) "\x7d",
      onLine 18 .finish ""])

/-- Without the comment between them, two words are read as one. -/
theorem commentedValue_joined :
    Token.read "x \x7b --y: a/**/b; \x7d" (.start "m") =
        .ok (commentedValue.1 ++ commentedValue.2) ∧
      (∀ t ∈ commentedValue.2, t.kind.isLiteral = true) ∧
      gist (phrase atEnd 0 commentedValue.2) = [.word "a", .word "b"] ∧
      ∃ text d again,
        (interpolationUntil 8 atEnd false).run (.ofTokens (.start "m") commentedValue.2) =
          .ok (text, d) ∧
        Interpolation.plain? text = some "ab" ∧ Token.read "ab" (.start "m") = .ok again ∧
        gist again = [.word "ab"] := by
  exact ⟨rfl, by decide, rfl, _, _, _, rfl, rfl, rfl, rfl⟩

end Grammar

end Scss
