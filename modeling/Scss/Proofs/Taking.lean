import Scss.Grammar.Statement
import Scss.Proofs.Balance
import Scss.Proofs.Passages

/-!
# Reading known lexemes

Where the lexemes in front of a cursor are known, it is known what is read of them. `Takes` promises
that a reader succeeds there, says what it makes, and which lexemes it leaves. The fuel that this
takes is counted in lexemes.
-/

namespace Scss

namespace Token

variable {t : Token} {l : Lexeme}

theorem kind_of_lexeme (h : t.lexeme = l) : t.kind = l.kind := congrArg Lexeme.kind h

theorem text_of_lexeme (h : t.lexeme = l) (hl : l.kind.isBlank = false) : t.text = l.text := by
  have htext : (if t.kind.isBlank then "" else t.text) = l.text := congrArg Lexeme.text h
  rwa [kind_of_lexeme h, hl] at htext

end Token

namespace Cursor

/-- What is left to be read. -/
def lexemes (c : Cursor) : List Lexeme := c.tokens.map Token.lexeme

variable {c : Cursor} {l : Lexeme} {ls : List Lexeme}

theorem lexeme_current (h : c.lexemes = l :: ls) : c.current.lexeme = l := (List.cons.inj h).1

theorem kind_current (h : c.lexemes = l :: ls) : c.current.kind = l.kind :=
  congrArg Lexeme.kind (lexeme_current h)

/-- Moving over a lexeme that is not the last. -/
theorem lexemes_advance (h : c.lexemes = l :: ls) (hkind : l.kind ≠ .finish) (hls : ls ≠ []) :
    c.advance.lexemes = ls := by
  have hlater : c.later.map Token.lexeme = ls := (List.cons.inj h).2
  cases hnext : c.later with
  | nil => exact absurd (hlater.symm.trans (by rw [hnext]; rfl)) hls
  | cons next rest =>
      have hmoves : c.advance.tokens = next :: rest := by
        unfold Cursor.advance
        rw [hnext]
        split
        next hfinish => exact absurd ((kind_current h).symm.trans hfinish) hkind
        next heq _ =>
          obtain ⟨rfl, rfl⟩ := List.cons.inj heq
          rfl
        next heq _ => cases heq
      rw [Cursor.lexemes, hmoves, ← hlater, hnext]

theorem charset_advance (c : Cursor) : c.advance.charset = c.charset := by
  unfold Cursor.advance
  split <;> rfl

theorem charset_skip (test : Token.Kind → Bool) (c : Cursor) :
    (c.skip test).charset = c.charset := by
  have hgo : ∀ current stop later, (skip.go test c current stop later).charset = c.charset := by
    intro current stop later
    induction later generalizing current stop with
    | nil => rfl
    | cons next later ih =>
        rw [skip.go]
        split
        · exact ih _ _
        · rfl
  exact hgo _ _ _

/-- The lexemes behind those that satisfy a test, as long as there are others. -/
theorem lexemes_skip (test : Token.Kind → Bool) (front : List Lexeme)
    (h : c.lexemes = front ++ l :: ls) (hfront : ∀ x ∈ front, test x.kind = true) (hl : test l.kind = false) :
    (c.skip test).lexemes = l :: ls := by
  have hgo : ∀ (later : List Token) (current : Token) (stop : Option Nat) (front : List Lexeme),
      (current :: later).map Token.lexeme = front ++ l :: ls →
      (∀ x ∈ front, test x.kind = true) → (skip.go test c current stop later).lexemes = l :: ls := by
    intro later
    induction later with
    | nil =>
        intro current stop front h hfront
        cases front with
        | nil => exact h
        | cons x front => exact absurd h (by simp)
    | cons next later ih =>
        intro current stop front h hfront
        rw [skip.go]
        cases front with
        | nil =>
            have hcurrent : current.kind = l.kind := congrArg Lexeme.kind (List.cons.inj h).1
            rw [hcurrent, if_neg (by simp [hl])]
            exact h
        | cons x front =>
            obtain ⟨hx, hfront⟩ := List.forall_mem_cons.mp hfront
            obtain ⟨hhead, h⟩ := List.cons.inj h
            have hcurrent : test current.kind = true := (congrArg (test ·.kind) hhead).trans hx
            rw [if_pos hcurrent]
            exact ih next _ front h hfront
  exact hgo _ _ _ front h hfront

end Cursor

/-- At certain lexemes the reader succeeds with a result that satisfies `Q`, and certain lexemes are
left. -/
def Takes {α : Type} (front : List Lexeme) (m : Parser α) (Q : α → Prop) (back : List Lexeme) : Prop :=
  ∀ c : Cursor, c.lexemes = front →
    ∃ a d, m.run c = .ok (a, d) ∧ Q a ∧ d.lexemes = back ∧ d.charset = c.charset

open Scss.Parser

namespace Takes

variable {α β : Type} {front between back ls : List Lexeme} {l : Lexeme} {m : Parser α}
  {Q : α → Prop} {R : β → Prop}

protected theorem pure {a : α} (h : Q a) : Takes ls (pure a) Q ls :=
  fun c hc => ⟨a, c, rfl, h, hc, rfl⟩

protected theorem bind {f : α → Parser β} (hm : Takes front m Q between)
    (hf : ∀ a, Q a → Takes between (f a) R back) : Takes front (m >>= f) R back := by
  intro c hc
  obtain ⟨a, d, hrun, ha, hd, hcharset⟩ := hm c hc
  obtain ⟨b, e, hrun', hb, he, hcharset'⟩ := hf a ha d hd
  refine ⟨b, e, ?_, hb, he, hcharset'.trans hcharset⟩
  show ((m.run c) >>= fun r => (f r.1).run r.2) = _
  rw [hrun]
  exact hrun'

theorem mono {Q' : α → Prop} (h : Takes front m Q back) (hQ : ∀ a, Q a → Q' a) :
    Takes front m Q' back := by
  intro c hc
  obtain ⟨a, d, hrun, ha, hd⟩ := h c hc
  exact ⟨a, d, hrun, hQ a ha, hd⟩

protected theorem discard (h : Takes front m Q back) : Takes front (discard m) (fun _ => True) back :=
  h.bind fun _ _ => Takes.pure trivial

theorem get_bind {f : Cursor → Parser β}
    (h : ∀ c : Cursor, c.lexemes = front → Takes front (f c) R back) :
    Takes front (get >>= f) R back := fun c hc => h c hc c hc

theorem anyToken_bind {f : Token → Parser β} (h : ∀ t, Takes front (f t) R back) :
    Takes front (token >>= f) R back := fun c hc => h c.current c hc

theorem token_bind {f : Token → Parser β}
    (h : ∀ t : Token, t.lexeme = l → Takes (l :: ls) (f t) R back) :
    Takes (l :: ls) (token >>= f) R back :=
  fun c hc => h c.current (Cursor.lexeme_current hc) c hc

theorem peek_bind {f : Token.Kind → Parser β} (h : Takes (l :: ls) (f l.kind) R back) :
    Takes (l :: ls) (peek >>= f) R back := by
  intro c hc
  show ∃ a d, (f c.current.kind).run c = _ ∧ _
  rw [Cursor.kind_current hc]
  exact h c hc

theorem advance_bind {f : Token → Parser β} (hkind : l.kind ≠ .finish) (hls : ls ≠ [])
    (h : ∀ t : Token, t.lexeme = l → Takes ls (f t) R back) :
    Takes (l :: ls) (advance >>= f) R back := by
  intro c hc
  obtain ⟨b, d, hrun, hb, hd, hcharset⟩ :=
    h c.current (Cursor.lexeme_current hc) c.advance (Cursor.lexemes_advance hc hkind hls)
  exact ⟨b, d, hrun, hb, hd, hcharset.trans c.charset_advance⟩

protected theorem advance (hkind : l.kind ≠ .finish) (hls : ls ≠ []) :
    Takes (l :: ls) (discard advance) (fun _ => True) ls :=
  Takes.discard (advance_bind (f := pure) (R := fun _ => True) hkind hls fun _ _ => Takes.pure trivial)

theorem over_bind {f : PUnit → Parser β} (hkind : l.kind ≠ .finish) (hls : ls ≠ [])
    (h : Takes ls (f ⟨⟩) R back) : Takes (l :: ls) (discard Parser.advance >>= f) R back :=
  (Takes.advance hkind hls).bind fun _ _ => h

/-! ### Blanks -/

/-- Blanks in front of another lexeme are moved over. -/
protected theorem skipBlanks (hl : l.kind.isBlank = false) :
    Takes (l :: ls) skipBlanks (fun spaced => spaced = false) (l :: ls) := by
  intro c hc
  refine ⟨_, _, rfl, ?_, Cursor.lexemes_skip _ [] hc (fun _ h => nomatch h) hl,
    c.charset_skip _⟩
  rw [Cursor.kind_current hc, hl]

protected theorem skipBlank (hl : l.kind.isBlank = false) :
    Takes (Lexeme.blank :: l :: ls) skipBlanks (fun spaced => spaced = true) (l :: ls) := by
  intro c hc
  refine ⟨_, _, rfl, ?_, Cursor.lexemes_skip _ [Lexeme.blank] hc ?_ hl, c.charset_skip _⟩
  · rw [Cursor.kind_current hc]
    rfl
  · simp [Lexeme.blank, Token.Kind.isBlank]

theorem skipBlanks_bind {f : PUnit → Parser β} (hl : l.kind.isBlank = false)
    (h : Takes (l :: ls) (f ⟨⟩) R back) : Takes (l :: ls) (discard skipBlanks >>= f) R back :=
  (Takes.skipBlanks hl).discard.bind fun _ _ => h

theorem skipBlank_bind {f : PUnit → Parser β} (hl : l.kind.isBlank = false)
    (h : Takes (l :: ls) (f ⟨⟩) R back) :
    Takes (Lexeme.blank :: l :: ls) (discard skipBlanks >>= f) R back :=
  (Takes.skipBlank hl).discard.bind fun _ _ => h

/-! ### Marks -/

theorem isAt_bind {mark : Mark} {f : Bool → Parser β} (h : Takes (Lexeme.mark mark :: ls) (f true) R back) :
    Takes (Lexeme.mark mark :: ls) (isAt mark >>= f) R back := by
  refine Takes.bind (Q := (· = true)) (peek_bind ?_) fun at? hat => hat ▸ h
  exact Takes.pure (beq_self_eq_true mark)

theorem isNotAt_bind {mark : Mark} {f : Bool → Parser β} (hl : l.kind ≠ .mark mark)
    (h : Takes (l :: ls) (f false) R back) : Takes (l :: ls) (isAt mark >>= f) R back := by
  refine Takes.bind (Q := (· = false)) (peek_bind ?_) fun at? hat => hat ▸ h
  split
  next n hn =>
    refine Takes.pure (beq_eq_false_iff_ne.mpr fun heq => hl ?_)
    rw [hn, heq]
  · exact Takes.pure rfl

theorem expect_bind {mark : Mark} {what : String} {f : PUnit → Parser β} (hls : ls ≠ [])
    (h : Takes ls (f ⟨⟩) R back) : Takes (Lexeme.mark mark :: ls) (expect mark what >>= f) R back := by
  refine Takes.bind (Q := fun _ => True) (isAt_bind ?_) fun _ _ => h
  exact Takes.advance nofun hls

end Takes

/-! ## Looking ahead -/

/-- A token with nothing but its lexeme. -/
def Lexeme.token (l : Lexeme) : Token := ⟨l.kind, default, 0, 0, l.text⟩

namespace Grammar

/-- Whether a block is opened by what is left to be read. -/
def opens (brackets : Nat) (ls : List Lexeme) : Bool := opensBlock brackets 0 (ls.map Lexeme.token)

theorem opensBlock_eq_opens (brackets : Nat) (tokens : List Token) :
    opensBlock brackets 0 tokens = opens brackets (tokens.map Token.lexeme) := by
  suffices h : ∀ brackets interpolations, opensBlock brackets interpolations tokens =
      opensBlock brackets interpolations ((tokens.map Token.lexeme).map Lexeme.token) from h _ _
  induction tokens with
  | nil => exact fun _ _ => rfl
  | cons t tokens ih =>
      intro brackets interpolations
      simp only [List.map_cons, opensBlock, ih]
      rfl

end Grammar

/-! ## Text in pieces -/

namespace Grammar

open Token Takes

variable {stop : Kind → Bool} {substitute : Bool} {depth : Nat} {ls back behind : List Lexeme}
  {cs : List Char} {tail : String}

/-- At these lexemes pieces are read, of the given text, if there is enough fuel. -/
def TakesPieces (stop : Kind → Bool) (substitute : Bool) (depth : Nat) (front : List Lexeme)
    (text : String) (behind : List Lexeme) : Prop :=
  ∀ fuel, 8 * front.length + 2 ≤ fuel →
    Takes front (piecesUntil stop substitute fuel depth) (Interpolation.plain? · = some text) behind

theorem takes_textParts {text : List Char} (htext : Text.cutAtInterpolation? text = none) {fuel : Nat}
    (hfuel : 0 < fuel) (origin : Position) :
    Takes ls (textParts fuel origin text) (Interpolation.plain? · = some (String.ofList text)) ls := by
  cases fuel with
  | zero => exact absurd hfuel (Nat.lt_irrefl 0)
  | succ fuel =>
      rw [textParts, htext]
      refine Takes.pure ?_
      cases text with
      | nil => rfl
      | cons c rest => simp [Interpolation.plain?]

theorem plain?_append {front rest : Interpolation} {s t : String}
    (hfront : Interpolation.plain? front = some s) (hrest : Interpolation.plain? rest = some t) :
    Interpolation.plain? (front ++ rest) = some (s ++ t) := by
  induction front generalizing s with
  | nil =>
      obtain rfl := Option.some.inj hfront
      simpa using hrest
  | cons part front ih =>
      cases part with
      | embedded v => simp [Interpolation.plain?] at hfront
      | literal text =>
          obtain ⟨u, hu, rfl⟩ := Option.map_eq_some_iff.mp hfront
          rw [List.cons_append, Interpolation.plain?, ih hu]
          simp [String.append_assoc]

/-- A piece in front of others. -/
theorem takes_piece {fuel : Nat} {piece : TextPart Value} {text rest : String}
    (hpiece : piece = .literal text) (h : Takes ls (piecesUntil stop substitute fuel depth)
      (Interpolation.plain? · = some rest) behind) :
    Takes ls (do return piece :: (← piecesUntil stop substitute fuel depth))
      (Interpolation.plain? · = some (text ++ rest)) behind := by
  refine h.bind fun parts hparts => Takes.pure ?_
  rw [hpiece, Interpolation.plain?, hparts]
  rfl

theorem lexemes_ne_nil (hback : back ≠ []) : ls ++ back ≠ [] := fun h =>
  hback (List.append_eq_nil_iff.mp h).2

/-- What is read in pieces goes on at a lexeme that does not stop it. -/
theorem goes_on {l : Lexeme} (hl : stop l.kind = false) {t : Token} (ht : t.lexeme = l) (depth : Nat) :
    ¬(depth == 0 && stop t.kind) = true := by
  simp [kind_of_lexeme ht, hl]

/-- With one lexeme less, there is fuel for the rest. -/
theorem exists_fuel {l : Lexeme} {rest : List Lexeme} {rank fuel : Nat}
    (h : 8 * (l :: rest).length + rank ≤ fuel) :
    ∃ f, fuel = f + 1 ∧ 8 * rest.length + rank ≤ f := by
  rw [List.length_cons] at h
  exact ⟨fuel - 1, by omega, by omega⟩

/-- A lexeme in front of what is read, if there is fuel for it. -/
theorem TakesPieces.cons {l : Lexeme} {depth' : Nat} {text rest : String}
    (h : TakesPieces stop substitute depth' ls rest behind)
    (hstep : ∀ fuel, 0 < fuel →
      Takes ls (piecesUntil stop substitute fuel depth') (Interpolation.plain? · = some rest) behind →
        Takes (l :: ls) (piecesUntil stop substitute (fuel + 1) depth)
          (Interpolation.plain? · = some text) behind) :
    TakesPieces stop substitute depth (l :: ls) text behind := by
  intro fuel hfuel
  obtain ⟨fuel, rfl, hless⟩ := exists_fuel hfuel
  exact hstep fuel (by omega) (h fuel hless)

theorem mark_ne_finish (m : Mark) : (Lexeme.mark m).kind ≠ .finish := by
  rintro ⟨⟩

/-- A mark is read as its text, and a bracket moves the depth. -/
theorem takes_mark {m : Mark} {text rest : String} {fuel : Nat} (hm : m ≠ .interpolation)
    (hl : stop (.mark m) = false) (hls : ls ≠ [])
    (h : Takes ls (piecesUntil stop substitute fuel (Kind.deepen depth (.mark m)))
      (Interpolation.plain? · = some rest) behind) :
    Takes (⟨.mark m, text⟩ :: ls) (piecesUntil stop substitute (fuel + 1) depth)
      (Interpolation.plain? · = some (text ++ rest)) behind := by
  rw [piecesUntil]
  refine token_bind fun t ht => ?_
  have hpiece : TextPart.literal t.text = (TextPart.literal text : TextPart Value) := by
    rw [text_of_lexeme ht rfl]
  rw [if_neg (goes_on hl ht depth), kind_of_lexeme ht]
  cases m
  all_goals first
    | exact absurd rfl hm
    | exact over_bind nofun hls (takes_piece hpiece h)

/-- A token that is read as text and nothing else. -/
theorem takes_plain {kind : Kind} {text rest : String} {fuel : Nat} (hkind : kind.isPlain = true)
    (hl : stop kind = false) (hls : ls ≠ [])
    (h : Takes ls (piecesUntil stop substitute fuel depth) (Interpolation.plain? · = some rest) behind) :
    Takes (⟨kind, text⟩ :: ls) (piecesUntil stop substitute (fuel + 1) depth)
      (Interpolation.plain? · = some (text ++ rest)) behind := by
  cases kind with
  | mark m =>
      -- no plain mark is a bracket, so that the depth stays
      refine takes_mark (by rintro rfl; cases hkind) hl hls ?_
      cases m
      all_goals first
        | exact absurd hkind (by decide)
        | exact h
  | word | number | hash | stray =>
      rw [piecesUntil]
      refine token_bind fun t ht => ?_
      have hpiece : TextPart.literal t.text = (TextPart.literal text : TextPart Value) := by
        rw [text_of_lexeme ht rfl]
      rw [if_neg (goes_on hl ht depth), kind_of_lexeme ht]
      exact over_bind nofun hls (takes_piece hpiece h)
  | _ => cases hkind

/-- Blanks are read as a space. -/
theorem takes_blank {rest : String} {fuel : Nat} (hl : stop .blank = false) (hls : ls ≠ [])
    (h : Takes ls (piecesUntil stop substitute fuel depth) (Interpolation.plain? · = some rest) behind) :
    Takes (Lexeme.blank :: ls) (piecesUntil stop substitute (fuel + 1) depth)
      (Interpolation.plain? · = some (" " ++ rest)) behind := by
  rw [piecesUntil]
  refine token_bind fun t ht => ?_
  rw [if_neg (goes_on hl ht depth), kind_of_lexeme ht]
  exact over_bind nofun hls (takes_piece rfl h)

/-- A raw call is read as it is written, if nothing is embedded in it. -/
theorem takes_rawCall {name argument written rest : String} {fuel : Nat}
    (hl : stop (.rawCall name argument) = false) (hls : ls ≠ []) (hfuel : 0 < fuel)
    (hargument : Text.cutAtInterpolation? argument.toList = none)
    (h : Takes ls (piecesUntil stop substitute fuel depth) (Interpolation.plain? · = some rest) behind) :
    Takes (⟨.rawCall name argument, written⟩ :: ls) (piecesUntil stop substitute (fuel + 1) depth)
      (Interpolation.plain? · = some (name ++ "(" ++ (argument ++ (")" ++ rest)))) behind := by
  rw [piecesUntil]
  refine token_bind fun t ht => ?_
  rw [if_neg (goes_on hl ht depth), kind_of_lexeme ht]
  refine Takes.bind (takes_textParts hargument hfuel _) fun parts hparts => ?_
  rw [String.ofList_toList] at hparts
  refine over_bind nofun hls (h.bind fun pieces hpieces => Takes.pure ?_)
  have hclosed : Interpolation.plain? (.literal ")" :: pieces) = some (")" ++ rest) := by
    rw [Interpolation.plain?, hpieces]
    rfl
  rw [List.cons_append, Interpolation.plain?, plain?_append hparts hclosed]
  rfl

/-- **A passage is read in pieces that make up its text.** -/
theorem takesPieces_passage (h : Passage depth ls cs) (hstop : ∀ l ∈ ls, stop l.kind = false)
    (hback : back ≠ []) (hbehind : TakesPieces stop substitute 0 back tail behind) :
    TakesPieces stop substitute depth (ls ++ back) (String.ofList cs ++ tail) behind := by
  have hmore (ls : List Lexeme) : ls ++ back ≠ [] := lexemes_ne_nil hback
  induction h with
  | nil => simpa using hbehind
  | @blank depth ls cs _ ih =>
      obtain ⟨hl, hstop⟩ := List.forall_mem_cons.mp hstop
      have htext : String.ofList (' ' :: cs) ++ tail = " " ++ (String.ofList cs ++ tail) := by
        rw [← String.toList_inj]
        simp
      rw [htext]
      exact (ih hstop).cons fun fuel _ hrest => takes_blank hl (hmore ls) hrest
  | @colon depth ls cs _ ih =>
      obtain ⟨hl, hstop⟩ := List.forall_mem_cons.mp hstop
      have htext : String.ofList (':' :: cs) ++ tail = ":" ++ (String.ofList cs ++ tail) := by
        rw [← String.toList_inj]
        simp
      rw [htext]
      exact (ih hstop).cons fun fuel _ hrest => takes_mark nofun hl (hmore ls) hrest
  | @rawCall depth ls name argument cs written hargument _ ih =>
      obtain ⟨hl, hstop⟩ := List.forall_mem_cons.mp hstop
      have htext : String.ofList (name ++ '(' :: argument ++ ')' :: cs) ++ tail =
          (String.ofList name ++ "(") ++
            (String.ofList argument ++ (")" ++ (String.ofList cs ++ tail))) := by
        rw [← String.toList_inj]
        simp
      rw [htext]
      exact (ih hstop).cons fun fuel hfuel hrest =>
        takes_rawCall hl (hmore ls) hfuel (by rwa [String.toList_ofList]) hrest
  | @opening depth ls cs m hm _ ih =>
      obtain ⟨hl, hstop⟩ := List.forall_mem_cons.mp hstop
      rw [String.ofList_append, String.ofList_toList, String.append_assoc]
      refine (ih hstop).cons fun fuel _ hrest => ?_
      rcases hm with rfl | rfl
      · exact takes_mark nofun hl (hmore ls) hrest
      · exact takes_mark nofun hl (hmore ls) hrest
  | @closing depth ls cs m hm _ ih =>
      obtain ⟨hl, hstop⟩ := List.forall_mem_cons.mp hstop
      rw [String.ofList_append, String.ofList_toList, String.append_assoc]
      refine (ih hstop).cons fun fuel _ hrest => ?_
      rcases hm with rfl | rfl
      · exact takes_mark nofun hl (hmore ls) hrest
      · exact takes_mark nofun hl (hmore ls) hrest
  | @plain depth kind ls word cs hkind _ ih =>
      obtain ⟨hl, hstop⟩ := List.forall_mem_cons.mp hstop
      rw [String.ofList_append, String.append_assoc]
      exact (ih hstop).cons fun fuel _ hrest => takes_plain hkind hl (hmore ls) hrest

/-- Reading in pieces stops in front of what stops it. -/
theorem takesPieces_stop {l : Lexeme} (hl : stop l.kind = true) :
    TakesPieces stop substitute 0 (l :: ls) "" (l :: ls) := by
  intro fuel hfuel
  obtain ⟨fuel, rfl, -⟩ := exists_fuel hfuel
  rw [piecesUntil]
  refine token_bind fun t ht => ?_
  rw [if_pos (by simp [kind_of_lexeme ht, hl])]
  exact Takes.pure rfl

/-- The blank in front of what stops it is read as a space. -/
theorem takesPieces_blank_stop {l : Lexeme} (hblank : stop Kind.blank = false)
    (hl : stop l.kind = true) :
    TakesPieces stop substitute 0 (Lexeme.blank :: l :: ls) " " (l :: ls) := by
  have hpassage : Passage 0 [Lexeme.blank] [' '] := .blank .nil
  have hstop : TakesPieces stop substitute 0 (l :: ls) "" (l :: ls) := takesPieces_stop hl
  have hnone : ∀ x ∈ [Lexeme.blank], stop x.kind = false := by simpa [Lexeme.blank] using hblank
  exact takesPieces_passage hpassage hnone (List.cons_ne_nil _ _) hstop

theorem joinLiterals_plain {parts : Interpolation} {t : String}
    (h : Interpolation.plain? parts = some t) :
    joinLiterals parts = if t.isEmpty then [] else [.literal t] := by
  induction parts generalizing t with
  | nil =>
      obtain rfl := Option.some.inj h
      rfl
  | cons part parts ih =>
      cases part with
      | embedded v => simp [Interpolation.plain?] at h
      | literal s =>
          obtain ⟨u, hu, rfl⟩ := Option.map_eq_some_iff.mp h
          rw [joinLiterals, ih hu]
          by_cases hu' : u = ""
          · subst hu'
            simp
          · simp [hu']

/-- Pieces of text without expressions are put together to one. -/
theorem ofPieces_plain {parts : Interpolation} {t : String}
    (h : Interpolation.plain? parts = some t) :
    ofPieces parts = if (Text.trim t).isEmpty then [] else [.literal (Text.trim t)] := by
  have htrim : Text.trimEnd (Text.trimStart t) = Text.trim t := by
    simp [Text.trimEnd, Text.trimStart, Text.trim]
  rw [ofPieces, joinLiterals_plain h]
  by_cases ht : t = ""
  · subst ht
    rfl
  · rw [if_neg (by simpa using ht), trimFirst, trimLast, htrim]
    by_cases hempty : (Text.trim t).isEmpty = true
    · simp [hempty]
    · simp [hempty]

theorem takes_interpolationUntil {front : List Lexeme} {text : String}
    (h : TakesPieces stop substitute 0 front text behind) {fuel : Nat}
    (hfuel : 8 * front.length + 2 ≤ fuel) :
    Takes front (interpolationUntil fuel stop substitute)
      (· = if (Text.trim text).isEmpty then [] else [.literal (Text.trim text)]) behind :=
  (h fuel hfuel).bind fun _ hparts => Takes.pure (ofPieces_plain hparts)

end Grammar

end Scss
