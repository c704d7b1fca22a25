import Mathlib
import Scss.Grammar.Expression
import Scss.Proofs.Lexing

/-!
# Reading ends before the fuel does

The functions that read a value call each other in many ways, and each is given fuel. That no text is
nested so deep that the fuel runs out is shown with one measure, the characters of the tokens that are
left. Every function has a *rank*: so many calls may follow each other before a token is moved over, or
before the text of a token is read in its place. There are at most eight of them, so that fuel for eight
calls for each character, and for the rank, suffices (`Fueled`).

The rest is a small calculus of parsers. `Reads` tells where a parser gets from cursors of some kind,
with one law for each way in which parsers are built; the cursors are those that stand within the tokens
of a file and have at most so many characters in front of them (`Within`). So a parser that has these
cursors in front of it and behind it never leaves the tokens, and if it fails, it fails at one of them.
-/

namespace Scss

open Scss.Parser

/-! ## Cursors -/

namespace Cursor

/-- The cursor stands within the tokens of a file, and at most so many characters are left. -/
structure Within (uri : String) (tokens : List Token) (w : Nat) (c : Cursor) : Prop where
  sound : Token.AllSound uri tokens
  suffix : c.tokens <:+ tokens
  weight : Token.weight c.tokens ≤ w

/-- The same, where the current token is known. -/
structure Facing (uri : String) (tokens : List Token) (w : Nat) (kind : Token.Kind) (c : Cursor) :
    Prop extends Within uri tokens w c where
  kind : c.current.kind = kind

/-- Fewer characters are left. -/
def Below (uri : String) (tokens : List Token) (w : Nat) (c : Cursor) : Prop :=
  ∃ v < w, Within uri tokens v c

variable {uri : String} {tokens : List Token} {v w : Nat} {kind : Token.Kind} {c : Cursor}

theorem Within.le (h : Within uri tokens v c) (hv : v ≤ w) : Within uri tokens w c :=
  ⟨h.sound, h.suffix, h.weight.trans hv⟩

theorem Within.current (h : Within uri tokens w c) : c.current.Sound uri :=
  h.sound.sound _ (h.suffix.subset List.mem_cons_self)

/-- Moving on along the tokens. -/
theorem Within.move {d : Cursor} (h : Within uri tokens w c) (hd : d.tokens <:+ c.tokens) :
    Within uri tokens w d := by
  refine ⟨h.sound, hd.trans h.suffix, le_trans ?_ h.weight⟩
  obtain ⟨front, hfront⟩ := hd
  rw [← hfront, Token.weight, Token.weight, List.map_append, List.sum_append]
  exact Nat.le_add_left _ _

/-- Where the text has not ended, there is another token. -/
theorem Within.later (h : Within uri tokens w c) (hkind : c.current.kind ≠ .finish) :
    ∃ next rest, c.later = next :: rest := by
  refine List.exists_cons_of_ne_nil fun hnil => hkind ?_
  obtain ⟨last, hlast, hfinish⟩ := h.sound.terminated
  obtain ⟨front, hfront⟩ := h.suffix
  have hcurrent : tokens.getLast? = some c.current := by
    rw [← hfront, Cursor.tokens, hnil, List.getLast?_concat]
  obtain rfl := Option.some.inj (hcurrent.symm.trans hlast)
  exact hfinish

/-- Moving over the current token leaves what is behind it. -/
theorem Within.advance (h : Within uri tokens w c) :
    ∃ v, v + c.current.text.length ≤ w ∧ Within uri tokens v c.advance := by
  by_cases hkind : c.current.kind = .finish
  · have hstays : c.advance = c := by
      unfold Cursor.advance
      rw [hkind]
    rw [hstays, h.current.finish hkind]
    exact ⟨w, Nat.le_refl w, h⟩
  · obtain ⟨next, rest, hlater⟩ := h.later hkind
    have hmoves : c.advance.tokens = next :: rest := by
      unfold Cursor.advance
      rw [hlater]
      split <;> simp_all [Cursor.tokens]
    have hsuffix : c.advance.tokens <:+ c.tokens := by
      rw [hmoves, Cursor.tokens, hlater]
      exact List.suffix_cons _ _
    have hweight : Token.weight c.tokens = c.current.text.length + Token.weight c.advance.tokens := by
      rw [hmoves, Cursor.tokens, hlater, Token.weight_cons]
    have htotal := h.weight
    exact ⟨w - c.current.text.length, by omega, h.sound, (h.move hsuffix).suffix, by omega⟩

/-- A cursor on the first token of a text. -/
theorem within_ofTokens (origin : Position) (h : Token.AllSound uri tokens)
    (hw : Token.weight tokens ≤ w) : Within uri tokens w (ofTokens origin tokens) := by
  cases tokens with
  | nil =>
      obtain ⟨last, hlast, -⟩ := h.terminated
      cases hlast
  | cons t later => exact ⟨h, List.suffix_rfl, hw⟩

/-- Skipping drops tokens at the front. -/
theorem skip_go_suffix (test : Token.Kind → Bool) (c : Cursor) (current : Token) (stop : Option Nat)
    (later : List Token) : (skip.go test c current stop later).tokens <:+ current :: later := by
  induction later generalizing current stop with
  | nil => exact List.suffix_rfl
  | cons next later ih =>
      rw [skip.go]
      split
      · exact (ih next _).trans (List.suffix_cons current (next :: later))
      · exact List.suffix_rfl

theorem skip_suffix (test : Token.Kind → Bool) (c : Cursor) : (c.skip test).tokens <:+ c.tokens :=
  skip_go_suffix test c c.current c.previousStop c.later

end Cursor

/-! ## Parsers -/

/-- From cursors of one kind reading gets to those of another, or finds a fault of the text. -/
def Reads {α : Type} (uri : String) (P : Cursor → Prop) (m : Parser α) (Q : α → Cursor → Prop) :
    Prop :=
  ∀ c, P c → Yields uri (fun r => Q r.1 r.2) (m.run c)

namespace Reads

variable {α β : Type} {uri : String} {P : Cursor → Prop} {Q : α → Cursor → Prop}
  {R : β → Cursor → Prop} {m : Parser α} {tokens : List Token} {v w : Nat} {kind : Token.Kind}

open Cursor

protected theorem pure {a : α} (h : ∀ c, P c → Q a c) : Reads uri P (pure a) Q := h

protected theorem bind {f : α → Parser β} (hm : Reads uri P m Q) (hf : ∀ a, Reads uri (Q a) (f a) R) :
    Reads uri P (m >>= f) R := by
  intro c hc
  show Yields uri _ ((m.run c) >>= fun r => (f r.1).run r.2)
  exact (hm c hc).bind fun r hr => hf r.1 r.2 hr

theorem pure_bind {a : α} {f : α → Parser β} (h : Reads uri P (f a) R) :
    Reads uri P (pure a >>= f) R := h

/-- Behind a failure nothing is read. -/
theorem fails_bind {f : α → Parser β} (hm : Reads uri P m fun _ _ => False) :
    Reads uri P (m >>= f) R := hm.bind fun _ _ hc => hc.elim

theorem mono {Q' : α → Cursor → Prop} (h : Reads uri P m Q) (hQ : ∀ a c, Q a c → Q' a c) :
    Reads uri P m Q' := fun c hc => (h c hc).mono fun r => hQ r.1 r.2

theorem weaken {P' : Cursor → Prop} (h : Reads uri P m Q) (hP : ∀ c, P' c → P c) :
    Reads uri P' m Q := fun c hc => h c (hP c hc)

protected theorem discard {P' : Cursor → Prop} (h : Reads uri P m fun _ => P') :
    Reads uri P (discard m) fun _ => P' :=
  h.bind fun _ => Reads.pure fun _ hc => hc

/-- One of two parsers. -/
protected theorem ite {p : Prop} [Decidable p] {m' : Parser α} (h : Reads uri P m Q)
    (h' : Reads uri P m' Q) : Reads uri P (if p then m else m') Q := by
  split
  · exact h
  · exact h'

theorem get_bind {f : Cursor → Parser β} (h : ∀ c, P c → Reads uri P (f c) R) :
    Reads uri P (get >>= f) R := fun c hc => h c hc c hc

theorem set_bind {P' : Cursor → Prop} {d : Cursor} {f : PUnit → Parser β} (hd : P' d)
    (h : Reads uri P' (f ⟨⟩) R) : Reads uri P (set d >>= f) R := fun _ _ => h d hd

protected theorem modify {P' : Cursor → Prop} {change : Cursor → Cursor}
    (h : ∀ c, P c → P' (change c)) : Reads uri P (modify change) fun _ => P' := h

/-- What is read in another way gives a value, or finds a fault of the text. -/
theorem lift_bind {r : Except Failure α} {S : α → Prop} {f : α → Parser β} (hr : Yields uri S r)
    (hf : ∀ a, S a → Reads uri P (f a) R) : Reads uri P (liftM r >>= f) R := by
  intro c hc
  cases r with
  | ok a => exact hf a hr c hc
  | error failure => exact hr

theorem failAt {t : Token} (ht : t.Sound uri) (fault : SyntaxFault) :
    Reads uri P (Parser.failAt t fault) Q := fun _ _ => ⟨_, fault, rfl, ht.position⟩

theorem failExpected {t : Token} (ht : t.Sound uri) (what : String) :
    Reads uri P (Parser.failExpected t what) Q := failAt ht _

/-! ### The current token -/

/-- What depends on the current token may rely on its kind, and on its being one of the text. -/
theorem token_bind {f : Token → Parser β}
    (h : ∀ t, t.Sound uri → t.text.length ≤ w → Reads uri (Facing uri tokens w t.kind) (f t) R) :
    Reads uri (Within uri tokens w) (token >>= f) R := by
  intro c hc
  have hlength : c.current.text.length ≤ w := by
    have hweight := hc.weight
    rw [Cursor.tokens, Token.weight_cons] at hweight
    omega
  exact h c.current hc.current hlength c ⟨hc, rfl⟩

theorem peek_bind {f : Token.Kind → Parser β}
    (h : ∀ kind, Reads uri (Facing uri tokens w kind) (f kind) R) :
    Reads uri (Within uri tokens w) (peek >>= f) R :=
  fun c hc => h c.current.kind c ⟨hc, rfl⟩

theorem peek_facing {f : Token.Kind → Parser β} (h : Reads uri (Facing uri tokens w kind) (f kind) R) :
    Reads uri (Facing uri tokens w kind) (peek >>= f) R := by
  intro c hc
  show Yields uri _ ((f c.current.kind).run c)
  rw [hc.kind]
  exact h c hc

/-- What is known of the current token is forgotten. -/
theorem anywhere (h : Reads uri (Within uri tokens w) m Q) :
    Reads uri (Facing uri tokens w kind) m Q := h.weaken fun _ => Facing.toWithin

/-- Fewer characters are left, whatever their number. -/
theorem below (h : ∀ v < w, Reads uri (Within uri tokens v) m Q) :
    Reads uri (Below uri tokens w) m Q := fun c ⟨v, hv, hc⟩ => h v hv c hc

theorem le (h : Reads uri P m fun _ => Within uri tokens v) (hv : v ≤ w) :
    Reads uri P m fun _ => Within uri tokens w := h.mono fun _ _ hc => hc.le hv

theorem pure_le {a : α} (hv : v ≤ w) :
    Reads uri (Within uri tokens v) (pure a) fun _ => Within uri tokens w :=
  Reads.pure fun _ hc => hc.le hv

theorem fail (fault : SyntaxFault) : Reads uri (Within uri tokens w) (Parser.fail fault) Q :=
  token_bind fun _ ht _ => failAt ht fault

/-- Moving over a token pays with its characters. -/
theorem advance_bind {f : Token → Parser β}
    (h : ∀ t v, t.Sound uri → v + t.text.length ≤ w → Reads uri (Within uri tokens v) (f t) R) :
    Reads uri (Within uri tokens w) (advance >>= f) R := by
  intro c hc
  obtain ⟨v, hv, hmoved⟩ := hc.advance
  exact h c.current v hc.current hv c.advance hmoved

/-- Moving over a token that is not the end of the text. -/
theorem over_bind {f : Token → Parser β} (hkind : kind ≠ .finish)
    (h : ∀ t, ∀ v < w, Reads uri (Within uri tokens v) (f t) R) :
    Reads uri (Facing uri tokens w kind) (advance >>= f) R := by
  intro c hc
  obtain ⟨v, hv, hmoved⟩ := hc.toWithin.advance
  have hpos := hc.toWithin.current.shorter (hc.kind.symm ▸ hkind)
  exact h c.current v (by omega) c.advance hmoved

theorem take (hkind : kind ≠ .finish) :
    Reads uri (Facing uri tokens w kind) (discard advance) fun _ => Below uri tokens w :=
  Reads.discard (over_bind (f := pure) hkind fun _ v hv => Reads.pure fun _ hc => ⟨v, hv, hc⟩)

/-- A token that was looked at is moved over, for which fewer characters are left. -/
theorem take_bind {f : PUnit → Parser β} (hkind : kind ≠ .finish)
    (h : ∀ v < w, Reads uri (Within uri tokens v) (f ⟨⟩) R) :
    Reads uri (Facing uri tokens w kind) (discard advance >>= f) R :=
  (take hkind).bind fun _ => below h

protected theorem isAt (mark : Mark) : Reads uri (Within uri tokens w) (isAt mark) fun at? c =>
    Within uri tokens w c ∧ (at? = true → c.current.kind = .mark mark) := by
  refine peek_bind fun kind => ?_
  split
  next n =>
    refine Reads.pure fun c hc => ⟨hc.toWithin, fun hmark => ?_⟩
    rw [hc.kind, eq_of_beq hmark]
  · exact Reads.pure fun c hc => ⟨hc.toWithin, nofun⟩

theorem isAt_and_ite {mark : Mark} {also : Bool} {yes no : Parser β}
    (hyes : Reads uri (Facing uri tokens w (.mark mark)) yes R)
    (hno : Reads uri (Within uri tokens w) no R) :
    Reads uri (Within uri tokens w) (do if also && (← isAt mark) then yes else no) R := by
  refine (Reads.isAt mark).bind fun at? => ?_
  split
  next h => exact hyes.weaken fun c hc => ⟨hc.1, hc.2 (Bool.and_eq_true_iff.mp h).2⟩
  · exact hno.weaken fun c hc => hc.1

/-- Where the mark was found it stands in front. -/
theorem isAt_ite {mark : Mark} {yes no : Parser β}
    (hyes : Reads uri (Facing uri tokens w (.mark mark)) yes R)
    (hno : Reads uri (Within uri tokens w) no R) :
    Reads uri (Within uri tokens w) (do if ← isAt mark then yes else no) R := by
  refine (Reads.isAt mark).bind fun at? => ?_
  split
  next h => exact hyes.weaken fun c hc => ⟨hc.1, hc.2 h⟩
  · exact hno.weaken fun c hc => hc.1

theorem isAt_not_ite {mark : Mark} {yes no : Parser β}
    (hno : Reads uri (Within uri tokens w) no R)
    (hyes : Reads uri (Facing uri tokens w (.mark mark)) yes R) :
    Reads uri (Within uri tokens w) (do if !(← isAt mark) then no else yes) R := by
  refine (Reads.isAt mark).bind fun at? => ?_
  cases at? with
  | false => exact hno.weaken fun c hc => hc.1
  | true => exact hyes.weaken fun c hc => ⟨hc.1, hc.2 rfl⟩

/-! ### Pieces of all kinds -/

protected theorem skip (test : Token.Kind → Bool) : Reads uri (Within uri tokens w)
    (modify fun c => c.skip test) fun _ => Within uri tokens w :=
  Reads.modify fun c hc => hc.move (c.skip_suffix test)

protected theorem skipBlanks :
    Reads uri (Within uri tokens w) skipBlanks fun _ => Within uri tokens w := by
  refine get_bind fun c hc => set_bind (hc.move (c.skip_suffix _)) ?_
  exact Reads.pure fun d hd => hd

/-- Blanks are moved over before what comes then. -/
theorem skipBlanks_bind {f : PUnit → Parser β} (h : Reads uri (Within uri tokens w) (f ⟨⟩) R) :
    Reads uri (Within uri tokens w) (discard skipBlanks >>= f) R :=
  Reads.skipBlanks.discard.bind fun _ => h

/-- Wherever the cursor is, moving over a token does not leave the text. -/
protected theorem advance :
    Reads uri (Within uri tokens w) (discard advance) fun _ => Within uri tokens w :=
  Reads.discard (advance_bind (f := pure) fun _ _ _ hv => pure_le (by omega))

/-- What is expected is moved over. -/
protected theorem expect (mark : Mark) (what : String) :
    Reads uri (Within uri tokens w) (expect mark what) fun _ => Below uri tokens w :=
  isAt_ite (take nofun) (token_bind fun _ ht _ => failExpected ht what)

/-- A mark that is expected is there and moved over, or there is a fault. -/
theorem expect_bind {mark : Mark} {what : String} {f : PUnit → Parser β}
    (h : ∀ v < w, Reads uri (Within uri tokens v) (f ⟨⟩) R) :
    Reads uri (Within uri tokens w) (expect mark what >>= f) R :=
  (Reads.expect mark what).bind fun _ => below h

protected theorem expectName (what : String) :
    Reads uri (Within uri tokens w) (expectName what) fun _ => Within uri tokens w := by
  refine skipBlanks_bind (advance_bind fun t v ht hv => ?_)
  split
  · exact pure_le (by omega)
  · exact failExpected ht what

protected theorem expectWord (word : String) :
    Reads uri (Within uri tokens w) (expectWord word) fun _ => Within uri tokens w := by
  refine advance_bind fun t v ht hv => ?_
  split
  · exact Reads.ite (pure_le (by omega)) (failExpected ht _)
  · exact failExpected ht _

protected theorem endStatement :
    Reads uri (Within uri tokens w) endStatement fun _ => Within uri tokens w := by
  refine skipBlanks_bind (peek_bind fun kind => anywhere ?_)
  split
  · exact Reads.advance
  · exact pure_le (Nat.le_refl w)
  · exact pure_le (Nat.le_refl w)
  · exact token_bind fun _ ht _ => failExpected ht _

protected theorem takeEllipsis :
    Reads uri (Within uri tokens w) takeEllipsis fun _ => Within uri tokens w := by
  refine get_bind fun c _ => Reads.ite ?_ (pure_le (Nat.le_refl w))
  exact Reads.advance.bind fun _ => Reads.advance.bind fun _ => Reads.advance.bind fun _ =>
    pure_le (Nat.le_refl w)

end Reads

/-! ## Values -/

namespace Grammar

open Cursor Reads

/-- The text in the braces and the text behind them are all but the closing brace. -/
theorem length_of_cutAtBrace? {quote : Option Char} {depth : Nat} {cs inner behind : List Char}
    (h : cutAtBrace? quote depth cs = some (inner, behind)) :
    inner.length + behind.length + 1 = cs.length := by
  induction cs generalizing quote depth inner behind with
  | nil => cases h
  | cons c rest ih =>
      have hgo : ∀ quote depth,
          (cutAtBrace? quote depth rest).map (fun cut => (c :: cut.1, cut.2)) = some (inner, behind) →
            inner.length + behind.length + 1 = (c :: rest).length := by
        intro quote depth hcut
        obtain ⟨⟨before, after⟩, hrest, heq⟩ := Option.map_eq_some_iff.mp hcut
        obtain ⟨rfl, rfl⟩ := Prod.mk.inj heq
        have hlength := ih hrest
        simp only [List.length_cons]
        omega
      unfold cutAtBrace? at h
      dsimp only at h
      split at h
      · exact hgo _ _ h
      · split at h
        · exact hgo _ _ h
        · split at h
          · exact hgo _ _ h
          · split at h
            · split at h
              · obtain ⟨rfl, rfl⟩ := Prod.mk.inj (Option.some.inj h)
                simp
              · exact hgo _ _ h
            · exact hgo _ _ h

/-- Where so many characters are left that the fuel suffices, with some calls for the rank, reading stays
within the tokens. -/
def Fueled {α : Type} (uri : String) (rank fuel : Nat) (m : Parser α) : Prop :=
  ∀ {tokens w}, 8 * w + rank ≤ fuel →
    Reads uri (Within uri tokens w) m fun _ => Within uri tokens w

theorem fueled_zero {α : Type} {uri : String} {rank : Nat} (h : 0 < rank) (m : Parser α) :
    Fueled uri rank 0 m := fun hfuel => absurd hfuel (by omega)

/-- With some fuel, values are read as long as it suffices. An operand is at least one token, and so is
an interpolation; text is read in turn wherever the cursor is. -/
structure ValuesFueled (uri : String) (fuel : Nat) : Prop where
  valueList : Fueled uri 6 fuel (valueList fuel)
  moreItems : Fueled uri 1 fuel (moreItems fuel)
  spaceExpression : ∀ stops, Fueled uri 5 fuel (spaceExpression fuel stops)
  expressionTokens : ∀ stops isFirst, Fueled uri 4 fuel (expressionTokens fuel stops isFirst)
  primary : ∀ {tokens w}, 8 * w + 3 ≤ fuel →
    Reads uri (Within uri tokens w) (primary fuel) fun _ => Below uri tokens w
  wordOrCall : ∀ name, Fueled uri 3 fuel (wordOrCall fuel name)
  interpolatedWord : ∀ parts, Fueled uri 2 fuel (interpolatedWord fuel parts)
  interpolated : ∀ {tokens w}, 8 * w + 2 ≤ fuel →
    Reads uri (Facing uri tokens w (.mark .interpolation)) (Grammar.interpolatedWord fuel []) fun _ =>
      Below uri tokens w
  arguments : Fueled uri 6 fuel (arguments fuel)
  embedded : ∀ {tokens w}, 8 * w + 1 ≤ fuel →
    Reads uri (Facing uri tokens w (.mark .interpolation)) (embedded fuel) fun _ =>
      Below uri tokens w
  textParts : ∀ {origin text P}, origin.uri = uri → 8 * text.length + 1 ≤ fuel →
    Reads uri P (textParts fuel origin text) fun _ => P
  wholeValue : ∀ {origin text P}, origin.uri = uri → 8 * text.length + 7 ≤ fuel →
    Reads uri P (wholeValue fuel text origin) fun _ => P

section
variable {uri : String} {fuel : Nat} (ih : ValuesFueled uri fuel)
include ih

/-- A list begins with an item, and needs one call more. -/
theorem valueList_fueled : Fueled uri 6 (fuel + 1) (valueList (fuel + 1)) := by
  intro tokens w h
  rw [valueList]
  refine (ih.spaceExpression [] (by omega)).bind fun first => skipBlanks_bind ?_
  refine isAt_ite (anywhere ?_) (pure_le le_rfl)
  exact (ih.moreItems (by omega)).bind fun _ => pure_le le_rfl

theorem moreItems_fueled : Fueled uri 1 (fuel + 1) (moreItems (fuel + 1)) := by
  intro tokens w h
  rw [moreItems]
  refine isAt_ite (take_bind nofun fun v hv => ?_) (pure_le le_rfl)
  refine skipBlanks_bind (peek_bind fun kind => anywhere ?_)
  refine Reads.ite (pure_le hv.le) ?_
  refine (ih.spaceExpression [] (by omega)).bind fun item => skipBlanks_bind ?_
  exact (ih.moreItems (by omega)).bind fun _ => pure_le hv.le

theorem spaceExpression_fueled (stops : List String) :
    Fueled uri 5 (fuel + 1) (spaceExpression (fuel + 1) stops) := by
  intro tokens w h
  rw [spaceExpression]
  refine (ih.expressionTokens stops true (by omega)).bind fun read => ?_
  exact Reads.ite (token_bind fun _ ht _ => failExpected ht _) (pure_le le_rfl)

/-- Each operand and each operator takes a token, so that the loop ends with them. -/
theorem expressionTokens_fueled (stops : List String) (isFirst : Bool) :
    Fueled uri 4 (fuel + 1) (expressionTokens (fuel + 1) stops isFirst) := by
  intro tokens w h
  rw [expressionTokens]
  refine Reads.skipBlanks.bind fun spaced => peek_bind fun kind => ?_
  split
  · exact anywhere (pure_le le_rfl)
  next hgoes =>
    have hkind : kind ≠ .finish := fun hfinish => hgoes (hfinish ▸ rfl)
    split
    · refine take_bind hkind fun v hv => ?_
      exact (ih.expressionTokens stops false (by omega)).bind fun _ => pure_le hv.le
    · refine anywhere ((ih.primary (by omega)).bind fun operand => below fun v hv => ?_)
      exact (ih.expressionTokens stops false (by omega)).bind fun _ => pure_le hv.le

/-- An operand is at least one token, whatever follows it. -/
theorem primary_fueled {tokens : List Token} {w : Nat} (h : 8 * w + 3 ≤ fuel + 1) :
    Reads uri (Within uri tokens w) (primary (fuel + 1)) fun _ => Below uri tokens w := by
  rw [primary]
  refine isAt_ite (ih.interpolated (by omega)) (advance_bind fun t v ht hv => ?_)
  -- any token but the last, at which reading fails, takes up some of the text
  have hless : ∀ {kind}, t.kind = kind → kind ≠ .finish → v < w := by
    intro kind hkind hne
    have hpos := ht.shorter (hkind ▸ hne)
    omega
  have hdone : ∀ {kind} {a : Value}, t.kind = kind → kind ≠ .finish →
      Reads uri (Within uri tokens v) (pure a) fun _ => Below uri tokens w :=
    fun hkind hne => Reads.pure fun c hc => ⟨v, hless hkind hne, hc⟩
  have htext : ∀ {text : String}, t.kind.embeddedText = text → t.kind ≠ .finish →
      8 * text.toList.length + 1 ≤ fuel := by
    intro text heq hne
    have hshorter := ht.shorter hne
    rw [heq, ← String.length_toList] at hshorter
    omega
  split
  next hkind => exact hdone hkind nofun
  next hkind => exact hdone hkind nofun
  next text quote hkind =>
    refine Reads.ite ?_ (hdone hkind nofun)
    exact (ih.textParts ht.position (htext (by rw [hkind]; rfl) (by rw [hkind]; nofun))).bind
      fun parts => hdone hkind nofun
  next hkind => exact hdone hkind nofun
  next name argument hkind =>
    dsimp only
    refine Reads.ite ?_ (hdone hkind nofun)
    exact (ih.textParts ht.position (htext (by rw [hkind]; rfl) (by rw [hkind]; nofun))).bind
      fun parts => hdone hkind nofun
  next name hkind =>
    have hv := hless hkind nofun
    exact (ih.wordOrCall name (by omega)).mono fun _ c hc => ⟨v, hv, hc⟩
  next hkind =>
    have hv := hless hkind nofun
    refine skipBlanks_bind (isAt_ite ?_ ?_)
    · exact take_bind nofun fun u hu => Reads.pure fun c hc => ⟨u, hu.trans hv, hc⟩
    · refine (ih.valueList (by omega)).bind fun inner => skipBlanks_bind ?_
      exact expect_bind fun u hu => Reads.pure fun c hc => ⟨u, hu.trans hv, hc⟩
  next hkind => exact hdone hkind nofun
  next hkind => exact hdone hkind nofun
  next => exact failAt ht _

theorem wordOrCall_fueled (name : String) :
    Fueled uri 3 (fuel + 1) (wordOrCall (fuel + 1) name) := by
  intro tokens w h
  rw [wordOrCall]
  refine get_bind fun c _ => isAt_and_ite ?_ (isAt_and_ite ?_ ?_)
  · refine take_bind nofun fun v hv => ?_
    exact (ih.arguments (by omega)).bind fun _ => pure_le hv.le
  · exact anywhere (ih.interpolatedWord _ (by omega))
  · exact Reads.ite (pure_le le_rfl) (pure_le le_rfl)

theorem interpolatedWord_fueled (parts : Interpolation) :
    Fueled uri 2 (fuel + 1) (interpolatedWord (fuel + 1) parts) := by
  intro tokens w h
  rw [interpolatedWord]
  have hword : ∀ {kind}, kind ≠ .finish → Reads uri (Facing uri tokens w kind)
      (do let t ← advance; Grammar.interpolatedWord fuel (parts ++ [.literal t.text]))
      fun _ => Within uri tokens w := fun hkind =>
    over_bind hkind fun t v hv => (ih.interpolatedWord _ (by omega)).le hv.le
  refine get_bind fun c _ => Reads.ite (pure_le le_rfl) (peek_bind fun kind => ?_)
  split
  · refine (ih.embedded (by omega)).bind fun inner => below fun v hv => ?_
    exact (ih.interpolatedWord _ (by omega)).le hv.le
  · exact hword nofun
  · exact hword nofun
  · exact hword nofun
  · exact anywhere (pure_le le_rfl)

theorem interpolated_fueled {tokens : List Token} {w : Nat} (h : 8 * w + 2 ≤ fuel + 1) :
    Reads uri (Facing uri tokens w (.mark .interpolation)) (interpolatedWord (fuel + 1) []) fun _ =>
      Below uri tokens w := by
  rw [interpolatedWord]
  refine get_bind fun c _ => ?_
  rw [if_neg (by simp)]
  refine peek_facing ((ih.embedded (by omega)).bind fun inner => below fun v hv => ?_)
  exact (ih.interpolatedWord _ (by omega)).mono fun _ c hc => ⟨v, hv, hc⟩

/-- Each argument is a list by space behind its name, and the comma pays for the next one. -/
theorem arguments_fueled : Fueled uri 6 (fuel + 1) (arguments (fuel + 1)) := by
  intro tokens w h
  rw [arguments]
  have hname : Reads uri (Within uri tokens w) arguments.argumentName fun _ =>
      Within uri tokens w := by
    unfold arguments.argumentName
    refine peek_bind fun kind => anywhere ?_
    split
    · refine get_bind fun c _ => Reads.ite ?_ (pure_le le_rfl)
      exact Reads.advance.bind fun _ => skipBlanks_bind <| Reads.advance.bind fun _ =>
        skipBlanks_bind (pure_le le_rfl)
    · exact pure_le le_rfl
  refine skipBlanks_bind (isAt_ite (take_bind nofun fun v hv => pure_le hv.le) ?_)
  refine hname.bind fun name => (ih.spaceExpression [] (by omega)).bind fun value => ?_
  refine Reads.takeEllipsis.bind fun splat => skipBlanks_bind (advance_bind fun t v ht hv => ?_)
  split
  next hkind =>
    have hpos := ht.shorter (hkind ▸ nofun)
    exact (ih.arguments (by omega)).bind fun _ => pure_le (by omega)
  · exact pure_le (by omega)
  · exact failExpected ht _

theorem embedded_fueled {tokens : List Token} {w : Nat} (h : 8 * w + 1 ≤ fuel + 1) :
    Reads uri (Facing uri tokens w (.mark .interpolation)) (embedded (fuel + 1)) fun _ =>
      Below uri tokens w := by
  rw [embedded]
  refine take_bind nofun fun v hv => skipBlanks_bind ?_
  refine (ih.valueList (by omega)).bind fun value => skipBlanks_bind ?_
  exact expect_bind fun u hu => Reads.pure fun c hc => ⟨u, hu.trans hv, hc⟩

/-- The text in an interpolation, and the text behind it, are shorter than the whole. -/
theorem textParts_fueled {origin : Position} {text : List Char} {P : Cursor → Prop}
    (horigin : origin.uri = uri) (h : 8 * text.length + 1 ≤ fuel + 1) :
    Reads uri P (textParts (fuel + 1) origin text) fun _ => P := by
  rw [textParts]
  split
  · exact Reads.pure fun c hc => hc
  next before behind hbefore =>
    have hopened := Text.length_of_cutAtInterpolation? hbefore
    split
    · exact fun _ _ => ⟨_, _, rfl, horigin⟩
    next inner rest hinner =>
      have hclosed := length_of_cutAtBrace? hinner
      refine (ih.wholeValue horigin (by omega)).bind fun value => ?_
      refine (ih.textParts horigin (by omega)).bind fun parts => ?_
      exact Reads.pure fun c hc => hc

/-- A text of its own is read within its own tokens, and then the cursor is put back. -/
theorem wholeValue_fueled {origin : Position} {text : List Char} {P : Cursor → Prop}
    (horigin : origin.uri = uri) (h : 8 * text.length + 7 ≤ fuel + 1) :
    Reads uri P (wholeValue (fuel + 1) text origin) fun _ => P := by
  rw [wholeValue]
  refine get_bind fun outer houter => lift_bind (Token.read_yields _ horigin) fun own hown => ?_
  rw [String.length_ofList] at hown
  refine set_bind (within_ofTokens origin hown.1 hown.2) (skipBlanks_bind ?_)
  refine (ih.valueList (by omega)).bind fun value => skipBlanks_bind (peek_bind fun kind => ?_)
  split
  · exact set_bind houter (Reads.pure fun c hc => hc)
  · exact anywhere (Reads.fail _)

end

/-- **Values are read as long as the fuel suffices**, and they are read to the end. -/
theorem values_fueled (uri : String) (fuel : Nat) : ValuesFueled uri fuel := by
  induction fuel with
  | zero =>
      -- nothing is promised without fuel
      constructor <;> intros <;> first | exact fueled_zero (by decide) _ | omega
  | succ fuel ih =>
      exact ⟨valueList_fueled ih, moreItems_fueled ih, spaceExpression_fueled ih,
        expressionTokens_fueled ih, primary_fueled ih, wordOrCall_fueled ih,
        interpolatedWord_fueled ih, interpolated_fueled ih, arguments_fueled ih, embedded_fueled ih,
        textParts_fueled ih, wholeValue_fueled ih⟩

/-! ## Text with expressions -/

section
variable {uri : String} {stop : Token.Kind → Bool} {substitute : Bool} {fuel : Nat}

/-- Text and expressions take turns, and each of them is at least one token. -/
theorem piecesUntil_fueled (depth : Nat) : Fueled uri 2 fuel (piecesUntil stop substitute fuel depth) := by
  induction fuel generalizing depth with
  | zero => exact fueled_zero (by decide) _
  | succ fuel ih =>
      intro tokens w h
      rw [piecesUntil]
      have hvalues := values_fueled uri fuel
      -- what follows a token is read with what is left
      have hrest : ∀ {P : Interpolation → Interpolation} {depth}, ∀ v < w,
          Reads uri (Within uri tokens v)
            (do return P (← piecesUntil stop substitute fuel depth)) fun _ => Within uri tokens w :=
        fun v hv => (ih _ (by omega)).bind fun _ => pure_le hv.le
      refine token_bind fun t ht hlength => Reads.ite (anywhere (pure_le le_rfl)) ?_
      have htext : ∀ {text : String} {P : Cursor → Prop}, t.kind.embeddedText = text →
          t.kind ≠ .finish → Reads uri P (textParts fuel t.position text.toList) fun _ => P := by
        intro text P heq hne
        have hshorter := ht.shorter hne
        rw [heq, ← String.length_toList] at hshorter
        exact hvalues.textParts ht.position (by omega)
      split
      · exact anywhere (pure_le le_rfl)
      next hkind =>
        rw [hkind]
        exact (hvalues.embedded (by omega)).bind fun inner => below (hrest (P := fun ps => _ :: ps))
      next text quote hkind =>
        refine (htext (by rw [hkind]; rfl) (by rw [hkind]; nofun)).bind fun parts => ?_
        rw [hkind]
        exact take_bind nofun (hrest (P := fun ps => _ ++ _ :: ps))
      next name argument hkind =>
        refine (htext (by rw [hkind]; rfl) (by rw [hkind]; nofun)).bind fun parts => ?_
        rw [hkind]
        exact take_bind nofun (hrest (P := fun ps => _ ++ _ :: ps))
      next hkind =>
        rw [hkind]
        exact take_bind nofun (hrest (P := fun ps => _ :: ps))
      next hkind =>
        rw [hkind]
        exact take_bind nofun fun v hv => (ih _ (by omega)).le hv.le
      next hfinish _ _ _ _ _ => exact take_bind hfinish (hrest (P := fun ps => _ :: ps))

theorem interpolationUntil_fueled : Fueled uri 2 fuel (interpolationUntil fuel stop substitute) :=
  fun h => (piecesUntil_fueled 0 h).bind fun _ => pure_le le_rfl

end

end Grammar

end Scss
