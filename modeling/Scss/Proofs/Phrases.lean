import Scss.Proofs.Rows

/-!
# Values that are read back

A value made of words, strings and lists is written as a comma list of rows, the pieces of which are
parted by blanks: where a list stands in a list of its own kind the inner one does not show, and a comma
list in another one is a piece in parentheses. So the value that is read back need not be the one that
was written, but it is written in the same way.
-/

namespace Scss

open Compile Evaluation Grammar Text Token

/-! ## Comma lists -/

/-- Rows with commas between them. -/
structure Rows where
  first : Row
  others : List Row

namespace Rows

/-- The text behind the first row. -/
def laterText (others : List Row) : List Char := others.flatMap fun r => ',' :: ' ' :: r.text

def laterLexemes (others : List Row) : List Lexeme :=
  others.flatMap fun r => Lexeme.mark .comma :: Lexeme.blank :: r.lexemes

def text (rs : Rows) : List Char := rs.first.text ++ laterText rs.others

def lexemes (rs : Rows) : List Lexeme := rs.first.lexemes ++ laterLexemes rs.others

def source (rs : Rows) : Value :=
  if rs.others.isEmpty then rs.first.source
  else .list ((rs.first :: rs.others).map Row.source) .comma

def settled (rs : Rows) : Value :=
  if rs.others.isEmpty then rs.first.settled
  else .list ((rs.first :: rs.others).map Row.settled) .comma

/-! ### Tokens -/

theorem endsValue_laterText (others : List Row) {behind : List Char} (h : EndsValue behind) :
    EndsValue (laterText others ++ behind) := by
  cases others with
  | nil => exact h
  | cons r others =>
      intro d hd
      exact Or.inr (Or.inl (Option.some.inj hd).symm)

/-- The further rows, each behind a comma and a space. -/
theorem laterText_lexes (others : List Row) {behind : List Char} {ls : List Lexeme}
    (hbehind : EndsValue behind) (hls : ∀ s, Lexes s behind ls) :
    ∀ s, Lexes s (laterText others ++ behind) (laterLexemes others ++ ls) := by
  induction others with
  | nil => exact hls
  | cons r others ih =>
      intro s
      have hrow := r.lexes (endsValue_laterText others hbehind) ih
      have hspace : ∀ s, Lexes s (' ' :: (r.text ++ (laterText others ++ behind))) _ := fun s =>
        Lexes.space (r.isTrimmed.head_append _) (hrow true)
      have hcomma : Lexes s (',' :: ' ' :: (r.text ++ (laterText others ++ behind))) _ :=
        Lexes.mark (m := .comma) rfl rfl hspace
      simpa [laterText, laterLexemes] using hcomma

/-- A comma list in front of what ends a value has the lexemes of its rows with commas between them. -/
theorem lexes (rs : Rows) {behind : List Char} {ls : List Lexeme} (hbehind : EndsValue behind)
    (hls : ∀ s, Lexes s behind ls) : ∀ s, Lexes s (rs.text ++ behind) (rs.lexemes ++ ls) := by
  rw [text, lexemes, List.append_assoc, List.append_assoc]
  exact rs.first.lexes (endsValue_laterText rs.others hbehind) (laterText_lexes rs.others hbehind hls)

/-- A comma list opens no bracket that it leaves open. -/
theorem closed (rs : Rows) (brackets : Nat) (ls : List Lexeme) :
    opens brackets (rs.lexemes ++ ls) = opens brackets ls := by
  have hlater : ∀ others : List Row,
      opens brackets (laterLexemes others ++ ls) = opens brackets ls := by
    intro others
    induction others with
    | nil => rfl
    | cons r others ih =>
        show opens brackets (r.lexemes ++ laterLexemes others ++ ls) = _
        rw [List.append_assoc, r.closed, ih]
  rw [lexemes, List.append_assoc, rs.first.closed, hlater]

/-! ### Reading -/

section
variable {gap ls : List Lexeme} {l : Lexeme} (hgap : Row.IsGap gap) (hl : l.kind.isBlank = false)
  (hends : endsExpression [] l.kind = true)
include hgap hl hends

/-- What is left when a row has been read that others follow. -/
def afterRow (others : List Row) (gap ls : List Lexeme) (l : Lexeme) : List Lexeme :=
  if others.isEmpty then l :: ls else laterLexemes others ++ (gap ++ l :: ls)

omit hgap hends in
/-- No blank stands behind a row that has been read. -/
theorem takes_afterRow {α : Type} (others : List Row) {f : PUnit → Parser α} {Q : α → Prop}
    {behind : List Lexeme} (h : Takes (afterRow others gap ls l) (f ⟨⟩) Q behind) :
    Takes (afterRow others gap ls l) (discard Parser.skipBlanks >>= f) Q behind := by
  cases others with
  | nil => exact Takes.skipBlanks_bind hl h
  | cons r others => exact Takes.skipBlanks_bind (l := Lexeme.mark .comma) rfl h

/-- A row is read up to the comma behind it, or up to where the list ends. -/
theorem takes_row (r : Row) (others : List Row) {fuel : Nat}
    (hfuel : 8 * (r.lexemes ++ (laterLexemes others ++ (gap ++ l :: ls))).length + 5 ≤ fuel) :
    Takes (r.lexemes ++ (laterLexemes others ++ (gap ++ l :: ls))) (spaceExpression fuel [])
      (· = r.source) (afterRow others gap ls l) := by
  cases others with
  | nil => exact r.takes hgap hl hends hfuel
  | cons r' others => exact r.takes (Or.inl rfl) rfl rfl hfuel

/-- The further rows are taken one after another, each with its comma. -/
theorem takes_moreItems (hcomma : l.kind ≠ .mark .comma) (others : List Row) {fuel : Nat}
    (hfuel : 8 * (laterLexemes others ++ (gap ++ l :: ls)).length + 1 ≤ fuel) :
    Takes (afterRow others gap ls l) (moreItems fuel) (· = others.map Row.source) (l :: ls) := by
  induction others generalizing fuel with
  -- the induction is on the rows that are left, and each takes its part of the fuel
  | nil =>
      obtain ⟨fuel, rfl⟩ : ∃ f, fuel = f + 1 := ⟨fuel - 1, by omega⟩
      rw [moreItems]
      exact Takes.isNotAt_bind hcomma (Takes.pure rfl)
  | cons r others ih =>
      obtain ⟨fuel, rfl⟩ : ∃ f, fuel = f + 1 := ⟨fuel - 1, by omega⟩
      have hlength : 8 * (r.lexemes ++ (laterLexemes others ++ (gap ++ l :: ls))).length + 16 ≤ fuel := by
        simp only [laterLexemes, List.flatMap_cons, List.length_append, List.length_cons] at hfuel ⊢
        omega
      have hrest : 8 * (laterLexemes others ++ (gap ++ l :: ls)).length + 1 ≤ fuel := by
        rw [List.length_append] at hlength
        omega
      -- behind the row the reader is where it was, one row further
      have hfollow : Takes (afterRow others gap ls l) (do
          discard Parser.skipBlanks
          return r.source :: (← moreItems fuel)) (· = (r :: others).map Row.source) (l :: ls) := by
        refine takes_afterRow hl others ((ih hrest).bind fun items hitems => Takes.pure ?_)
        rw [hitems]
        rfl
      have hitem : Takes (r.lexemes ++ (laterLexemes others ++ (gap ++ l :: ls))) (do
          let item ← spaceExpression fuel []
          discard Parser.skipBlanks
          return item :: (← moreItems fuel)) (· = (r :: others).map Row.source) (l :: ls) := by
        refine (takes_row hgap hl hends r others (by omega)).bind fun item hitem => ?_
        subst hitem
        exact hfollow
      obtain ⟨k, later, hlexemes, hbegins⟩ := r.begins
      have hstart : afterRow (r :: others) gap ls l = Lexeme.mark .comma :: Lexeme.blank ::
          (r.lexemes ++ (laterLexemes others ++ (gap ++ l :: ls))) := by
        simp [afterRow, laterLexemes]
      rw [moreItems, hstart]
      refine Takes.isAt_bind (Takes.over_bind (mark_ne_finish .comma) (List.cons_ne_nil _ _) ?_)
      rw [hlexemes] at hitem ⊢
      refine Takes.skipBlank_bind hbegins.notBlank (Takes.peek_bind ?_)
      rw [if_neg (by simp [hbegins.goesOn])]
      exact hitem

/-- **A comma list is read as its source**, up to what ends the expression. -/
theorem takes (rs : Rows) (hcomma : l.kind ≠ .mark .comma) {fuel : Nat}
    (hfuel : 8 * (rs.lexemes ++ (gap ++ l :: ls)).length + 6 ≤ fuel) :
    Takes (rs.lexemes ++ (gap ++ l :: ls)) (valueList fuel) (· = rs.source) (l :: ls) := by
  obtain ⟨fuel, rfl⟩ : ∃ f, fuel = f + 1 := ⟨fuel - 1, by omega⟩
  rw [lexemes, List.append_assoc] at hfuel ⊢
  rw [valueList]
  refine (takes_row hgap hl hends rs.first rs.others (by omega)).bind fun first hfirst => ?_
  subst hfirst
  refine takes_afterRow hl rs.others ?_
  rw [source]
  cases hothers : rs.others with
  | nil => exact Takes.isNotAt_bind hcomma (Takes.pure rfl)
  | cons r others =>
      rw [hothers, List.length_append] at hfuel
      have hitems : Takes (afterRow (r :: others) gap ls l) (moreItems fuel) _ (l :: ls) :=
        takes_moreItems hgap hl hends hcomma (r :: others) (by omega)
      refine Takes.isAt_bind (hitems.bind fun items hitems => Takes.pure ?_)
      rw [hitems]
      rfl

end

theorem begins (rs : Rows) : ∃ l ls, rs.lexemes = l :: ls ∧ BeginsOperand l.kind := by
  obtain ⟨l, ls, hlexemes, hbegins⟩ := rs.first.begins
  exact ⟨l, ls ++ laterLexemes rs.others, by rw [lexemes, hlexemes]; rfl, hbegins⟩

/-! ### Evaluating and writing -/

theorem suspendItems_settles (call : Caller) (position : Position) (arithmetic : Bool)
    (rows : List Row) :
    Settles ((suspendItems call position arithmetic (rows.map Row.source)).mapM Suspended.run)
      (rows.map Row.settled) := by
  refine settles_mapM ?_
  induction rows with
  | nil => exact .nil
  | cons r rows ih => exact .cons (r.settles call position arithmetic) ih

/-- **A comma list evaluates to itself**, in every context and without changing it. -/
theorem settles (rs : Rows) (call : Caller) (position : Position) (arithmetic : Bool) :
    Settles (evaluate call position arithmetic rs.source) rs.settled := by
  rw [source, settled]
  split
  · exact rs.first.settles call position arithmetic
  · rw [evaluate]
    exact (suspendItems_settles call position arithmetic _).bind (settles_pure _)

theorem isTrimmed (rs : Rows) : IsTrimmed rs.text := by
  rw [text]
  rcases List.eq_nil_or_concat rs.others with hnil | ⟨init, r, hothers⟩
  · rw [hnil, laterText, List.flatMap_nil, List.append_nil]
    exact rs.first.isTrimmed
  · have hlater : laterText rs.others = (laterText init ++ [',', ' ']) ++ r.text := by
      rw [hothers, laterText, List.concat_eq_append, List.flatMap_append]
      simp [laterText]
    rw [hlater]
    exact rs.first.isTrimmed.append _ r.isTrimmed

/-- Rows are written one after another, each but the first behind a comma. -/
theorem itemsText_rows (joined : Bool) (r : Row) (rest : List Value) :
    itemsText .comma joined (r.settled :: rest) =
      (if joined then ", " else "") ++ String.ofList r.text ++ itemsText .comma true rest := by
  rw [itemsText, if_neg (by simp [r.not_null]), r.text_settled]
  simp [ListSeparator.joint]

theorem itemsText_later (others : List Row) :
    itemsText .comma true (others.map Row.settled) = String.ofList (laterText others) := by
  induction others with
  | nil => rfl
  | cons r others ih =>
      rw [List.map_cons, itemsText_rows, ih, ← String.toList_inj]
      simp [laterText]

/-- **Rows are evaluated to a value that is written like the rows.** -/
theorem text_settled (rs : Rows) : rs.settled.text = String.ofList rs.text := by
  rw [settled]
  split
  next hempty =>
    have hnil : rs.others = [] := by simpa using hempty
    rw [rs.first.text_settled, text, hnil, laterText, List.flatMap_nil, List.append_nil]
  next =>
    rw [Value.text, List.map_cons, itemsText_rows, itemsText_later, ← String.toList_inj]
    simp [text]

end Rows

/-! ## Lists in parentheses -/

/-- A comma list as a piece of another list. -/
def Piece.group (rs : Rows) (hothers : rs.others ≠ []) : Piece where
  text := '(' :: (rs.text ++ [')'])
  lexemes := Lexeme.mark .openParen :: (rs.lexemes ++ [Lexeme.mark .closeParen])
  source := .paren rs.source
  settled := rs.settled
  trimmed := by
    have hopen : IsTrimmed ['('] := .singleton (by decide)
    exact hopen.append rs.text (.singleton (by decide))
  begins := ⟨_, _, rfl, rfl, rfl, rfl⟩
  lexes behind ls hbehind hls s := by
    have hclose : ∀ s, Lexes s (')' :: behind) (Lexeme.mark .closeParen :: ls) := fun s =>
      Lexes.mark (m := .closeParen) rfl rfl hls
    have hrows := rs.lexes (fun d hd => by simp [← Option.some.inj hd]) hclose
    have hopen : Lexes s ('(' :: (rs.text ++ ')' :: behind)) _ :=
      Lexes.mark (m := .openParen) rfl rfl hrows
    simpa using hopen
  closed brackets ls := by
    show opens (brackets + 1) (rs.lexemes ++ [Lexeme.mark .closeParen] ++ ls) = _
    rw [List.append_assoc, rs.closed]
    rfl
  takes fuel back hfuel hback := by
    obtain ⟨fuel, rfl⟩ : ∃ f, fuel = f + 1 := ⟨fuel - 1, by omega⟩
    have hne : back ≠ [] := by
      rintro rfl
      exact hback
    have hinner : Takes (rs.lexemes ++ ([] ++ Lexeme.mark .closeParen :: back)) (do
        let inner ← valueList fuel
        discard Parser.skipBlanks
        Parser.expect .closeParen "')'"
        return Value.paren inner) (· = .paren rs.source) back := by
      have hcomma : (Lexeme.mark .closeParen).kind ≠ .mark .comma := nofun
      refine (rs.takes (Or.inl rfl) rfl rfl hcomma ?_).bind fun inner hinner => ?_
      · simp only [List.length_append, List.length_cons, List.length_nil] at hfuel ⊢
        omega
      · subst hinner
        refine Takes.skipBlanks_bind rfl (Takes.expect_bind hne (Takes.pure rfl))
    have hlexemes : rs.lexemes ++ [Lexeme.mark .closeParen] ++ back =
        rs.lexemes ++ ([] ++ Lexeme.mark .closeParen :: back) := by simp
    obtain ⟨k, later, hbegin, hbegins⟩ := rs.begins
    rw [primary]
    refine Takes.isNotAt_bind nofun (Takes.advance_bind nofun (by simp) fun t ht => ?_)
    rw [kind_of_lexeme ht]
    show Takes (rs.lexemes ++ [Lexeme.mark .closeParen] ++ back) _ _ _
    rw [hlexemes]
    rw [hbegin] at hinner ⊢
    refine Takes.skipBlanks_bind hbegins.notBlank (Takes.isNotAt_bind ?_ hinner)
    intro hparen
    have hgoes := hbegins.goesOn
    rw [hparen] at hgoes
    cases hgoes
  settles call position arithmetic := by
    rw [evaluate]
    exact rs.settles call position true
  not_null := by
    rw [Rows.settled, if_neg (by simpa using hothers)]
    rfl
  written := by
    have hcomma : rs.settled.isCommaList = true := by
      obtain ⟨r, others, hcons⟩ := List.exists_cons_of_ne_nil hothers
      rw [Rows.settled, hcons]
      rfl
    rw [if_pos hcomma, rs.text_settled, ← String.toList_inj]
    simp

/-! ## Values made of words, strings and lists -/

section

variable {α β : Type} {R : α → β → Prop} {xs : List α} {ys : List β}

theorem exists_forall₂ (h : ∀ x ∈ xs, ∃ y, R x y) : ∃ ys, List.Forall₂ R xs ys := by
  induction xs with
  | nil => exact ⟨[], .nil⟩
  | cons x xs ih =>
      obtain ⟨⟨y, hy⟩, hxs⟩ := List.forall_mem_cons.mp h
      obtain ⟨ys, hys⟩ := ih hxs
      exact ⟨y :: ys, .cons hy hys⟩

theorem ne_nil_of_forall₂ (h : List.Forall₂ R xs ys) (hne : xs ≠ []) : ys ≠ [] := by
  rintro rfl
  exact hne (List.forall₂_nil_right_iff.mp h)

end

namespace Value

open Piece in
/-- A word, a string, or a list of at least two items made of these. -/
inductive IsPhrase : Value → Prop where
  | word {text : String} (h : IsIdentifier text) : IsPhrase (.word text)
  | quoted {text : String} {quote : Char} (hquote : quote = '"' ∨ quote = '\'')
      (h : IsPlainString text) : IsPhrase (.quoted text quote)
  | list {items : List Value} {separator : ListSeparator} (hlength : 2 ≤ items.length)
      (h : ∀ v ∈ items, IsPhrase v) : IsPhrase (.list items separator)

/-- The value is written like the rows. -/
structure WrittenAs (v : Value) (rs : Rows) : Prop where
  text : v.text = String.ofList rs.text
  notNull : v.isNull = false
  comma : v.isCommaList = !rs.others.isEmpty

variable {v : Value} {rs : Rows} {items : List Value} {rss : List Rows}

/-- An item behind another one is written behind a separator. -/
theorem itemsText_joined (hnull : v.isNull = false) (separator : ListSeparator) (rest : List Value) :
    itemsText separator true (v :: rest) =
      separator.joint ++ itemsText separator false (v :: rest) := by
  simp [itemsText, hnull, String.append_assoc]

/-! ### In comma lists -/

def rowsOf (rss : List Rows) : List Row := rss.flatMap fun rs => rs.first :: rs.others

/-- Items that are written as comma lists lose their parentheses in a comma list. -/
theorem itemsText_rowsOf (h : List.Forall₂ WrittenAs items rss) :
    itemsText .comma true items = String.ofList (Rows.laterText (rowsOf rss)) := by
  induction h with
  | nil => rfl
  | @cons v rs items rss hv _ ih =>
      rw [itemsText, if_neg (by simp [hv.notNull]), hv.text, ih, ← String.toList_inj]
      simp [rowsOf, Rows.laterText, Rows.text, ListSeparator.joint]

/-- In a comma list the comma lists do not show. -/
theorem writtenAs_commaList (h : List.Forall₂ WrittenAs items rss) (hlength : 2 ≤ items.length) :
    ∃ rs, WrittenAs (.list items .comma) rs := by
  have hwritten := itemsText_rowsOf h
  cases h with
  | nil => exact absurd hlength (by simp)
  | @cons v rs items rss hv h =>
      rw [itemsText_joined hv.notNull] at hwritten
      refine ⟨⟨rs.first, rs.others ++ rowsOf rss⟩, ?_, rfl, ?_⟩
      · rw [Value.text, ← String.toList_inj]
        have hchars := congrArg String.toList hwritten
        simpa [rowsOf, Rows.laterText, Rows.text, ListSeparator.joint] using hchars
      · have hlong : Value.isCommaList (.list (v :: items) .comma) = true := decide_eq_true hlength
        have hmore : rowsOf rss ≠ [] := by
          cases h with
          | nil => exact absurd hlength (by simp)
          | cons => exact List.cons_ne_nil _ _
        simp [hlong, hmore]

/-! ### In other lists -/

/-- The pieces that rows become in a list that is no comma list. -/
def pieces (rs : Rows) : List Piece :=
  if h : rs.others = [] then rs.first.first :: rs.first.others else [Piece.group rs h]

def piecesOf (rss : List Rows) : List Piece := rss.flatMap pieces

theorem pieces_ne_nil (rs : Rows) : pieces rs ≠ [] := by
  rw [pieces]
  split
  · exact List.cons_ne_nil _ _
  · exact List.cons_ne_nil _ _

/-- In a list by space or slash a comma list is one piece, for which it is put in parentheses. -/
theorem WrittenAs.laterText_pieces (h : v.WrittenAs rs) :
    " " ++ (if v.isCommaList then "(" ++ v.text ++ ")" else v.text) =
      String.ofList (Row.laterText (pieces rs)) := by
  rw [h.comma, h.text, pieces, ← String.toList_inj]
  by_cases hothers : rs.others = []
  · simp [hothers, Row.laterText, Rows.text, Rows.laterText, Row.text]
  · simp [hothers, Row.laterText, Piece.group]

theorem itemsText_piecesOf {separator : ListSeparator} (hseparator : separator ≠ .comma)
    (h : List.Forall₂ WrittenAs items rss) :
    itemsText separator true items = String.ofList (Row.laterText (piecesOf rss)) := by
  have hjoint : separator.joint = " " := by
    cases separator with
    | comma => exact absurd rfl hseparator
    | space | undecided => rfl
  have hcomma : (separator != .comma) = true := by simpa using hseparator
  induction h with
  | nil => rfl
  | @cons v rs items rss hv _ ih =>
      rw [itemsText, if_neg (by simp [hv.notNull])]
      dsimp only
      rw [hcomma, Bool.and_true, if_pos rfl, hjoint, hv.laterText_pieces, ih, ← String.ofList_append]
      simp [Row.laterText, piecesOf]

/-- In other lists the comma lists are pieces in parentheses, and the lists without commas do not show. -/
theorem writtenAs_list {separator : ListSeparator} (hseparator : separator ≠ .comma)
    (h : List.Forall₂ WrittenAs items rss) (hlength : 2 ≤ items.length) :
    ∃ rs, WrittenAs (.list items separator) rs := by
  have hwritten := itemsText_piecesOf hseparator h
  have hjoint : separator.joint = " " := by
    cases separator with
    | comma => exact absurd rfl hseparator
    | space | undecided => rfl
  -- a comma list is one piece in its parentheses; any other has as many as it has items
  have hlonger : ∃ p q others, piecesOf rss = p :: q :: others := by
    match h, hlength with
    | .cons (b := rs) _ (.cons (b := rs') _ _), _ => 
      obtain ⟨p, ps, hp⟩ := List.exists_cons_of_ne_nil (pieces_ne_nil rs)
      obtain ⟨q, qs, hq⟩ := List.exists_cons_of_ne_nil (pieces_ne_nil rs')
      cases ps with
      | nil => exact ⟨p, q, _, by simp [piecesOf, hp, hq]; rfl⟩
      | cons p' ps => exact ⟨p, p', _, by simp [piecesOf, hp]; rfl⟩
  obtain ⟨p, q, others, hpieces⟩ := hlonger
  refine ⟨⟨⟨p, q :: others, fun hnil => absurd hnil (List.cons_ne_nil _ _)⟩, []⟩, ?_, rfl, ?_⟩
  · cases items with
    | nil => exact absurd hlength (by simp)
    | cons v items =>
        have hnull : v.isNull = false := by
          cases h with
          | cons hv _ => exact hv.notNull
        rw [itemsText_joined hnull, hjoint, hpieces] at hwritten
        rw [Value.text, ← String.toList_inj]
        have hchars := congrArg String.toList hwritten
        simpa [Row.laterText, Rows.text, Rows.laterText, Row.text] using hchars
  · cases separator with
    | comma => exact absurd rfl hseparator
    | space | undecided => rfl

/-- **What is made of words, strings and lists is written like rows.** -/
theorem IsPhrase.exists_rows (h : v.IsPhrase) : ∃ rs, v.WrittenAs rs := by
  induction h with
  | @word text h =>
      exact ⟨⟨⟨Piece.word text h, [], fun _ => rfl⟩, []⟩, by
        simp [Value.text, Rows.text, Rows.laterText, Row.text, Row.laterText, Piece.word], rfl, rfl⟩
  | @quoted text quote hquote h =>
      refine ⟨⟨⟨Piece.quoted text quote hquote h, [], fun _ => rfl⟩, []⟩, ?_, rfl, rfl⟩
      rw [← String.toList_inj]
      simp [Value.text, Rows.text, Rows.laterText, Row.text, Row.laterText, Piece.quoted]
  | @list items separator hlength _ ih =>
      obtain ⟨rss, hrss⟩ := exists_forall₂ ih
      by_cases hseparator : separator = .comma
      · exact hseparator ▸ writtenAs_commaList hrss hlength
      · exact writtenAs_list hseparator hrss hlength

end Value

end Scss
