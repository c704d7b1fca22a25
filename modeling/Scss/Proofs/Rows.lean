import Scss.Evaluation
import Scss.Proofs.Outcome
import Scss.Proofs.Taking

/-!
# Pieces, and rows of them

A piece is a part of a value that stands between blanks, commas and parentheses. What has to be known of
it, for reading back and evaluating what it stands in, is kept with it (`Piece`). Words and strings are
pieces, and so are lists in parentheses later on.

Pieces with blanks between them make a row. It is lexed, read and evaluated piece by piece, and its value
is written as the row is.
-/

namespace Scss

open Compile Evaluation Grammar Text Token

/-- The computation gives a value wherever it runs, and changes nothing. -/
def Compile.Settles {α : Type} (m : Compile α) (a : α) : Prop := ∀ c, m.outcome c = (.ok a, c)

/-- What can stand behind a part of a value. -/
def EndsValue (behind : List Char) : Prop :=
  ∀ d ∈ behind.head?, d = ' ' ∨ d = ',' ∨ d = ')' ∨ d = ';'

/-- What can follow an operand: a blank, or what ends the expression. -/
def EndsOperand : List Lexeme → Prop
  | [] => False
  | l :: _ => l.kind.isBlank = true ∨ endsExpression [] l.kind = true

/-- Whether an operand can begin with a token. -/
structure BeginsOperand (kind : Kind) : Prop where
  notBlank : kind.isBlank = false
  goesOn : endsExpression [] kind = false
  noOperator : operatorOf? kind = none

/-- A part of a value that stands between blanks, commas and parentheses: as it is written, as it is read,
and as it is evaluated. -/
structure Piece where
  text : List Char
  lexemes : List Lexeme
  source : Value
  settled : Value
  trimmed : IsTrimmed text
  begins : ∃ l ls, lexemes = l :: ls ∧ BeginsOperand l.kind
  lexes : ∀ behind ls, EndsValue behind → (∀ s, Lexes s behind ls) →
    ∀ s, Lexes s (text ++ behind) (lexemes ++ ls)
  /-- No block is opened, and no statement ended, within the piece. -/
  closed : ∀ brackets ls, opens brackets (lexemes ++ ls) = opens brackets ls
  takes : ∀ fuel back, 8 * (lexemes ++ back).length + 3 ≤ fuel → EndsOperand back →
    Takes (lexemes ++ back) (primary fuel) (· = source) back
  settles : ∀ call position arithmetic, Settles (evaluate call position arithmetic source) settled
  not_null : settled.isNull = false
  /-- In a list that is no comma list, a comma list has parentheses. -/
  written : (if settled.isCommaList then "(" ++ settled.text ++ ")" else settled.text) =
    String.ofList text

namespace Piece

/-! ## Words and strings -/

/-- A word that is no operator and not `null`. -/
structure IsIdentifier (text : String) : Prop where
  front : text.toList.head?.any isNameStart = true
  chars : ∀ c ∈ text.toList, isWordChar c = true
  notReserved : text ∉ ["and", "or", "not", "null"]

instance (text : String) : Decidable (IsIdentifier text) :=
  decidable_of_iff (text.toList.head?.any isNameStart = true ∧
    text.toList.all isWordChar = true ∧ text ∉ ["and", "or", "not", "null"]) (by
      rw [List.all_eq_true]
      exact ⟨fun ⟨h, h', h''⟩ => ⟨h, h', h''⟩, fun ⟨h, h', h''⟩ => ⟨h, h', h''⟩⟩)

theorem IsIdentifier.toList_ne_nil {text : String} (h : IsIdentifier text) : text.toList ≠ [] := by
  intro hnil
  have hfront := h.front
  rw [hnil] at hfront
  cases hfront

theorem IsIdentifier.isNameStart {text : String} (h : IsIdentifier text) :
    ∀ c ∈ text.toList.head?, isNameStart c = true := by
  intro c hc
  have hfront := h.front
  rw [Option.mem_def.mp hc] at hfront
  exact hfront

/-- The words that are operators are no identifiers. -/
theorem IsIdentifier.operatorOf? {text : String} (h : IsIdentifier text) :
    operatorOf? (.word text) = none := by
  have hreserved := h.notReserved
  simp only [List.mem_cons, List.not_mem_nil, or_false, not_or] at hreserved
  unfold Grammar.operatorOf?
  split <;> simp_all

theorem word_ne_mark (text : String) (m : Mark) : (Lexeme.word text).kind ≠ .mark m := by
  rintro ⟨⟩

theorem word_ne_finish (text : String) : (Lexeme.word text).kind ≠ .finish := by
  rintro ⟨⟩

/-- An identifier is read as a word: what follows does not make a call of it. -/
theorem IsIdentifier.takes {text : String} (h : IsIdentifier text) {fuel : Nat} {back : List Lexeme}
    (hfuel : 8 * (Lexeme.word text :: back).length + 3 ≤ fuel) (hback : EndsOperand back) :
    Takes (Lexeme.word text :: back) (primary fuel) (· = .word text) back := by
  cases back with
  | nil => exact hback.elim
  | cons l ls =>
      obtain ⟨fuel, rfl, hless⟩ := exists_fuel hfuel
      have hnot : ∀ {m : Mark}, m = .openParen ∨ m = .interpolation → l.kind ≠ .mark m := by
        rintro m (rfl | rfl) heq
        · rw [EndsOperand, heq] at hback
          exact absurd hback (by decide)
        · rw [EndsOperand, heq] at hback
          exact absurd hback (by decide)
      have hnull : (text == "null") = false := by
        have hreserved := h.notReserved
        simp only [List.mem_cons, List.not_mem_nil, or_false, not_or] at hreserved
        simp [hreserved]
      rw [primary]
      refine Takes.isNotAt_bind (word_ne_mark text _)
        (Takes.advance_bind (word_ne_finish text) (List.cons_ne_nil _ _) fun t ht => ?_)
      rw [kind_of_lexeme ht]
      show Takes _ (wordOrCall fuel text) _ _
      obtain ⟨fuel, rfl⟩ : ∃ f, fuel = f + 1 := ⟨fuel - 1, by omega⟩
      rw [wordOrCall]
      refine Takes.get_bind fun c _ => Takes.isNotAt_bind (hnot (Or.inl rfl)) ?_
      rw [Bool.and_false, if_neg (by decide)]
      refine Takes.isNotAt_bind (hnot (Or.inr rfl)) ?_
      rw [Bool.and_false, if_neg (by decide), hnull]
      exact Takes.pure rfl

/-- Where a value ends a name ends, and no arguments follow. -/
theorem endsName_of_endsValue {behind : List Char} (h : EndsValue behind) :
    ∀ d ∈ behind.head?, EndsName d ∧ d ≠ '(' := by
  intro d hd
  rcases h d hd with rfl | rfl | rfl | rfl <;> exact ⟨⟨by decide, by decide⟩, by decide⟩

def word (text : String) (h : IsIdentifier text) : Piece where
  text := text.toList
  lexemes := [Lexeme.word text]
  source := .word text
  settled := .word text
  trimmed := {
    nonempty := h.toList_ne_nil
    front c hc := isBlank_of_isWordChar (h.chars c (List.mem_of_mem_head? hc))
    back c hc := isBlank_of_isWordChar (h.chars c (List.mem_of_getLast? hc)) }
  begins := by
    refine ⟨_, _, rfl, rfl, ?_, h.operatorOf?⟩
    simp [endsExpression, Lexeme.word]
  lexes behind ls hbehind hls s := by
    have hword : Lexes s (text.toList ++ behind) (Lexeme.word (String.ofList text.toList) :: ls) := by
      refine Lexes.word h.isNameStart ?_ h.toList_ne_nil (endsName_of_endsValue hbehind) (hls false)
      exact fun c hc =>
        ⟨isNameChar_of_isWordChar (h.chars c hc), isBlank_of_isWordChar (h.chars c hc)⟩
    rwa [String.ofList_toList] at hword
  closed _ _ := rfl
  takes _ _ hfuel hback := h.takes hfuel hback
  settles _ _ _ _ := rfl
  not_null := rfl
  written := String.ofList_toList.symm

/-- A string without escapes and expressions. -/
def IsPlainString (text : String) : Prop := ∀ c ∈ text.toList, isWordChar c = true ∨ c = ' '

instance (text : String) : Decidable (IsPlainString text) :=
  decidable_of_iff (text.toList.all (fun c => isWordChar c || c == ' ') = true)
    (by simp [IsPlainString])

/-- The text between the quotes may stand in any passage. -/
theorem IsPlainString.chars {text : String} (h : IsPlainString text) :
    ∀ c ∈ text.toList, isPassageChar c = true := by
  intro c hc
  rcases h c hc with hword | rfl
  · simp [isPassageChar, hword]
  · decide

def quoted (text : String) (quote : Char) (hquote : quote = '"' ∨ quote = '\'')
    (h : IsPlainString text) : Piece where
  text := quote :: (text.toList ++ [quote])
  lexemes := [Lexeme.quoted text quote]
  source := .quoted text quote
  settled := .quoted text quote
  trimmed := by
    have hblank : isBlank quote = false := by rcases hquote with rfl | rfl <;> decide
    exact (IsTrimmed.singleton hblank).append text.toList (.singleton hblank)
  begins := ⟨_, _, rfl, rfl, rfl, rfl⟩
  lexes behind ls hbehind hls s := by
    have hescape : quote ≠ '\\' := by rcases hquote with rfl | rfl <;> decide
    have hchars : ∀ c ∈ text.toList, c ≠ quote ∧ c ≠ '\\' ∧ c ≠ '\n' := by
      intro c hc
      have hpassage := h.chars c hc
      refine ⟨ne_of_test hpassage ?_, ne_of_test hpassage (by decide),
        ne_of_test hpassage (by decide)⟩
      rcases hquote with rfl | rfl <;> decide
    rw [List.cons_append, List.append_assoc]
    have hquoted : Lexes s (quote :: (text.toList ++ quote :: behind))
        (Lexeme.quoted (String.ofList text.toList) quote :: ls) :=
      Lexes.quoted hquote hchars (hls false)
    rwa [String.ofList_toList] at hquoted
  closed _ _ := rfl
  takes fuel back hfuel hback := by
    obtain ⟨fuel, rfl, -⟩ := exists_fuel hfuel
    have hne : back ≠ [] := by
      rintro rfl
      exact hback
    rw [primary]
    refine Takes.isNotAt_bind nofun (Takes.advance_bind nofun hne fun t ht => ?_)
    rw [kind_of_lexeme ht]
    have hplain : ¬hasInterpolation text = true := by
      rw [hasInterpolation, no_interpolation h.chars]
      decide
    show Takes _ (if hasInterpolation text then _ else _) _ _
    rw [if_neg hplain]
    exact Takes.pure rfl
  settles _ _ _ _ := rfl
  not_null := rfl
  written := by
    rw [← String.toList_inj]
    simp [Value.isCommaList, Value.text]

end Piece

/-! ## Rows -/

/-- Pieces with blanks between them. -/
structure Row where
  first : Piece
  others : List Piece
  /-- Where there are no others, nothing asks for parentheses. -/
  alone : others = [] → first.settled.isCommaList = false

namespace Row

/-- The text behind the first piece. -/
def laterText (others : List Piece) : List Char := others.flatMap fun p => ' ' :: p.text

def laterLexemes (others : List Piece) : List Lexeme :=
  others.flatMap fun p => Lexeme.blank :: p.lexemes

def laterTokens (others : List Piece) : List (ExprToken Value) :=
  others.flatMap fun p => [.blank, .operand p.source]

def text (r : Row) : List Char := r.first.text ++ laterText r.others

def lexemes (r : Row) : List Lexeme := r.first.lexemes ++ laterLexemes r.others

def source (r : Row) : Value :=
  if r.others.isEmpty then r.first.source
  else .expression (.operand r.first.source :: laterTokens r.others)

def settled (r : Row) : Value :=
  if r.others.isEmpty then r.first.settled
  else .list ((r.first :: r.others).map Piece.settled) .space

/-! ### Tokens -/

/-- Behind a piece stands the space in front of the next one, or what ends the row. -/
theorem endsValue_laterText (others : List Piece) {behind : List Char} (h : EndsValue behind) :
    EndsValue (laterText others ++ behind) := by
  cases others with
  | nil => exact h
  | cons p others =>
      intro d hd
      exact Or.inl (Option.some.inj hd).symm

/-- The further pieces, each behind one space. -/
theorem laterText_lexes (others : List Piece) {behind : List Char} {ls : List Lexeme}
    (hbehind : EndsValue behind) (hls : ∀ s, Lexes s behind ls) :
    ∀ s, Lexes s (laterText others ++ behind) (laterLexemes others ++ ls) := by
  induction others with
  | nil => exact hls
  | cons p others ih =>
      intro s
      have hpiece := p.lexes _ _ (endsValue_laterText others hbehind) ih
      simpa [laterText, laterLexemes] using
        Lexes.space (p.trimmed.head_append _) (hpiece true)

/-- A row in front of what ends a value has the lexemes of its pieces with blanks between them. -/
theorem lexes (r : Row) {behind : List Char} {ls : List Lexeme} (hbehind : EndsValue behind)
    (hls : ∀ s, Lexes s behind ls) : ∀ s, Lexes s (r.text ++ behind) (r.lexemes ++ ls) := by
  rw [text, lexemes, List.append_assoc, List.append_assoc]
  exact r.first.lexes _ _ (endsValue_laterText r.others hbehind) (laterText_lexes r.others hbehind hls)

/-- A row opens no bracket that it leaves open. -/
theorem closed (r : Row) (brackets : Nat) (ls : List Lexeme) :
    opens brackets (r.lexemes ++ ls) = opens brackets ls := by
  have hlater : ∀ others : List Piece,
      opens brackets (laterLexemes others ++ ls) = opens brackets ls := by
    intro others
    induction others with
    | nil => rfl
    | cons p others ih =>
        show opens brackets (p.lexemes ++ laterLexemes others ++ ls) = _
        rw [List.append_assoc, p.closed, ih]
  rw [lexemes, List.append_assoc, r.first.closed, hlater]

/-! ### Reading -/

/-- The first lexeme of a row begins an operand. -/
theorem begins (r : Row) : ∃ l ls, r.lexemes = l :: ls ∧ BeginsOperand l.kind := by
  obtain ⟨l, ls, hlexemes, hbegins⟩ := r.first.begins
  exact ⟨l, ls ++ laterLexemes r.others, by rw [lexemes, hlexemes]; rfl, hbegins⟩

/-- The blanks that may stand between a row and what ends it. -/
def IsGap (gap : List Lexeme) : Prop := gap = [] ∨ gap = [Lexeme.blank]

/-- What is read of the blanks behind a row. -/
def gapTokens (gap : List Lexeme) : List (ExprToken Value) := gap.map fun _ => .blank

variable {gap ls : List Lexeme} {l : Lexeme}

/-- Blanks behind the last operand are taken up, and the expression ends in front of the next
lexeme. -/
theorem takes_gap (hgap : IsGap gap) (hl : l.kind.isBlank = false)
    (hends : endsExpression [] l.kind = true) {fuel : Nat} (hfuel : 0 < fuel) :
    Takes (gap ++ l :: ls) (expressionTokens fuel [] false) (· = gapTokens gap) (l :: ls) := by
  obtain ⟨fuel, rfl⟩ : ∃ f, fuel = f + 1 := ⟨fuel - 1, by omega⟩
  rw [expressionTokens]
  rcases hgap with rfl | rfl
  · refine (Takes.skipBlanks hl).bind fun spaced hspaced => Takes.peek_bind ?_
    rw [if_pos hends, hspaced]
    exact Takes.pure rfl
  · refine (Takes.skipBlank hl).bind fun spaced hspaced => Takes.peek_bind ?_
    rw [if_pos hends, hspaced]
    exact Takes.pure rfl

theorem endsOperand_gap (ls : List Lexeme) (hgap : IsGap gap)
    (hends : endsExpression [] l.kind = true) :
    EndsOperand (gap ++ l :: ls) := by
  rcases hgap with rfl | rfl
  · exact Or.inr hends
  · exact Or.inl rfl

theorem endsOperand_later {back : List Lexeme} (others : List Piece) (hback : EndsOperand back) :
    EndsOperand (laterLexemes others ++ back) := by
  cases others with
  | nil => exact hback
  | cons p others => exact Or.inl rfl

/-- A piece, when the blanks in front of it have been moved over, and then the tokens behind it. -/
theorem takes_piece (p : Piece) (isFirst : Bool) {spaced : Bool} {fuel : Nat} {front back behind : List Lexeme}
    {rest : List (ExprToken Value)}
    (hfront : Takes front Parser.skipBlanks (· = spaced) (p.lexemes ++ back))
    (hback : EndsOperand back) (hfuel : 8 * (p.lexemes ++ back).length + 4 ≤ fuel)
    (h : ∀ f, 8 * back.length + 4 ≤ f → Takes back (expressionTokens f [] false) (· = rest) behind) :
    Takes front (expressionTokens fuel [] isFirst)
      (· = (if spaced && !isFirst then [.blank] else []) ++ .operand p.source :: rest) behind := by
  obtain ⟨fuel, rfl⟩ : ∃ f, fuel = f + 1 := ⟨fuel - 1, by omega⟩
  obtain ⟨l, later, hlexemes, hbegins⟩ := p.begins
  have hless : 8 * back.length + 4 ≤ fuel := by
    rw [hlexemes, List.length_append, List.length_cons] at hfuel
    omega
  rw [expressionTokens]
  refine hfront.bind fun found hfound => ?_
  subst hfound
  have htail : Takes (p.lexemes ++ back) (do
      let operand ← primary fuel
      return (if found && !isFirst then [.blank] else []) ++
        .operand operand :: (← expressionTokens fuel [] false))
      (· = (if found && !isFirst then [.blank] else []) ++ .operand p.source :: rest) behind := by
    refine (p.takes fuel back (by omega) hback).bind fun operand hoperand => ?_
    refine (h fuel hless).bind fun tokens htokens => Takes.pure ?_
    rw [hoperand, htokens]
  rw [hlexemes, List.cons_append] at htail ⊢
  refine Takes.peek_bind ?_
  rw [if_neg (by simp [hbegins.goesOn]), hbegins.noOperator]
  exact htail

/-- The further pieces are taken one after another, each with the blank in front of it. -/
theorem takes_later (others : List Piece) (hgap : IsGap gap) (hl : l.kind.isBlank = false)
    (hends : endsExpression [] l.kind = true) {fuel : Nat}
    (hfuel : 8 * (laterLexemes others ++ (gap ++ l :: ls)).length + 4 ≤ fuel) :
    Takes (laterLexemes others ++ (gap ++ l :: ls)) (expressionTokens fuel [] false)
      (· = laterTokens others ++ gapTokens gap) (l :: ls) := by
  induction others generalizing fuel with
  | nil => exact takes_gap hgap hl hends (by omega)
  | cons p others ih =>
      have hback := endsOperand_later others (endsOperand_gap ls hgap hends)
      obtain ⟨k, later, hlexemes, hbegins⟩ := p.begins
      have hfront : Takes (Lexeme.blank :: (p.lexemes ++ (laterLexemes others ++ (gap ++ l :: ls))))
          Parser.skipBlanks (· = true) (p.lexemes ++ (laterLexemes others ++ (gap ++ l :: ls))) := by
        rw [hlexemes]
        exact Takes.skipBlank hbegins.notBlank
      have hless : 8 * (p.lexemes ++ (laterLexemes others ++ (gap ++ l :: ls))).length + 4 ≤ fuel := by
        simp only [laterLexemes, List.flatMap_cons, List.length_append, List.length_cons] at hfuel ⊢
        omega
      have hpiece := takes_piece p false hfront hback hless fun f hf => ih hf
      simpa [laterLexemes, laterTokens] using hpiece

theorem dropBlanks_tokens {rest gap : List (ExprToken Value)} {v : Value}
    (hgap : ∀ t ∈ gap, t.isBlank = true) :
    ((rest ++ .operand v :: gap).reverse.dropWhile ExprToken.isBlank).reverse =
      rest ++ [.operand v] := by
  have hreverse : ∀ t ∈ gap.reverse, t.isBlank = true := fun t ht => hgap t (List.mem_reverse.mp ht)
  rw [List.reverse_append, List.reverse_cons, List.append_assoc,
    List.dropWhile_append_of_pos hreverse]
  simp [ExprToken.isBlank]

/-- One operand is a value by itself, more of them are an expression. -/
theorem ofTokens_of_drop {tokens rest : List (ExprToken Value)} {v : Value}
    (h : (tokens.reverse.dropWhile ExprToken.isBlank).reverse = .operand v :: rest) :
    Value.ofTokens tokens = if rest.isEmpty then v else .expression (.operand v :: rest) := by
  rw [Value.ofTokens, h]
  cases rest <;> rfl

/-- The tokens of a row make up its value, without the blanks behind them. -/
theorem ofTokens_row (r : Row) (gap : List Lexeme) :
    Value.ofTokens (.operand r.first.source :: (laterTokens r.others ++ gapTokens gap)) = r.source := by
  have hgap : ∀ t ∈ gapTokens gap, t.isBlank = true := by
    intro t ht
    obtain ⟨l, -, rfl⟩ := List.mem_map.mp ht
    rfl
  rcases List.eq_nil_or_concat r.others with hnil | ⟨init, q, hothers⟩
  · rw [source, hnil]
    exact ofTokens_of_drop (@dropBlanks_tokens [] _ r.first.source hgap)
  · have hlater : laterTokens r.others = laterTokens init ++ [.blank, .operand q.source] := by
      rw [hothers, laterTokens, List.concat_eq_append, List.flatMap_append]
      rfl
    have hne : r.others.isEmpty = false := by
      rw [hothers]
      simp
    have hdrop := @dropBlanks_tokens (.operand r.first.source :: (laterTokens init ++ [.blank])) _
      q.source hgap
    rw [source, hne, hlater]
    refine (ofTokens_of_drop ?_).trans (if_neg ?_)
    · simpa using hdrop
    · simp

/-- **A row is read as its source**, up to what ends the expression. -/
theorem takes (r : Row) (hgap : IsGap gap) (hl : l.kind.isBlank = false)
    (hends : endsExpression [] l.kind = true) {fuel : Nat}
    (hfuel : 8 * (r.lexemes ++ (gap ++ l :: ls)).length + 5 ≤ fuel) :
    Takes (r.lexemes ++ (gap ++ l :: ls)) (spaceExpression fuel []) (· = r.source) (l :: ls) := by
  obtain ⟨fuel, rfl⟩ : ∃ f, fuel = f + 1 := ⟨fuel - 1, by omega⟩
  rw [spaceExpression]
  rw [lexemes, List.append_assoc] at hfuel ⊢
  have hback := endsOperand_later r.others (endsOperand_gap ls hgap hends)
  obtain ⟨k, later, hlexemes, hbegins⟩ := r.first.begins
  have hfront : Takes (r.first.lexemes ++ (laterLexemes r.others ++ (gap ++ l :: ls)))
      Parser.skipBlanks (· = false) (r.first.lexemes ++ (laterLexemes r.others ++ (gap ++ l :: ls))) := by
    rw [hlexemes]
    exact Takes.skipBlanks hbegins.notBlank
  have hless : 8 * (r.first.lexemes ++ (laterLexemes r.others ++ (gap ++ l :: ls))).length + 4 ≤ fuel :=
    by omega
  have htokens := takes_piece r.first true hfront hback hless
    fun f hf => takes_later r.others hgap hl hends hf
  refine htokens.bind fun tokens htokens => ?_
  subst htokens
  exact Takes.pure (ofTokens_row r gap)

/-! ### Evaluating -/

/-- The groups of a row: each operand with the blank behind it. -/
def groups {α : Type} (a : α) : List α → List (List (ExprToken α))
  | [] => [[.operand a]]
  | b :: rest => [.operand a, .blank] :: groups b rest

/-- Blanks between operands part them into groups of one. -/
theorem groupsFrom_row {α : Type} (a : α) (others : List α) :
    groupsFrom true false [.operand a] (others.flatMap fun b => [.blank, .operand b]) =
      groups a others := by
  induction others generalizing a with
  | nil => rfl
  | cons b others ih =>
      show [.operand a, .blank] ::
        groupsFrom true false [.operand b] (others.flatMap fun b => [.blank, .operand b]) = _
      rw [ih, groups]

/-- Groups in a row of operands: one for each of them. -/
theorem spaceGroups_row {α : Type} (a : α) (others : List α) :
    spaceGroups (.operand a :: others.flatMap fun b => [.blank, .operand b]) = groups a others := by
  have hall : ∀ (others : List α) (a : α), ∀ g ∈ groups a others,
      (g.any fun t => !t.isBlank) = true := by
    intro others
    induction others with
    | nil => exact fun a => List.forall_mem_singleton.mpr rfl
    | cons b others ih => exact fun a => List.forall_mem_cons.mpr ⟨rfl, ih b⟩
  show (groupsFrom true false [.operand a] _).filter _ = _
  rw [groupsFrom_row, List.filter_eq_self.mpr (hall others a)]

end Row

namespace Compile

theorem Settles.bind {α β : Type} {m : Compile α} {f : α → Compile β} {a : α} {b : β}
    (hm : Settles m a) (hf : Settles (f a) b) : Settles (m >>= f) b := fun c =>
  (outcome_bind_ok (hm c)).trans (hf c)

theorem settles_pure {α : Type} (a : α) : Settles (pure a) a := fun _ => rfl

theorem settles_mapM {α β : Type} {f : α → Compile β} {xs : List α} {ys : List β}
    (h : List.Forall₂ (fun x y => Settles (f x) y) xs ys) : Settles (xs.mapM f) ys := by
  induction h with
  | nil => exact settles_pure []
  | cons hx _ ih =>
      rw [List.mapM_cons]
      exact hx.bind (ih.bind (settles_pure _))

end Compile

namespace Row

/-- One operand is all there is to a group, with or without a blank behind it. -/
theorem runArithmetic_settles {a : Suspended} {v : Value} (h : Settles a.run v) (position : Position)
    {group : List (ExprToken Suspended)} (hgroup : group.filter (fun t => !t.isBlank) = [.operand a]) :
    Settles (runArithmetic position group) v := by
  rw [runArithmetic, hgroup]
  exact Settles.bind h (settles_pure v)

/-- If each operand settles, the groups of one settle to the list of these values. -/
theorem runGroups_settles {run : List (ExprToken Suspended) → Compile Value}
    (hrun : ∀ {a v}, Settles a.run v →
      Settles (run [.operand a]) v ∧ Settles (run [.operand a, .blank]) v)
    {a : Suspended} {others : List Suspended} {v : Value} {values : List Value} (ha : Settles a.run v)
    (hothers : List.Forall₂ (fun b w => Settles b.run w) others values) :
    Settles ((groups a others).mapM run) (v :: values) := by
  refine settles_mapM ?_
  induction hothers generalizing a v with
  | nil => exact .cons (hrun ha).1 .nil
  | cons hb _ ih => exact .cons (hrun ha).2 (ih hb)

/-- Two operands or more with blanks between them are a list by space. -/
theorem runExpression_settles {a b : Suspended} {others : List Suspended} {v w : Value}
    {values : List Value} (ha : Settles a.run v) (hb : Settles b.run w)
    (hothers : List.Forall₂ (fun b w => Settles b.run w) others values) (position : Position)
    (arithmetic : Bool) :
    Settles (runExpression position arithmetic
      (.operand a :: (b :: others).flatMap fun b => [.blank, .operand b]))
      (.list (v :: w :: values) .space) := by
  unfold runExpression
  rw [spaceGroups_row]
  refine Settles.bind (runGroups_settles ?_ ha (.cons hb hothers)) (settles_pure _)
  intro a v ha
  cases arithmetic with
  | true =>
      rw [if_pos rfl]
      exact ⟨runArithmetic_settles ha position rfl, runArithmetic_settles ha position rfl⟩
  | false =>
      constructor
      · exact Settles.bind (settles_mapM (.cons (ha.bind (settles_pure _)) .nil)) (settles_pure _)
      · exact Settles.bind
          (settles_mapM (.cons (ha.bind (settles_pure _)) (.cons (settles_pure _) .nil)))
          (settles_pure _)

/-- A piece that is still to be evaluated. -/
def suspended (call : Caller) (position : Position) (arithmetic : Bool) (p : Piece) : Suspended :=
  ⟨p.source, evaluate call position arithmetic p.source⟩

/-- Suspending goes through the tokens one by one. -/
theorem suspendTokens_later (call : Caller) (position : Position) (arithmetic : Bool)
    (others : List Piece) : suspendTokens call position arithmetic (laterTokens others) =
      (others.map (suspended call position arithmetic)).flatMap fun b => [.blank, .operand b] := by
  induction others with
  | nil => rfl
  | cons p others ih =>
      show .blank :: .operand _ :: suspendTokens call position arithmetic (laterTokens others) = _
      rw [ih]
      rfl

/-- **A row evaluates to itself**, in every context and without changing it. -/
theorem settles (r : Row) (call : Caller) (position : Position) (arithmetic : Bool) :
    Settles (evaluate call position arithmetic r.source) r.settled := by
  rw [source, settled]
  cases r.others with
  | nil => exact r.first.settles call position arithmetic
  | cons p others =>
      simp only [List.isEmpty_cons, Bool.false_eq_true, if_false]
      rw [evaluate]
      generalize (arithmetic || _) = asked
      rw [suspendTokens, suspendTokens_later, List.map_cons]
      refine runExpression_settles (r.first.settles call position asked)
        (p.settles call position asked) ?_ position asked
      rw [List.forall₂_map_left_iff, List.forall₂_map_right_iff, List.forall₂_same]
      exact fun q _ => q.settles call position asked

/-! ### Writing -/

/-- A row neither begins nor ends with a blank. -/
theorem isTrimmed (r : Row) : IsTrimmed r.text := by
  rw [text]
  rcases List.eq_nil_or_concat r.others with hnil | ⟨init, q, hothers⟩
  · rw [hnil, laterText, List.flatMap_nil, List.append_nil]
    exact r.first.trimmed
  · have hlater : laterText r.others = (laterText init ++ [' ']) ++ q.text := by
      rw [hothers, laterText, List.concat_eq_append, List.flatMap_append]
      simp [laterText]
    rw [hlater]
    exact r.first.trimmed.append _ q.trimmed

/-- What is written of an item of a list that is no comma list. -/
theorem itemsText_cons {separator : ListSeparator} (hseparator : separator ≠ .comma) (joined : Bool)
    (p : Piece) (rest : List Value) : itemsText separator joined (p.settled :: rest) =
      (if joined then separator.joint else "") ++ String.ofList p.text ++
        itemsText separator true rest := by
  have hcomma : (separator != .comma) = true := by simpa using hseparator
  rw [itemsText, if_neg (by simp [p.not_null])]
  dsimp only
  rw [hcomma, Bool.and_true, p.written]

/-- What is written behind the first item. -/
theorem itemsText_later (others : List Piece) :
    itemsText .space true (others.map Piece.settled) = String.ofList (laterText others) := by
  induction others with
  | nil => rfl
  | cons p others ih =>
      rw [List.map_cons, itemsText_cons (by decide), ih, ← String.toList_inj]
      simp [laterText, ListSeparator.joint]

/-- **A row is evaluated to a value that is written like the row.** -/
theorem text_settled (r : Row) : r.settled.text = String.ofList r.text := by
  rw [settled]
  split
  next hempty =>
    have hnil : r.others = [] := by simpa using hempty
    have hwritten := r.first.written
    rw [r.alone hnil, if_neg (by decide)] at hwritten
    rw [hwritten, text, hnil, laterText, List.flatMap_nil, List.append_nil]
  next =>
    rw [Value.text, List.map_cons, itemsText_cons (by decide), itemsText_later, ← String.toList_inj]
    simp [text]

theorem not_null (r : Row) : r.settled.isNull = false := by
  rw [settled]
  split
  · exact r.first.not_null
  · rfl

end Row

end Scss
