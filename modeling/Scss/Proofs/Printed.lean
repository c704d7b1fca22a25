import Scss.Proofs.Phrases
import Scss.Proofs.SelectorLines

/-!
# Printed stylesheets

What is printed is made of declarations, rules around them and media directives around these. A
`Line`, a `Rule` and a `Media` know what they are printed from, and that it can be read again; a
printed stylesheet is a list of `Part`s. Each of them has a text, and the lexemes that this text has
wherever it stands (`Spells`): blanks of any length count as one, so indentation leaves no trace.
-/

namespace Scss

open Text Token

/-! ## Text and its lexemes -/

/-- In front of anything the text has these lexemes. It does not begin with a blank. -/
structure Token.Spells (cs : List Char) (ls : List Lexeme) : Prop where
  front : ∃ c rest, cs = c :: rest ∧ isBlank c = false
  lexes : ∀ behind back, (∀ s, Lexes s behind back) → Lexes true (cs ++ behind) (ls ++ back)

namespace Token.Spells

variable {cs behind : List Char} {ls back : List Lexeme}

theorem head (h : Spells cs ls) (rest : List Char) : ∀ c ∈ (cs ++ rest).head?, isBlank c = false := by
  obtain ⟨c, more, rfl, hc⟩ := h.front
  intro d hd
  exact Option.some.inj hd ▸ hc

/-- Behind blanks. -/
theorem behindBlanks (h : Spells cs ls) {w : List Char} (hw : w ≠ [])
    (hblank : ∀ c ∈ w, isBlank c = true) (hbehind : ∀ s, Lexes s behind back) (s : Bool) :
    Lexes s (w ++ (cs ++ behind)) (Lexeme.blank :: (ls ++ back)) :=
  Lexes.blanks hw hblank (h.head behind) (h.lexes behind back hbehind)

end Token.Spells

namespace Printed

/-- The end of a line, and the tabs at the beginning of the next. -/
def newline (depth : Nat) : List Char := '\n' :: List.replicate depth '\t'

theorem newline_ne_nil (depth : Nat) : newline depth ≠ [] := List.cons_ne_nil _ _

theorem isBlank_of_mem_newline {depth : Nat} : ∀ c ∈ newline depth, isBlank c = true := by
  refine List.forall_mem_cons.mpr ⟨by decide, fun c hc => ?_⟩
  rw [List.eq_of_mem_replicate hc]
  decide

/-- Braces around items, each on a line of its own. -/
def braced (depth : Nat) (items : List (List Char)) : List Char :=
  '\x7b' :: (items.flatMap (newline (depth + 1) ++ ·) ++ (newline depth ++ ['\x7d']))

/-- The lexemes behind the opening brace. -/
def blockLexemes (items : List (List Lexeme)) : List Lexeme :=
  items.flatMap (Lexeme.blank :: ·) ++ [Lexeme.blank, Lexeme.mark .closeBrace]

/-- The lexemes of a block with its braces. -/
def bracedLexemes (items : List (List Lexeme)) : List Lexeme :=
  Lexeme.mark .openBrace :: blockLexemes items

section

variable {α : Type} {text : α → List Char} {lexemes : α → List Lexeme} {behind : List Char}
  {back : List Lexeme}

/-- Items with blanks in front of each have a blank in front of the lexemes of each. -/
theorem items_lex (items : List α) (h : ∀ a ∈ items, Spells (text a) (lexemes a)) {w : List Char}
    (hw : w ≠ []) (hblank : ∀ c ∈ w, isBlank c = true) (hbehind : ∀ s, Lexes s behind back) :
    ∀ s, Lexes s ((items.map text).flatMap (w ++ ·) ++ behind)
      ((items.map lexemes).flatMap (Lexeme.blank :: ·) ++ back) := by
  induction items with
  | nil => exact hbehind
  | cons a items ih =>
      obtain ⟨ha, hitems⟩ := List.forall_mem_cons.mp h
      intro s
      simpa using ha.behindBlanks hw hblank (ih hitems) s

/-- Braces around items have the lexemes of a block, at whatever depth they stand. -/
theorem braced_lex (items : List α) (h : ∀ a ∈ items, Spells (text a) (lexemes a)) (depth : Nat)
    (hbehind : ∀ s, Lexes s behind back) :
    ∀ s, Lexes s (braced depth (items.map text) ++ behind)
      (bracedLexemes (items.map lexemes) ++ back) := by
  have hclose : Spells ['\x7d'] [Lexeme.mark .closeBrace] :=
    ⟨⟨_, _, rfl, by decide⟩, fun behind back hbehind => Lexes.mark (m := .closeBrace) rfl rfl hbehind⟩
  have hend := hclose.behindBlanks (newline_ne_nil depth) isBlank_of_mem_newline hbehind
  have hitems := items_lex items h (newline_ne_nil (depth + 1)) isBlank_of_mem_newline hend
  intro s
  have hopen : Lexes s ('\x7b' :: _) _ := Lexes.mark (m := .openBrace) rfl rfl hitems
  simpa [braced, bracedLexemes, blockLexemes] using hopen

end

/-! ## Declarations -/

/-- A printed declaration. -/
structure Line where
  name : String
  rows : Rows
  important : Bool
  isName : IsName name
  notCustom : Text.startsWith name "--" = false

namespace Line

variable (l : Line)

def flagText : List Char := if l.important then " !important".toList else []

def flagLexemes : List Lexeme :=
  if l.important then [Lexeme.blank, Lexeme.flag "important"] else []

def nameLexemes : List Lexeme := passageLexemes l.name.toList

def text : List Char := l.name.toList ++ ':' :: ' ' :: (l.rows.text ++ (l.flagText ++ [';']))

/-- The lexemes behind the colon and its space. -/
def valueLexemes : List Lexeme := l.rows.lexemes ++ (l.flagLexemes ++ [Lexeme.mark .semicolon])

def lexemes : List Lexeme :=
  l.nameLexemes ++ Lexeme.mark .colon :: Lexeme.blank :: l.valueLexemes

theorem isItem_name : IsItem l.name.toList := (isSolid_word l.isName.2).isItem l.isName.1

/-- A printed declaration has the lexemes of its name, its value and its flag, wherever it stands. -/
theorem spells : Spells l.text l.lexemes where
  front := by
    obtain ⟨c, rest, hname⟩ := List.exists_cons_of_ne_nil l.isName.1
    refine ⟨c, rest ++ ':' :: ' ' :: (l.rows.text ++ (l.flagText ++ [';'])), by rw [text, hname]; rfl, ?_⟩
    exact isBlank_of_isWordChar (l.isName.2 c (hname ▸ List.mem_cons_self))
  lexes behind back hbehind := by
    have hend : ∀ s, Lexes s (';' :: behind) (Lexeme.mark .semicolon :: back) := fun s =>
      Lexes.mark (m := .semicolon) rfl rfl hbehind
    have hflag : EndsValue (l.flagText ++ ';' :: behind) ∧
        ∀ s, Lexes s (l.flagText ++ ';' :: behind)
          (l.flagLexemes ++ Lexeme.mark .semicolon :: back) := by
      -- the flag, if there is one, stands between the value and the end
      rw [flagText, flagLexemes]
      cases l.important with
      | false => exact ⟨fun d hd => by simp [← Option.some.inj hd], hend⟩
      | true =>
          refine ⟨fun d hd => ?_, fun s => ?_⟩
          · -- a value may end at the space in front of the flag
            have hspace : d = ' ' := (Option.some.inj hd).symm
            exact Or.inl hspace
          · have hhead : ∀ c ∈ (';' :: behind).head?, EndsName c := fun c hc =>
              Option.some.inj hc ▸ ⟨by decide, by decide⟩
            have hname : ∀ c ∈ "important".toList, isNameChar c = true ∧ isBlank c = false := by
              simp
              decide
            have hwritten : Lexes true ('!' :: ("important".toList ++ ';' :: behind))
                (Lexeme.flag (String.ofList "important".toList) :: Lexeme.mark .semicolon :: back) :=
              Lexes.flag hname (by decide) (by cbv) hhead (hend true)
            exact Lexes.space (fun c hc => Option.some.inj hc ▸ by decide) hwritten
    -- from the end to the front: the value, the colon with its space, and the name
    have hvalue := l.rows.lexes hflag.1 hflag.2
    have hfront : ∀ c ∈ (l.rows.text ++ (l.flagText ++ ';' :: behind)).head?, isBlank c = false :=
      l.rows.isTrimmed.head_append _
    have hcolon : ∀ s, Lexes s (':' :: ' ' :: (l.rows.text ++ (l.flagText ++ ';' :: behind)))
        (Lexeme.mark .colon :: Lexeme.blank ::
          (l.rows.lexemes ++ (l.flagLexemes ++ Lexeme.mark .semicolon :: back))) := fun s =>
      Lexes.mark (m := .colon) rfl rfl fun s => Lexes.space hfront (hvalue true)
    have hname := (passageLexemes_spec l.isItem_name.isPassage).2 _ _ (stops_colon _) hcolon
    simpa [text, lexemes, nameLexemes, valueLexemes] using hname

end Line

/-! ## Rules -/

/-- A printed rule. -/
structure Rule where
  selectors : List Selector
  lines : List Line
  selectors_ne : selectors ≠ []
  lines_ne : lines ≠ []
  written : ∀ s ∈ selectors, s.IsWritten
  nodup : selectors.Nodup
  notContradictory : ∀ s ∈ selectors, s.isContradictory = false

namespace Rule

variable (r : Rule)

def head : String := Selector.listText r.selectors

def headLexemes : List Lexeme := passageLexemes r.head.toList

def text (depth : Nat) : List Char :=
  r.head.toList ++ ' ' :: braced depth (r.lines.map Line.text)

def lexemes : List Lexeme :=
  r.headLexemes ++ Lexeme.blank :: bracedLexemes (r.lines.map Line.lexemes)

theorem isLine_head : IsLine r.head.toList ∧ IsBound r.head.toList :=
  Selector.isLine_listText r.written r.selectors_ne

/-- A printed rule has the lexemes of its selectors and of its declarations. They do not depend on
how far it is indented. -/
theorem spells (depth : Nat) : Spells (r.text depth) r.lexemes where
  front := by
    have htrimmed := r.isLine_head.1.isTrimmed
    obtain ⟨c, rest, hhead⟩ := List.exists_cons_of_ne_nil htrimmed.nonempty
    refine ⟨c, rest ++ ' ' :: braced depth (r.lines.map Line.text), by rw [text, hhead]; rfl, ?_⟩
    exact htrimmed.front c (hhead ▸ rfl)
  lexes behind back hbehind := by
    have hbody := braced_lex r.lines (fun l _ => Line.spells l) depth hbehind
    have hspace : ∀ s, Lexes s (' ' :: (braced depth (r.lines.map Line.text) ++ behind))
        (Lexeme.blank :: (bracedLexemes (r.lines.map Line.lexemes) ++ back)) := fun s =>
      Lexes.space (fun c hc => Option.some.inj hc ▸ by decide) (hbody true)
    have hhead := (passageLexemes_spec r.isLine_head.1.isPassage).2 _ _ (stops_space _) hspace
    simpa [text, lexemes, headLexemes] using hhead

end Rule

/-! ## Media directives -/

/-- A printed media directive. -/
structure Media where
  query : String
  rules : List Rule
  rules_ne : rules ≠ []
  passage : IsPassage [] query.toList
  trimmed : query.toList = [] ∨ IsTrimmed query.toList

namespace Media

variable (m : Media)

def queryLexemes : List Lexeme :=
  if m.query.toList = [] then [] else Lexeme.blank :: passageLexemes m.query.toList

def text : List Char :=
  '@' :: ("media".toList ++ ' ' :: (m.query.toList ++ ' ' :: braced 0 (m.rules.map (Rule.text · 1))))

def lexemes : List Lexeme :=
  Lexeme.atWord "media" :: (m.queryLexemes ++ Lexeme.blank ::
    bracedLexemes (m.rules.map Rule.lexemes))

/-- A printed media directive has the lexemes of its query and of its rules. -/
theorem spells : Spells m.text m.lexemes where
  front := ⟨'@', _, rfl, by decide⟩
  lexes behind back hbehind := by
    have hbody := braced_lex m.rules (fun r _ => Rule.spells r 1) 0 hbehind
    rw [text, lexemes]
    -- of the body it matters only that it begins with its brace
    generalize m.rules.map (Rule.text · 1) = items at hbody
    generalize m.rules.map Rule.lexemes = itemLexemes at hbody
    have hbrace : ∀ c ∈ (braced 0 items ++ behind).head?, isBlank c = false := by
      intro c hc
      obtain rfl := Option.some.inj hc
      decide
    have hspace : ∀ s, Lexes s (' ' :: (braced 0 items ++ behind))
        (Lexeme.blank :: (bracedLexemes itemLexemes ++ back)) := fun s =>
      Lexes.space hbrace (hbody true)
    have hquery : Lexes true (' ' :: (m.query.toList ++ ' ' :: (braced 0 items ++ behind)))
        (m.queryLexemes ++ Lexeme.blank :: (bracedLexemes itemLexemes ++ back)) := by
      rw [queryLexemes]
      rcases m.trimmed with hnil | htrimmed
      · -- both spaces are one blank
        rw [hnil, if_pos rfl]
        exact Lexes.blanks (w := [' ', ' ']) (List.cons_ne_nil _ _) (by simp; decide) hbrace (hbody true)
      · rw [if_neg htrimmed.nonempty]
        exact Lexes.space (htrimmed.head_append _)
          ((passageLexemes_spec m.passage).2 _ _ (stops_space _) hspace)
    have hmedia : ∀ c ∈ "media".toList, isNameChar c = true := by
      simp
      decide
    have hname : Lexes true ('@' :: ("media".toList ++ _)) _ :=
      Lexes.atWord hmedia (by decide) (stops_space _).endsName hquery
    rw [String.ofList_toList] at hname
    simpa only [List.cons_append, List.append_assoc] using hname

end Media

/-! ## Stylesheets -/

/-- A statement at the top level of a printed stylesheet. -/
inductive Part where
  | rule (r : Rule)
  | media (m : Media)

namespace Part

def text : Part → List Char
  | rule r => r.text 0
  | media m => m.text

def lexemes : Part → List Lexeme
  | rule r => r.lexemes
  | media m => m.lexemes

theorem spells : ∀ p : Part, Spells p.text p.lexemes
  | rule r => r.spells 0
  | media m => m.spells

end Part

/-- The text of a stylesheet: an empty line between its parts, and the end of a line behind them. -/
def sheetText : List Part → List Char
  | [] => []
  | first :: rest => first.text ++ ((rest.map Part.text).flatMap (['\n', '\n'] ++ ·) ++ ['\n'])

def sheetLexemes : List Part → List Lexeme
  | [] => [Lexeme.finish]
  | first :: rest =>
    first.lexemes ++ ((rest.map Part.lexemes).flatMap (Lexeme.blank :: ·) ++
      [Lexeme.blank, Lexeme.finish])

/-- **The lexemes of a printed stylesheet.** -/
theorem sheet_lexes (parts : List Part) : Lexes true (sheetText parts) (sheetLexemes parts) := by
  cases parts with
  | nil => exact .nil true
  | cons first rest =>
      have hend : ∀ s, Lexes s ['\n'] [Lexeme.blank, Lexeme.finish] := fun s => by
        have hblank : Lexes s (['\n'] ++ []) [Lexeme.blank, Lexeme.finish] :=
          Lexes.blanks (List.cons_ne_nil _ _) (by simp; decide) (fun _ h => nomatch h) (.nil true)
        simpa using hblank
      have hrest := items_lex rest (fun p _ => Part.spells p) (w := ['\n', '\n'])
        (List.cons_ne_nil _ _) (by simp; decide) hend
      exact first.spells.lexes _ _ hrest

end Printed

end Scss
