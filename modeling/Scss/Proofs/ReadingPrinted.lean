import Scss.Proofs.Lexing
import Scss.Proofs.Printed

/-!
# A printed stylesheet is read

Of a printed stylesheet the reader makes a tree of the same shape: the selectors of its rules are read,
the names of its properties are text, and the values are what rows are read as. What the reader
decides by looking ahead it decides rightly: a declaration ends before a brace opens, and the head of a
rule is no group of properties, since no space follows its colons.
-/

namespace Scss

open Text Token

/-! ## Looking ahead -/

namespace Token

/-- Whether a lexeme of this kind can stand in a passage. -/
def Kind.isOfPassage : Kind → Bool
  | .blank | .rawCall .. => true
  | .mark m => m ∈ [.colon, .openParen, .closeParen, .openBracket, .closeBracket] ||
      (Kind.mark m).isPlain
  | kind => kind.isPlain

/-- No brace stands in a passage, and no end of a statement. -/
theorem Kind.isOfPassage_stops {kind : Kind} (h : kind.isOfPassage = true) :
    Grammar.atBrace kind = false ∧ Grammar.atBraceOrEnd kind = false := by
  cases kind with
  | mark m => cases m <;> first | exact ⟨rfl, rfl⟩ | cases h
  | _ => exact ⟨rfl, rfl⟩

namespace Passage

variable {depth : Nat} {ls : List Lexeme} {cs : List Char}

theorem isOfPassage (h : Passage depth ls cs) : ∀ l ∈ ls, l.kind.isOfPassage = true := by
  induction h with
  | nil => exact fun _ h => absurd h List.not_mem_nil
  | blank _ ih | colon _ ih => exact List.forall_mem_cons.mpr ⟨rfl, ih⟩
  | rawCall _ _ _ ih => exact List.forall_mem_cons.mpr ⟨rfl, ih⟩
  | opening hm _ ih | closing hm _ ih =>
      refine List.forall_mem_cons.mpr ⟨?_, ih⟩
      rcases hm with rfl | rfl <;> rfl
  | @plain depth kind ls word cs hkind _ ih =>
      refine List.forall_mem_cons.mpr ⟨?_, ih⟩
      cases kind with
      | mark m => simp [Kind.isOfPassage, hkind]
      | _ => first | exact hkind | rfl

/-- A colon is written for a colon. -/
theorem colon_mem (h : Passage depth ls cs) {l : Lexeme} (hl : l ∈ ls) (hkind : l.kind = .mark .colon) :
    ':' ∈ cs := by
  induction h with
  | nil => exact absurd hl List.not_mem_nil
  | blank _ ih =>
      rcases List.mem_cons.mp hl with rfl | hl
      · cases hkind
      · exact List.mem_cons_of_mem _ (ih hl)
  | colon _ _ => exact List.mem_cons_self
  | rawCall _ _ _ ih =>
      rcases List.mem_cons.mp hl with rfl | hl
      · cases hkind
      · simp [ih hl]
  | opening hm _ ih | closing hm _ ih =>
      rcases List.mem_cons.mp hl with rfl | hl
      · rcases hm with rfl | rfl <;> cases hkind
      · exact List.mem_append_right _ (ih hl)
  | plain hplain _ ih =>
      rcases List.mem_cons.mp hl with rfl | hl
      · have hcolon : (Kind.mark .colon).isPlain = true := hkind ▸ hplain
        cases hcolon
      · exact List.mem_append_right _ (ih hl)

/-- A passage that does not begin with a space begins with a lexeme that is no blank. -/
theorem exists_head (h : Passage depth ls cs) (hne : cs ≠ []) (hspace : ∀ c ∈ cs.head?, c ≠ ' ') :
    ∃ l rest, ls = l :: rest ∧ l.kind.isBlank = false := by
  cases h with
  | nil => exact absurd rfl hne
  | blank => exact absurd rfl (hspace ' ' rfl)
  | colon | rawCall => exact ⟨_, _, rfl, rfl⟩
  | opening | closing => exact ⟨_, _, rfl, rfl⟩
  | @plain _ kind _ _ _ hkind =>
      refine ⟨_, _, rfl, ?_⟩
      cases kind <;> first | rfl | cases hkind

end Passage

end Token

namespace Grammar

variable {depth : Nat} {ls back : List Lexeme} {cs : List Char}

/-- Brackets apart, what is opened behind a passage does not depend on it. -/
theorem opens_passage (h : Passage depth ls cs) (brackets : Nat) (back : List Lexeme) :
    opens (brackets + depth) (ls ++ back) = opens brackets back := by
  induction h with
  | nil => rfl
  | blank _ ih => exact ih
  | colon _ ih => exact ih
  | rawCall _ _ _ ih => exact ih
  | @opening depth ls cs m hm _ ih =>
      rcases hm with rfl | rfl <;> exact ih
  | @closing depth ls cs m hm _ ih =>
      rcases hm with rfl | rfl <;> exact ih
  | @plain depth kind ls word cs hkind _ ih =>
      cases kind with
      | mark m =>
          cases m
          all_goals first
            | exact ih
            | cases hkind
      | word | number | hash | stray => exact ih
      | _ => cases hkind

/-- Whether a group of properties is opened by what is left to be read. -/
def groups (ls : List Lexeme) : Bool := opensGroup (ls.map Lexeme.token)

theorem opensGroup_eq_groups (tokens : List Token) :
    opensGroup tokens = groups (tokens.map Token.lexeme) := by
  cases tokens with
  | nil => rfl
  | cons t later =>
      obtain ⟨kind, _, _, _, _⟩ := t
      cases kind with
      | word name =>
          cases later with
          | nil => rfl
          | cons t later =>
              obtain ⟨kind, _, _, _, _⟩ := t
              cases kind with
              | mark m =>
                  cases later with
                  | nil => cases m <;> rfl
                  | cons t later =>
                      obtain ⟨kind, _, _, _, _⟩ := t
                      cases m <;> rfl
              | _ => rfl
      | _ => rfl

/-- Text in which something follows every colon does not open a group of properties. -/
theorem groups_passage (h : Passage 0 ls cs) (hbound : IsBound cs) (back : List Lexeme) :
    groups (ls ++ Lexeme.blank :: back) = false := by
  cases h with
  | nil | blank | colon | rawCall => rfl
  | opening hm => rcases hm with rfl | rfl <;> rfl
  | @plain _ kind _ word _ hkind h =>
      cases kind with
      | word name =>
          cases h with
          | nil | blank | rawCall => rfl
          | opening hm => rcases hm with rfl | rfl <;> rfl
          | @colon _ _ rest h =>
              obtain ⟨d, hhead, hd⟩ := hbound.behind
              cases h with
              | nil => cases hhead
              | blank => exact absurd (Option.some.inj hhead).symm hd
              | colon | rawCall => rfl
              | opening hm => rcases hm with rfl | rfl <;> rfl
              | @plain _ kind _ _ _ hkind =>
                  cases kind with
                  | mark m => cases m <;> first | rfl | cases hkind
                  | _ => first | rfl | cases hkind
          | @plain _ kind _ _ _ hkind =>
              cases kind with
              | mark m => cases m <;> first | rfl | cases hkind
              | _ => rfl
      | mark m => cases m <;> rfl
      | _ => rfl

/-! ## Text in front of a mark -/

section

variable {stop : Kind → Bool} {substitute : Bool} {gap : List Lexeme} {l : Lexeme} {fuel : Nat}

/-- Text is read up to what stops it, without the blank behind it. -/
theorem takes_text {text : String} (h : Passage 0 ls text.toList) (htrimmed : IsTrimmed text.toList)
    (hstop : ∀ x ∈ ls, stop x.kind = false) (hblank : stop .blank = false)
    (hl : stop l.kind = true) (hgap : Row.IsGap gap)
    (hfuel : 8 * (ls ++ (gap ++ l :: back)).length + 2 ≤ fuel) :
    Takes (ls ++ (gap ++ l :: back)) (interpolationUntil fuel stop substitute)
      (· = [.literal text]) (l :: back) := by
  have hne : gap ++ l :: back ≠ [] := lexemes_ne_nil (List.cons_ne_nil _ _)
  have hnonempty : ¬text.isEmpty = true := by
    rw [String.isEmpty_iff]
    rintro rfl
    exact htrimmed.nonempty rfl
  rcases hgap with rfl | rfl
  · refine (takes_interpolationUntil (takesPieces_passage h hstop hne (takesPieces_stop hl)) hfuel).mono
      fun parts hparts => ?_
    rw [hparts, String.ofList_toList, String.append_empty, htrimmed.trim_eq, if_neg hnonempty]
  · have hspace : TakesPieces stop substitute 0 ([Lexeme.blank] ++ l :: back) " " (l :: back) :=
      takesPieces_blank_stop hblank hl
    refine (takes_interpolationUntil (takesPieces_passage h hstop hne hspace) hfuel).mono
      fun parts hparts => ?_
    have htrim : trim (text ++ " ") = text :=
      htrimmed.trim_append (List.forall_mem_singleton.mpr (by decide))
    rw [hparts, String.ofList_toList, htrim, if_neg hnonempty]

end

end Grammar

/-! ## Declarations -/

namespace Printed

open Grammar Takes

variable {back : List Lexeme} {fuel : Nat}

namespace Line

variable (l : Line)

/-- A declaration is read as what the line is made of. -/
def IsSource (n : Node) : Prop :=
  n.statement = .declaration [.literal l.name] l.rows.source l.important

theorem takes_name (hfuel : 8 * (l.nameLexemes ++ Lexeme.mark .colon :: back).length + 2 ≤ fuel) :
    Takes (l.nameLexemes ++ Lexeme.mark .colon :: back) (interpolationUntil fuel atColonOrEnd false)
      (· = [.literal l.name]) (Lexeme.mark .colon :: back) := by
  have hpassage := (passageLexemes_spec l.isItem_name.isPassage).1
  have hcolon : ':' ∉ l.name.toList := fun hmem => absurd (l.isName.2 _ hmem) (by decide)
  have hstop : ∀ x ∈ l.nameLexemes, atColonOrEnd x.kind = false := by
    intro x hx
    have hkind := hpassage.isOfPassage x hx
    have hne : x.kind ≠ .mark .colon := fun heq => hcolon (hpassage.colon_mem hx heq)
    cases hx : x.kind with
    | mark m =>
        rw [hx] at hkind hne
        cases m <;> first | rfl | exact absurd rfl hne | cases hkind
    | _ => rfl
  exact takes_text hpassage l.isItem_name.isTrimmed hstop rfl rfl (Or.inl rfl) hfuel

/-- The value is followed by the flag, or by the end of the declaration. -/
theorem exists_takes_important (back : List Lexeme) : ∃ gap k ls, Row.IsGap gap ∧
    k.kind.isBlank = false ∧ endsExpression [] k.kind = true ∧ k.kind ≠ .mark .comma ∧
    l.flagLexemes ++ Lexeme.mark .semicolon :: back = gap ++ k :: ls ∧
    Takes (k :: ls) Grammar.important (· = l.important) (Lexeme.mark .semicolon :: back) := by
  rw [flagLexemes]
  cases l.important with
  | false =>
      refine ⟨[], Lexeme.mark .semicolon, back, Or.inl rfl, rfl, rfl, (by rintro ⟨⟩), rfl, ?_⟩
      exact skipBlanks_bind rfl (peek_bind (Takes.pure rfl))
  | true =>
      refine ⟨[Lexeme.blank], Lexeme.flag "important", Lexeme.mark .semicolon :: back, Or.inr rfl, rfl,
        rfl, (by rintro ⟨⟩), rfl, ?_⟩
      exact skipBlanks_bind rfl (peek_bind (over_bind (by rintro ⟨⟩) (List.cons_ne_nil _ _) (Takes.pure rfl)))

theorem takes (hback : back ≠ []) (hfuel : 8 * (l.lexemes ++ back).length + 6 ≤ fuel) :
    Takes (l.lexemes ++ back) (declaration fuel) l.IsSource back := by
  obtain ⟨gap, k, ls, hgap, hblank, hends, hcomma, hend, himportant⟩ := l.exists_takes_important back
  have hlexemes : l.lexemes ++ back = l.nameLexemes ++ Lexeme.mark .colon :: Lexeme.blank ::
      (l.rows.lexemes ++ (gap ++ k :: ls)) := by
    rw [← hend]
    simp [lexemes, valueLexemes]
  rw [hlexemes] at hfuel ⊢
  -- from the end backwards: what ends the statement, the value, and the name in front of it
  have hstatement : Takes (Lexeme.mark .semicolon :: back) Parser.endStatement (fun _ => True) back :=
    skipBlanks_bind rfl (peek_bind (Takes.advance (mark_ne_finish _) hback))
  have hvalue : Takes (l.rows.lexemes ++ (gap ++ k :: ls)) (valueList fuel) (· = l.rows.source)
      (k :: ls) := by
    refine l.rows.takes hgap hblank hends hcomma ?_
    simp only [List.length_append, List.length_cons] at hfuel ⊢
    omega
  obtain ⟨first, rest, hfirst, hbegins⟩ := l.rows.begins
  have hname : Takes _ (interpolationUntil fuel atColonOrEnd false) _ _ :=
    l.takes_name (hfuel.trans' (Nat.add_le_add_left (by decide) _))
  rw [declaration]
  refine anyToken_bind fun start => hname.bind fun name hname => ?_
  subst hname
  refine isAt_bind (over_bind (mark_ne_finish _) (List.cons_ne_nil _ _) ?_)
  rw [hfirst] at hvalue ⊢
  refine skipBlank_bind hbegins.notBlank ?_
  extract_lets isCustom finish
  have hcustom : isCustom = false := by
    simpa [isCustom, Interpolation.plain?] using l.notCustom
  rw [hcustom, if_neg (by decide)]
  refine hvalue.bind fun value hvalue => himportant.bind fun isImportant hflag => ?_
  refine hstatement.bind fun _ _ => Takes.pure ?_
  rw [hvalue, hflag]
  rfl

end Line

/-! ## Statements -/

/-- At these lexemes statements are read, with fuel for them. -/
def TakesNodes (nested : Bool) (front : List Lexeme) (Q : List Node → Prop) (back : List Lexeme) :
    Prop :=
  ∀ fuel, 8 * front.length + 8 ≤ fuel → Takes front (statements fuel nested) Q back

/-- A statement in front of others. -/
structure TakesNode (item : List Lexeme) (p : Node → Prop) : Prop where
  node : ∀ nested gap back Q behind, Row.IsGap gap → back ≠ [] → TakesNodes nested back Q behind →
    TakesNodes nested (gap ++ (item ++ back))
      (fun nodes => ∃ n rest, nodes = n :: rest ∧ p n ∧ Q rest) behind

theorem skipSeparators_bind {β : Type} {f : PUnit → Parser β} {R : β → Prop} {gap ls : List Lexeme}
    {l : Lexeme} (hgap : Row.IsGap gap) (hblank : l.kind.isBlank = false)
    (hsemicolon : l.kind ≠ .mark .semicolon) (h : Takes (l :: ls) (f ⟨⟩) R back) :
    Takes (gap ++ l :: ls) (Parser.skipSeparators >>= f) R back := by
  have hskip : Takes (gap ++ l :: ls) Parser.skipSeparators (fun _ => True) (l :: ls) := by
    intro c hc
    refine ⟨_, _, rfl, trivial, Cursor.lexemes_skip _ gap hc ?_ ?_, c.charset_skip _⟩
    · rcases hgap with rfl | rfl
      · exact fun _ h => absurd h List.not_mem_nil
      · exact List.forall_mem_singleton.mpr rfl
    · split
      next heq => exact absurd hblank (by rw [heq]; decide)
      next heq => exact absurd heq hsemicolon
      next => rfl
  exact hskip.bind fun _ _ => h

theorem takes_closeBrace {gap : List Lexeme} (hgap : Row.IsGap gap) (hback : back ≠ []) :
    TakesNodes true (gap ++ Lexeme.mark .closeBrace :: back) (· = []) back := by
  intro fuel hfuel
  obtain ⟨fuel, rfl⟩ : ∃ f, fuel = f + 1 := ⟨fuel - 1, by omega⟩
  rw [statements]
  refine skipSeparators_bind hgap rfl (by rintro ⟨⟩) (token_bind fun t ht => ?_)
  rw [kind_of_lexeme ht]
  exact over_bind (mark_ne_finish _) hback (Takes.pure rfl)

theorem takes_finish {gap : List Lexeme} (hgap : Row.IsGap gap) :
    TakesNodes false (gap ++ [Lexeme.finish]) (· = []) [Lexeme.finish] := by
  intro fuel hfuel
  obtain ⟨fuel, rfl⟩ : ∃ f, fuel = f + 1 := ⟨fuel - 1, by omega⟩
  rw [statements]
  refine skipSeparators_bind hgap rfl (by rintro ⟨⟩) (token_bind fun t ht => ?_)
  rw [kind_of_lexeme ht]
  exact Takes.pure rfl

section

variable {item : List Lexeme} {p : Node → Prop}

/-- A statement that begins with a line of text is a rule or a declaration. -/
theorem TakesNode.ofLine {cs : List Char} {more : List Lexeme} (hline : IsLine cs)
    (hitem : item = passageLexemes cs ++ more)
    (h : ∀ back fuel, back ≠ [] → 8 * (item ++ back).length + 6 ≤ fuel →
      Takes (item ++ back) (ruleOrDeclaration (fuel + 1)) (fun nodes => ∃ n, nodes = [n] ∧ p n) back) :
    TakesNode item p := by
  have hpassage := (passageLexemes_spec hline.isPassage).1
  obtain ⟨l, ls, hfirst, hblank⟩ := hpassage.exists_head hline.nonempty hline.front
  have hkind : l.kind.isOfPassage = true := hpassage.isOfPassage l (hfirst ▸ List.mem_cons_self)
  rw [hfirst, List.cons_append] at hitem
  refine ⟨fun nested gap back Q behind hgap hback hrest fuel hfuel => ?_⟩
  obtain ⟨fuel, rfl⟩ : ∃ f, fuel = f + 2 := ⟨fuel - 2, by omega⟩
  have hlength : 8 * (item ++ back).length + 6 ≤ fuel ∧ 8 * back.length + 8 ≤ fuel + 1 := by
    simp only [hitem, List.length_append, List.length_cons] at hfuel ⊢
    omega
  have htail : Takes (item ++ back) (do
      let nodes ← ruleOrDeclaration (fuel + 1)
      return nodes ++ (← statements (fuel + 1) nested))
      (fun nodes => ∃ n rest, nodes = n :: rest ∧ p n ∧ Q rest) behind := by
    refine (h back fuel hback hlength.1).bind fun nodes hnodes => ?_
    obtain ⟨n, rfl, hn⟩ := hnodes
    exact (hrest _ hlength.2).bind fun rest hrest => Takes.pure ⟨n, rest, rfl, hn, hrest⟩
  rw [hitem] at htail ⊢
  have hsemicolon : l.kind ≠ .mark .semicolon := by
    intro heq
    rw [heq] at hkind
    cases hkind
  rw [statements]
  refine skipSeparators_bind hgap hblank hsemicolon (token_bind fun t ht => ?_)
  rw [kind_of_lexeme ht]
  cases hl : l.kind with
  | mark m =>
      cases m <;> first | exact get_bind fun _ _ => htail | (rw [hl] at hkind; cases hkind)
  | _ => first | exact get_bind fun _ _ => htail | (rw [hl] at hkind; cases hkind)

end

/-! ### Blocks -/

section

variable {α : Type} {lexemes : α → List Lexeme} {p : α → Node → Prop}

/-- **Items are read one after the other**, up to what ends them. -/
theorem takes_items {nested : Bool} {rest behind : List Lexeme} (items : List α)
    (h : ∀ a ∈ items, TakesNode (lexemes a) (p a)) (hrest : rest ≠ [])
    (hend : TakesNodes nested rest (· = []) behind) :
    TakesNodes nested ((items.map lexemes).flatMap (Lexeme.blank :: ·) ++ rest)
      (List.Forall₂ p items) behind := by
  induction items with
  | nil => exact fun fuel hfuel => (hend fuel hfuel).mono fun nodes hnodes => hnodes ▸ .nil
  | cons a items ih =>
      obtain ⟨ha, hitems⟩ := List.forall_mem_cons.mp h
      have hfirst := ha.node nested [Lexeme.blank] _ _ _ (Or.inr rfl) (lexemes_ne_nil hrest) (ih hitems)
      intro fuel hfuel
      have hfront : (List.map lexemes (a :: items)).flatMap (Lexeme.blank :: ·) ++ rest =
          [Lexeme.blank] ++ (lexemes a ++ ((items.map lexemes).flatMap (Lexeme.blank :: ·) ++ rest)) := by
        simp
      rw [hfront] at hfuel ⊢
      refine (hfirst fuel hfuel).mono ?_
      rintro nodes ⟨n, others, rfl, hn, hothers⟩
      exact .cons hn hothers

/-- **What stands between braces is read.** -/
theorem takes_block (items : List α) (h : ∀ a ∈ items, TakesNode (lexemes a) (p a)) (hback : back ≠ []) :
    TakesNodes true (blockLexemes (items.map lexemes) ++ back) (List.Forall₂ p items) back := by
  have hclose : TakesNodes true ([Lexeme.blank] ++ Lexeme.mark .closeBrace :: back) _ back :=
    takes_closeBrace (Or.inr rfl) hback
  have hitems := takes_items items h (List.cons_ne_nil _ _) hclose
  rw [blockLexemes, List.append_assoc]
  exact hitems

end

/-! ### Declarations and rules -/

section

variable {front : List Lexeme} {p : Node → Prop}

theorem takes_declaration (hopens : opens 0 front = false) (h : Takes front (declaration fuel) p back) :
    Takes front (ruleOrDeclaration (fuel + 1)) (fun nodes => ∃ n, nodes = [n] ∧ p n) back := by
  rw [ruleOrDeclaration]
  refine get_bind fun c hc => ?_
  extract_lets tokens
  have hdecides : opensBlock 0 0 tokens = false := by
    rw [opensBlock_eq_opens]
    exact (congrArg (opens 0) hc).trans hopens
  rw [hdecides]
  exact h.bind fun n hn => Takes.pure ⟨n, rfl, hn⟩

theorem takes_rule (hopens : opens 0 front = true) (hgroups : groups front = false)
    (h : Takes front (rule fuel) p back) :
    Takes front (ruleOrDeclaration (fuel + 1)) (fun nodes => ∃ n, nodes = [n] ∧ p n) back := by
  rw [ruleOrDeclaration]
  refine get_bind fun c hc => ?_
  extract_lets tokens
  have hdecides : opensBlock 0 0 tokens = true ∧ opensGroup tokens = false := by
    rw [opensBlock_eq_opens, opensGroup_eq_groups]
    exact ⟨(congrArg (opens 0) hc).trans hopens, (congrArg groups hc).trans hgroups⟩
  rw [hdecides.1, hdecides.2]
  exact h.bind fun n hn => Takes.pure ⟨n, rfl, hn⟩

end

theorem Line.opens_lexemes (l : Line) : opens 0 (l.lexemes ++ back) = false := by
  have hpassage := (passageLexemes_spec l.isItem_name.isPassage).1
  have hname := opens_passage hpassage 0
    (Lexeme.mark .colon :: Lexeme.blank :: (l.valueLexemes ++ back))
  have hvalue : opens 0 (l.valueLexemes ++ back) = false := by
    rw [valueLexemes, List.append_assoc, l.rows.closed, flagLexemes]
    cases l.important with
    | false => rfl
    | true => rfl
  rw [lexemes, List.append_assoc]
  exact hname.trans hvalue

theorem Line.takesNode (l : Line) : TakesNode l.lexemes l.IsSource :=
  .ofLine l.isItem_name.toIsLine rfl fun _ _ hback hfuel =>
    takes_declaration l.opens_lexemes (l.takes hback hfuel)

/-- A rule is read as one with the same selectors, around what its lines are read as. -/
def Rule.IsSource (r : Rule) (n : Node) : Prop :=
  ∃ body, n.statement = .rule (.parsed r.selectors) body ∧ List.Forall₂ Line.IsSource r.lines body

theorem Rule.takes_head (r : Rule)
    (hfuel : 8 * (r.headLexemes ++ Lexeme.blank :: Lexeme.mark .openBrace :: back).length + 2 ≤ fuel) :
    Takes (r.headLexemes ++ Lexeme.blank :: Lexeme.mark .openBrace :: back)
      (interpolationUntil fuel atBrace false) (· = [.literal r.head]) (Lexeme.mark .openBrace :: back) := by
  have hpassage := (passageLexemes_spec r.isLine_head.1.isPassage).1
  have hstop : ∀ x ∈ r.headLexemes, atBrace x.kind = false := fun x hx =>
    (Kind.isOfPassage_stops (hpassage.isOfPassage x hx)).1
  have hgap : Row.IsGap [Lexeme.blank] := Or.inr rfl
  exact takes_text hpassage r.isLine_head.1.isTrimmed hstop rfl rfl hgap hfuel

theorem Rule.takes_selectors (r : Rule) (position : Position) {front : List Lexeme} :
    Takes front (selectorSource [.literal r.head] position) (· = .parsed r.selectors) front := by
  intro c hc
  refine ⟨.parsed r.selectors, c, ?_, rfl, hc, rfl⟩
  have hread := Selector.readList_of_isWritten r.written r.selectors_ne position
  have hplain : Interpolation.plain? [.literal r.head] = some r.head := by
    simp [Interpolation.plain?]
  rw [selectorSource, hplain]
  dsimp only
  rw [head, hread]
  rfl

theorem Rule.takes (r : Rule) (hback : back ≠ []) (hfuel : 8 * (r.lexemes ++ back).length + 6 ≤ fuel) :
    Takes (r.lexemes ++ back) (rule fuel) r.IsSource back := by
  have hlexemes : r.lexemes ++ back = r.headLexemes ++ Lexeme.blank :: Lexeme.mark .openBrace ::
      (blockLexemes (r.lines.map Line.lexemes) ++ back) := by
    simp [lexemes, bracedLexemes]
  rw [hlexemes] at hfuel ⊢
  obtain ⟨fuel, rfl⟩ : ∃ f, fuel = f + 1 := ⟨fuel - 1, by omega⟩
  have hhead : Takes _ (interpolationUntil fuel atBrace false) _
      (_ :: (blockLexemes (r.lines.map Line.lexemes) ++ back)) := r.takes_head (by omega)
  have hblock : Takes _ (statements fuel true) _ back :=
    takes_block r.lines (fun l _ => l.takesNode) hback fuel (by
      simp only [List.length_append, List.length_cons] at hfuel ⊢
      omega)
  rw [rule]
  refine anyToken_bind fun start => hhead.bind fun text htext => ?_
  subst htext
  refine expect_bind (lexemes_ne_nil hback) ((r.takes_selectors _).bind fun selectors hselectors => ?_)
  subst hselectors
  exact hblock.bind fun body hbody => Takes.pure ⟨body, rfl, hbody⟩

theorem Rule.opens_lexemes (r : Rule) :
    opens 0 (r.lexemes ++ back) = true ∧ groups (r.lexemes ++ back) = false := by
  have hpassage := (passageLexemes_spec r.isLine_head.1.isPassage).1
  have hlexemes : r.lexemes ++ back =
      r.headLexemes ++ Lexeme.blank :: (bracedLexemes (r.lines.map Line.lexemes) ++ back) := by
    simp [lexemes]
  rw [hlexemes]
  exact ⟨opens_passage hpassage 0 _, groups_passage hpassage r.isLine_head.2 _⟩

theorem Rule.takesNode (r : Rule) : TakesNode r.lexemes r.IsSource :=
  .ofLine r.isLine_head.1 rfl fun _ _ hback hfuel =>
    takes_rule r.opens_lexemes.1 r.opens_lexemes.2 (r.takes hback hfuel)

/-! ### Media directives -/

namespace Media

variable (m : Media)

/-- What a query is read as. -/
def source : Interpolation := if m.query.toList = [] then [] else [.literal m.query]

/-- A media directive is read as one with the same query, around what its rules are read as. -/
def IsSource (n : Node) : Prop :=
  ∃ body, n.statement = .media m.source body ∧ List.Forall₂ Rule.IsSource m.rules body

/-- Behind the name of the directive the query is read. -/
theorem exists_takes_query (hfuel :
    8 * (m.queryLexemes ++ Lexeme.blank :: Lexeme.mark .openBrace :: back).length + 2 ≤ fuel) :
    ∃ front, Takes (m.queryLexemes ++ Lexeme.blank :: Lexeme.mark .openBrace :: back)
      (discard Parser.skipBlanks) (fun _ => True) front ∧
      Takes front (interpolationUntil fuel atBraceOrEnd true) (· = m.source)
        (Lexeme.mark .openBrace :: back) := by
  rcases m.trimmed with hnil | htrimmed
  · simp only [queryLexemes, source, if_pos hnil] at hfuel ⊢
    have hstop : TakesPieces atBraceOrEnd true 0 (Lexeme.mark .openBrace :: back) ""
        (Lexeme.mark .openBrace :: back) := takesPieces_stop rfl
    refine ⟨_, (Takes.skipBlank rfl).discard, takes_interpolationUntil hstop ?_⟩
    rw [List.nil_append, List.length_cons] at hfuel
    omega
  · simp only [queryLexemes, source, if_neg htrimmed.nonempty] at hfuel ⊢
    have hpassage := (passageLexemes_spec m.passage).1
    have hspace : ∀ c ∈ m.query.toList.head?, c ≠ ' ' := by
      rintro c hc rfl
      exact absurd (htrimmed.front ' ' hc) (by decide)
    obtain ⟨first, rest, hfirst, hblank⟩ := hpassage.exists_head htrimmed.nonempty hspace
    have hstop : ∀ x ∈ passageLexemes m.query.toList, atBraceOrEnd x.kind = false := fun x hx =>
      (Kind.isOfPassage_stops (hpassage.isOfPassage x hx)).2
    have hgap : Row.IsGap [Lexeme.blank] := Or.inr rfl
    refine ⟨_, ?_, takes_text hpassage htrimmed hstop rfl rfl hgap (hfuel.trans' ?_)⟩
    · rw [hfirst]
      exact (Takes.skipBlank hblank).discard
    · simp only [List.cons_append, List.length_cons, List.length_append, List.length_nil]
      omega

theorem takes_directive {t : Token} (hback : back ≠ [])
    (hfuel : 8 * (m.lexemes ++ back).length ≤ fuel) :
    Takes (m.queryLexemes ++ Lexeme.blank :: (bracedLexemes (m.rules.map Rule.lexemes) ++ back))
      -- the fuel that is left at the query, and in the block below it
      (directive fuel "media" t) (fun nodes => ∃ n, nodes = [n] ∧ m.IsSource n) back := by
  have hlength : m.queryLexemes.length + (blockLexemes (m.rules.map Rule.lexemes)).length +
      back.length + 3 = (m.lexemes ++ back).length := by
    simp only [lexemes, bracedLexemes, List.cons_append, List.length_cons, List.length_append]
    omega
  obtain ⟨fuel, rfl⟩ : ∃ f, fuel = f + 3 := ⟨fuel - 3, by omega⟩
  have hless : 8 * (m.queryLexemes ++ Lexeme.blank :: Lexeme.mark .openBrace ::
      (blockLexemes (m.rules.map Rule.lexemes) ++ back)).length + 2 ≤ fuel + 1 := by
    simp only [List.length_cons, List.length_append]
    omega
  obtain ⟨front, hblank, hquery⟩ := m.exists_takes_query hless
  have hblock : Takes _ (statements fuel true) _ back :=
    takes_block m.rules (fun r _ => r.takesNode) hback fuel (by
      rw [List.length_append]
      omega)
  have hstatement : statement (fuel + 2) "media" t = do
      let query ← interpolationUntil (fuel + 1) atBraceOrEnd true
      return .media query (← body (fuel + 1) "@media") := by
    rw [statement]
  have hdirective : directive (fuel + 3) "media" t = do
      discard Parser.skipBlanks
      return [.mk t.position (← statement (fuel + 2) "media" t)] := by
    rw [directive] <;> decide
  have hmedia : Takes (Lexeme.mark .openBrace :: (blockLexemes (m.rules.map Rule.lexemes) ++ back)) (do
      return Statement.media m.source (← body (fuel + 1) "@media"))
      (fun statement => ∃ body, statement = .media m.source body ∧ List.Forall₂ Rule.IsSource m.rules body)
      back := by
    have hbody : Takes (Lexeme.mark .openBrace :: (blockLexemes (m.rules.map Rule.lexemes) ++ back))
        (body (fuel + 1) "@media") (List.Forall₂ Rule.IsSource m.rules) back := by
      rw [body]
      exact skipBlanks_bind rfl (expect_bind (lexemes_ne_nil hback) hblock)
    exact hbody.bind fun body hbody => Takes.pure ⟨body, rfl, hbody⟩
  rw [hdirective, hstatement]
  refine hblank.bind fun _ _ => Takes.bind (hquery.bind fun query hquery => hquery ▸ hmedia)
    fun statement h => Takes.pure ⟨_, rfl, h⟩

theorem takesNode : TakesNode m.lexemes m.IsSource := by
  refine ⟨fun nested gap back Q behind hgap hback hrest fuel hfuel => ?_⟩
  obtain ⟨fuel, rfl⟩ : ∃ f, fuel = f + 1 := ⟨fuel - 1, by omega⟩
  have hlength : 8 * (m.lexemes ++ back).length ≤ fuel ∧ 8 * back.length + 8 ≤ fuel := by
    simp only [lexemes, List.cons_append, List.length_append, List.length_cons] at hfuel ⊢
    omega
  have hfront : gap ++ (m.lexemes ++ back) = gap ++ Lexeme.atWord "media" ::
      (m.queryLexemes ++ Lexeme.blank :: (bracedLexemes (m.rules.map Rule.lexemes) ++ back)) := by
    simp [lexemes]
  have hname : "media".toLower = "media" := by cbv
  rw [statements, hfront]
  refine skipSeparators_bind hgap rfl (by rintro ⟨⟩) (token_bind fun t ht => ?_)
  rw [kind_of_lexeme ht]
  refine over_bind (by rintro ⟨⟩) (lexemes_ne_nil (List.cons_ne_nil _ _)) ?_
  rw [hname]
  refine (m.takes_directive hback hlength.1).bind fun nodes hnodes => ?_
  obtain ⟨n, rfl, hn⟩ := hnodes
  exact (hrest fuel hlength.2).bind fun rest hrest => Takes.pure ⟨n, rest, rfl, hn, hrest⟩

end Media

/-! ## Stylesheets -/

def Part.IsSource : Part → Node → Prop
  | rule r => r.IsSource
  | media m => m.IsSource

theorem Part.takesNode : ∀ p : Part, TakesNode p.lexemes p.IsSource
  | rule r => r.takesNode
  | media m => m.takesNode

theorem sheetLexemes_ne_nil (parts : List Part) : sheetLexemes parts ≠ [] := by
  cases parts with
  | nil => exact List.cons_ne_nil _ _
  | cons first rest => exact lexemes_ne_nil (lexemes_ne_nil (List.cons_ne_nil _ _))

theorem takes_sheet (parts : List Part) :
    TakesNodes false (sheetLexemes parts) (List.Forall₂ Part.IsSource parts) [Lexeme.finish] := by
  cases parts with
  | nil =>
      have hend : TakesNodes false ([] ++ [Lexeme.finish]) _ _ := takes_finish (Or.inl rfl)
      exact fun fuel hfuel => (hend fuel hfuel).mono fun nodes hnodes => hnodes ▸ .nil
  | cons first rest =>
      have hend : TakesNodes false ([Lexeme.blank] ++ [Lexeme.finish]) _ _ := takes_finish (Or.inr rfl)
      have hrest := takes_items rest (fun p _ => p.takesNode) (List.cons_ne_nil _ _) hend
      have hsheet := first.takesNode.node false [] _ _ _ (Or.inl rfl)
        (lexemes_ne_nil (List.cons_ne_nil _ _)) hrest
      intro fuel hfuel
      refine (hsheet fuel hfuel).mono ?_
      rintro nodes ⟨n, others, rfl, hn, hothers⟩
      exact .cons hn hothers

/-- **A printed stylesheet is read as what it is made of.** -/
theorem read_sheet (parts : List Part) (uri : String) : ∃ s,
    Stylesheet.read (String.ofList (sheetText parts)) uri = .ok s ∧ s.charset = none ∧
      List.Forall₂ Part.IsSource parts s.body := by
  obtain ⟨tokens, htokens, hlexemes⟩ := sheet_lexes parts (Position.start uri) 0
  have hlength := length_readFrom _ _ _ htokens
  have hcursor : (Cursor.ofTokens (Position.start uri) tokens).lexemes = sheetLexemes parts ∧
      (Cursor.ofTokens (Position.start uri) tokens).charset = none := by
    cases tokens with
    | nil => exact absurd hlexemes.symm (sheetLexemes_ne_nil parts)
    | cons t later => exact ⟨hlexemes, rfl⟩
  have hfuel : 8 * (sheetLexemes parts).length + 8 ≤ fuelFor (sheetText parts).length := by
    rw [← hlexemes, List.length_map, fuelFor]
    omega
  obtain ⟨body, stop, hrun, hbody, -, hcharset⟩ := takes_sheet parts _ hfuel _ hcursor.1
  refine ⟨⟨uri, stop.charset, body⟩, ?_, hcharset.trans hcursor.2, hbody⟩
  have hread : Token.read (String.ofList (sheetText parts)) (Position.start uri) = .ok tokens := by
    rw [Token.read, String.toList_ofList]
    exact htokens
  rw [Stylesheet.read, hread, String.length_ofList]
  show ((statements (fuelFor (sheetText parts).length) false).run _ >>= _) = _
  rw [hrun]
  rfl

end Printed

end Scss
