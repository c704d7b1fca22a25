import Scss.Grammar.Statement
import Scss.Proofs.Reading

/-!
# Reading a stylesheet always ends

What holds of values holds of the statements around them: the fuel suffices for eight calls for each
character that is left, and for the rank of the function. A statement is at least one token, so that
the loop over statements moves on with each of them.
-/

namespace Scss

/-! ## Selectors -/

/-- What yields on each entry of a list yields on the list, entry after entry. -/
theorem Yields.mapM {α β : Type} {uri : String} {f : α → Except Failure β} {xs : List α}
    (h : ∀ x ∈ xs, Yields uri (fun _ => True) (f x)) : Yields uri (fun _ => True) (xs.mapM f) := by
  induction xs with
  | nil => exact trivial
  | cons x xs ih =>
      rw [List.mapM_cons]
      refine (h x List.mem_cons_self).bind fun y _ => ?_
      exact (ih fun z hz => h z (List.mem_cons_of_mem x hz)).bind fun ys _ => trivial

/-- A fault in a selector is placed where the list of selectors begins. -/
theorem Selector.readList_yields {uri : String} (text : String) {position : Position}
    (h : position.uri = uri) : Yields uri (fun _ => True) (readList text position) := by
  refine Yields.mapM fun piece _ => ?_
  dsimp only
  split
  · exact ⟨_, _, rfl, h⟩
  · cases ofChars (Text.dropBlanksEnd (Text.dropBlanks piece)) with
    | ok s => trivial
    | error fault => exact ⟨_, _, rfl, h⟩

namespace Grammar

open Cursor Reads

variable {uri : String} {tokens : List Token} {w : Nat} {fuel : Nat}

/-! ## Pieces of statements -/

/-- `!important` costs no fuel, and where it is missing nothing but blanks is read. -/
theorem important_reads :
    Reads uri (Within uri tokens w) important fun _ => Within uri tokens w := by
  refine skipBlanks_bind (peek_bind fun kind => anywhere ?_)
  split
  · exact Reads.advance.bind fun _ => pure_le le_rfl
  · exact Reads.fail _
  · exact pure_le le_rfl

/-- The loop over `!default` and `!global` takes a token in each round, so that it ends with the
tokens. -/
theorem assignmentFlags_fueled (ifUnset isGlobal : Bool) :
    Fueled uri 1 fuel (assignmentFlags fuel ifUnset isGlobal) := by
  induction fuel generalizing ifUnset isGlobal with
  | zero => exact fueled_zero (by decide) _
  | succ fuel ih =>
      intro tokens w h
      rw [assignmentFlags]
      refine skipBlanks_bind (peek_bind fun kind => ?_)
      split
      · exact take_bind nofun fun v hv => (ih _ _ (by omega)).le hv.le
      · exact take_bind nofun fun v hv => (ih _ _ (by omega)).le hv.le
      · exact anywhere (Reads.fail _)
      · exact anywhere (pure_le le_rfl)

/-- Selectors are read off a text that is there already: the cursor stays where it is. -/
theorem selectorSource_reads {P : Cursor → Prop} (text : Interpolation) {position : Position}
    (h : position.uri = uri) : Reads uri P (selectorSource text position) fun _ => P := by
  unfold selectorSource
  split
  · exact lift_bind (Selector.readList_yields _ h) fun selectors _ => Reads.pure fun c hc => hc
  · exact Reads.pure fun c hc => hc

/-- An assignment reads its name and its colon at least, for which it is below what was left. -/
theorem assignment_reads (name : String) (h : 8 * w + 6 ≤ fuel) :
    Reads uri (Within uri tokens w) (assignment fuel name) fun _ => Below uri tokens w := by
  refine advance_bind fun t u ht hu => skipBlanks_bind (expect_bind fun v hv => skipBlanks_bind ?_)
  refine ((values_fueled uri fuel).valueList (by omega)).bind fun value => ?_
  refine (assignmentFlags_fueled false false (by omega)).bind fun flags => ?_
  exact Reads.endStatement.bind fun _ => Reads.pure fun c hc => ⟨v, by omega, hc⟩

/-- A declaration reads its colon at least. The value, be it a text or a list, is read below that. -/
theorem declaration_reads (h : 8 * w + 6 ≤ fuel) :
    Reads uri (Within uri tokens w) (declaration fuel) fun _ => Below uri tokens w := by
  unfold declaration
  refine token_bind fun start hstart _ => anywhere ?_
  refine (interpolationUntil_fueled (by omega)).bind fun name => ?_
  dsimp only
  refine Reads.ite (fails_bind (failAt hstart _)) (isAt_not_ite (fails_bind (failAt hstart _)) ?_)
  refine take_bind nofun fun v hv => skipBlanks_bind ?_
  -- both kinds of value end alike, below the tokens by the colon
  have hend : ∀ value : Value, Reads uri (Within uri tokens v)
      (do
        let isImportant ← important
        Parser.endStatement
        return Node.mk start.position (.declaration name value isImportant))
      fun _ => Below uri tokens w := fun value =>
    important_reads.bind fun _ => Reads.endStatement.bind fun _ =>
      Reads.pure fun c hc => ⟨v, hv, hc⟩
  refine Reads.ite ?_ ?_
  · exact (interpolationUntil_fueled (by omega)).bind fun text => pure_bind (hend _)
  · exact ((values_fueled uri fuel).valueList (by omega)).bind fun value => hend value

/-- The name of a parameter has been read; its default or its ellipsis may follow. -/
theorem parameter_fueled (s : Signature) (name : String) :
    Fueled uri 5 fuel (signature.parameter fuel s name) := by
  intro tokens w h
  unfold signature.parameter
  refine skipBlanks_bind (isAt_ite (take_bind nofun fun v hv => skipBlanks_bind ?_) ?_)
  · exact ((values_fueled uri fuel).spaceExpression [] (by omega)).bind fun _ => pure_le hv.le
  · exact Reads.takeEllipsis.bind fun rest => Reads.ite (pure_le le_rfl) (pure_le le_rfl)

theorem parameters_fueled (s : Signature) : Fueled uri 1 fuel (signature.parameters fuel s) := by
  induction fuel generalizing s with
  | zero => exact fueled_zero (by decide) _
  | succ fuel ih =>
      intro tokens w h
      rw [signature.parameters]
      refine skipBlanks_bind (advance_bind fun t v ht hv => ?_)
      split
      · exact pure_le (by omega)
      next name hkind =>
        have hpos := ht.shorter (hkind ▸ nofun)
        refine (parameter_fueled s name (by omega)).bind fun s => skipBlanks_bind ?_
        refine advance_bind fun separator u hseparator hu => ?_
        split
        · exact (ih s (by omega)).le (by omega)
        · exact pure_le (by omega)
        · exact failExpected hseparator _
      · exact failExpected ht _

theorem signature_fueled : Fueled uri 1 fuel (signature fuel) := by
  intro tokens w h
  refine skipBlanks_bind (isAt_ite (take_bind nofun fun v hv => ?_) (pure_le le_rfl))
  exact (parameters_fueled _ (by omega)).le hv.le

/-- A target takes the fuel of one operand, and the comma in front of the next target pays for the
round. -/
theorem importTargets_fueled : Fueled uri 4 fuel (importTargets fuel) := by
  induction fuel with
  | zero => exact fueled_zero (by decide) _
  | succ fuel ih =>
      intro tokens w h
      rw [importTargets]
      have hprimary : ∀ {f : Value → Parser (List Value)},
          (∀ a, ∀ v < w, Reads uri (Within uri tokens v) (f a) fun _ => Within uri tokens w) →
          Reads uri (Within uri tokens w) (primary fuel >>= f) fun _ => Within uri tokens w :=
        fun hf => ((values_fueled uri fuel).primary (by omega)).bind fun a => below (hf a)
      -- behind an operand fewer characters are left than there were, which pays for the next round
      have hmore : ∀ target, ∀ v < w, Reads uri (Within uri tokens v)
          (do
            discard Parser.skipBlanks
            if ← Parser.isAt .comma then
              discard Parser.advance
              return target :: (← importTargets fuel)
            else return [target])
          fun _ => Within uri tokens w := by
        intro target v hv
        refine skipBlanks_bind (isAt_ite (take_bind nofun fun u hu => ?_) (pure_le hv.le))
        exact (ih (by omega)).bind fun _ => pure_le (by omega)
      refine skipBlanks_bind (peek_bind fun kind => anywhere ?_)
      dsimp only
      split
      · exact hprimary hmore
      · exact hprimary hmore
      · exact hprimary hmore
      · exact token_bind fun _ ht _ => fails_bind (failExpected ht _)

theorem imports_fueled (position : Position) : Fueled uri 4 fuel (imports fuel position) := by
  intro tokens w h
  refine (importTargets_fueled (by omega)).bind fun targets => ?_
  refine (interpolationUntil_fueled (by omega)).bind fun media => ?_
  exact Reads.endStatement.bind fun _ => pure_le le_rfl

theorem eachVariables_fueled : Fueled uri 1 fuel (eachVariables fuel) := by
  induction fuel with
  | zero => exact fueled_zero (by decide) _
  | succ fuel ih =>
      intro tokens w h
      rw [eachVariables]
      refine skipBlanks_bind (advance_bind fun t v ht hv => ?_)
      split
      · refine skipBlanks_bind (isAt_ite (take_bind nofun fun u hu => ?_) (pure_le (by omega)))
        exact (ih (by omega)).bind fun _ => pure_le (by omega)
      · exact failExpected ht _

theorem extend_fueled {t : Token} (ht : t.Sound uri) : Fueled uri 2 fuel (extend fuel t) := by
  intro tokens w h
  unfold extend
  refine (interpolationUntil_fueled (by omega)).bind fun target => ?_
  dsimp only
  have hend : ∀ isOptional, Reads uri (Within uri tokens w)
      (do
        Parser.endStatement
        return Statement.extend (← selectorSource target t.position) isOptional)
      fun _ => Within uri tokens w := fun isOptional =>
    Reads.endStatement.bind fun _ => (selectorSource_reads target ht.position).bind fun _ =>
      pure_le le_rfl
  refine Reads.ite (fails_bind (failAt ht _)) (peek_bind fun kind => anywhere ?_)
  split
  · exact Reads.advance.bind fun _ => pure_bind (hend true)
  · exact fails_bind (Reads.fail _)
  · exact pure_bind (hend false)

/-! ## Statements -/

/-- With some fuel, statements are read as long as it suffices. What begins without a keyword is at
least one token. -/
structure StatementsFueled (uri : String) (fuel : Nat) : Prop where
  statements : ∀ nested, Fueled uri 9 fuel (statements fuel nested)
  ruleOrDeclaration : ∀ {tokens w}, 8 * w + 8 ≤ fuel →
    Reads uri (Within uri tokens w) (ruleOrDeclaration fuel) fun _ => Below uri tokens w
  rule : ∀ {tokens w}, 8 * w + 3 ≤ fuel →
    Reads uri (Within uri tokens w) (rule fuel) fun _ => Below uri tokens w
  group : ∀ {tokens w}, 8 * w + 7 ≤ fuel →
    Reads uri (Within uri tokens w) (group fuel) fun _ => Below uri tokens w
  body : ∀ directive, Fueled uri 2 fuel (body fuel directive)
  otherBranches : Fueled uri 1 fuel (otherBranches fuel)
  optionalBlock : Fueled uri 2 fuel (optionalBlock fuel)
  directive : ∀ name {t}, t.Sound uri → Fueled uri 9 fuel (directive fuel name t)
  statement : ∀ name {t}, t.Sound uri → Fueled uri 8 fuel (statement fuel name t)
  forLoop : Fueled uri 3 fuel (forLoop fuel)
  diagnostic : ∀ level, Fueled uri 7 fuel (diagnostic fuel level)

section
variable (ih : StatementsFueled uri fuel)
include ih

/-- A statement moves on, so that the statements behind it are read with the fuel that is left. A
name that begins a statement is left to what reads it, which is why those cases say `Below`. -/
theorem statements_fueled (nested : Bool) : Fueled uri 9 (fuel + 1) (statements (fuel + 1) nested) := by
  intro tokens w h
  rw [statements]
  -- what comes below `w` has the fuel for the statements that follow
  have hrest : ∀ {P : List Node → List Node}, ∀ v < w, Reads uri (Within uri tokens v)
      (do return P (← Grammar.statements fuel nested)) fun _ => Within uri tokens w :=
    fun v hv => (ih.statements nested (by omega)).bind fun _ => pure_le hv.le
  refine (Reads.skip _).bind fun _ => token_bind fun t ht _ => ?_
  split
  · exact Reads.ite (failAt ht _) (anywhere (pure_le le_rfl))
  next hkind =>
    rw [hkind]
    exact Reads.ite (take_bind nofun fun v hv => pure_le hv.le) (failAt ht _)
  next text hkind =>
    rw [hkind]
    exact take_bind nofun (hrest (P := fun ns => _ :: ns))
  next name hkind =>
    rw [hkind]
    refine take_bind nofun fun v hv => ?_
    exact (ih.directive _ ht (by omega)).bind fun nodes => hrest (P := fun ns => nodes ++ ns) v hv
  · have hbelow : ∀ nodes : List Node, Reads uri (Below uri tokens w)
        (do return nodes ++ (← Grammar.statements fuel nested)) fun _ => Within uri tokens w :=
      fun nodes => below (hrest (P := fun ns => nodes ++ ns))
    refine anywhere (get_bind fun c _ => ?_)
    dsimp only
    split
    · exact (assignment_reads _ (by omega)).bind fun node => pure_bind (hbelow [node])
    · exact (ih.ruleOrDeclaration (by omega)).bind hbelow

theorem ruleOrDeclaration_fueled (h : 8 * w + 8 ≤ fuel + 1) :
    Reads uri (Within uri tokens w) (ruleOrDeclaration (fuel + 1)) fun _ => Below uri tokens w := by
  rw [ruleOrDeclaration]
  refine get_bind fun c _ => Reads.ite ?_ (Reads.ite (ih.group (by omega)) ?_)
  · exact (declaration_reads (by omega)).bind fun node => Reads.pure fun c hc => hc
  · exact (ih.rule (by omega)).bind fun node => Reads.pure fun c hc => hc

theorem rule_fueled (h : 8 * w + 3 ≤ fuel + 1) :
    Reads uri (Within uri tokens w) (rule (fuel + 1)) fun _ => Below uri tokens w := by
  rw [rule]
  refine token_bind fun start hstart _ => anywhere ?_
  refine (interpolationUntil_fueled (by omega)).bind fun text => expect_bind fun v hv => ?_
  refine (selectorSource_reads text hstart.position).bind fun selectors => ?_
  exact (ih.statements true (by omega)).bind fun _ => Reads.pure fun c hc => ⟨v, hv, hc⟩

/-- A group of properties reads its name and its colon before the value or the brace that follow. -/
theorem group_fueled (h : 8 * w + 7 ≤ fuel + 1) :
    Reads uri (Within uri tokens w) (group (fuel + 1)) fun _ => Below uri tokens w := by
  rw [group]
  refine advance_bind fun t u ht hu => Reads.advance.bind fun _ => skipBlanks_bind ?_
  have hblock : ∀ {P : List Node → List Node}, Reads uri (Within uri tokens u)
      (do
        Parser.expect .openBrace "'\x7b' after nested property"
        return P (← Grammar.statements fuel true))
      fun _ => Below uri tokens w :=
    expect_bind fun v hv => (ih.statements true (by omega)).bind fun _ =>
      Reads.pure fun c hc => ⟨v, by omega, hc⟩
  dsimp only
  refine isAt_ite (anywhere (pure_bind (hblock (P := fun ns => _ ++ ns.map _)))) ?_
  refine ((values_fueled uri fuel).valueList (by omega)).bind fun value => ?_
  refine important_reads.bind fun isImportant => skipBlanks_bind (pure_bind ?_)
  exact hblock (P := fun ns => _ ++ ns.map _)

theorem body_fueled (name : String) : Fueled uri 2 (fuel + 1) (body (fuel + 1) name) := by
  intro tokens w h
  rw [body]
  exact skipBlanks_bind (expect_bind fun v hv => (ih.statements true (by omega)).le hv.le)

/-- Where no branch follows, the cursor goes back to where it stood before the blanks, which is
within the same tokens. -/
theorem otherBranches_fueled : Fueled uri 1 (fuel + 1) (otherBranches (fuel + 1)) := by
  intro tokens w h
  rw [otherBranches]
  refine get_bind fun before hbefore => skipBlanks_bind (peek_bind fun kind => ?_)
  -- the look behind the body is undone where no `@else` is found
  have hback : ∀ {kind}, Reads uri (Facing uri tokens w kind)
      (do set before; return ([] : List (Option Value × List Node)))
      fun _ => Within uri tokens w := set_bind hbefore (pure_le le_rfl)
  split
  · refine Reads.ite (take_bind nofun fun v hv => skipBlanks_bind (peek_bind fun kind => ?_)) hback
    split
    · refine take_bind nofun fun u hu => skipBlanks_bind ?_
      refine ((values_fueled uri fuel).valueList (by omega)).bind fun condition => ?_
      refine (ih.body _ (by omega)).bind fun children => ?_
      exact (ih.otherBranches (by omega)).bind fun _ => pure_le (by omega)
    · exact anywhere ((ih.body _ (by omega)).bind fun _ => pure_le hv.le)
  · exact hback

theorem optionalBlock_fueled : Fueled uri 2 (fuel + 1) (optionalBlock (fuel + 1)) := by
  intro tokens w h
  rw [optionalBlock]
  refine isAt_ite (take_bind nofun fun v hv => ?_) ?_
  · exact (ih.statements true (by omega)).bind fun _ => pure_le hv.le
  · exact Reads.endStatement.bind fun _ => pure_le le_rfl

/-- `@charset`, `@import` and `@else` are read here; all other directives are one call further. -/
theorem directive_fueled (name : String) {t : Token} (ht : t.Sound uri) :
    Fueled uri 9 (fuel + 1) (directive (fuel + 1) name t) := by
  intro tokens w h
  unfold directive
  refine skipBlanks_bind ?_
  split
  · refine advance_bind fun value v hvalue hv => ?_
    dsimp only
    split
    · have hset : ∀ charset, Reads uri (Within uri tokens v)
          (modify fun c => { c with charset := charset }) fun _ => Within uri tokens v :=
        fun charset => Reads.modify fun c hc => ⟨hc.sound, hc.suffix, hc.weight⟩
      refine (hset _).bind fun _ => ?_
      exact Reads.endStatement.bind fun _ => pure_le (by omega)
    · exact fails_bind (failExpected hvalue _)
  · exact imports_fueled t.position (by omega)
  · exact failAt ht _
  · exact (ih.statement _ ht (by omega)).bind fun _ => pure_le le_rfl

/-- The counter and the word behind the start are tokens, which pay for the two bounds and the body. -/
theorem forLoop_fueled : Fueled uri 3 (fuel + 1) (forLoop (fuel + 1)) := by
  intro tokens w h
  rw [forLoop]
  have hvalues := values_fueled uri fuel
  refine advance_bind fun t u ht hu => ?_
  split
  next counter hkind =>
    have hpos := ht.shorter (hkind ▸ nofun)
    refine skipBlanks_bind ((Reads.expectWord _).bind fun _ => skipBlanks_bind ?_)
    refine (hvalues.spaceExpression _ (by omega)).bind fun start => skipBlanks_bind ?_
    refine advance_bind fun separator v hseparator hv => ?_
    -- `to` and `through` differ in a flag only
    have hend : ∀ isInclusive, Reads uri (Within uri tokens v)
        (do
          discard Parser.skipBlanks
          let stop ← Grammar.spaceExpression fuel []
          return Statement.forLoop counter start stop isInclusive (← Grammar.body fuel "@for"))
        fun _ => Within uri tokens w := fun isInclusive =>
      skipBlanks_bind <| (hvalues.spaceExpression _ (by omega)).bind fun stop =>
        (ih.body _ (by omega)).bind fun _ => pure_le (by omega)
    dsimp only
    split
    · exact pure_bind (hend true)
    · exact pure_bind (hend false)
    · exact fails_bind (failExpected hseparator _)
  · exact failExpected ht _

omit ih in
theorem diagnostic_fueled (level : DiagnosticLevel) :
    Fueled uri 7 (fuel + 1) (diagnostic (fuel + 1) level) := by
  intro tokens w h
  rw [diagnostic]
  refine ((values_fueled uri fuel).valueList (by omega)).bind fun message => ?_
  exact Reads.endStatement.bind fun _ => pure_le le_rfl

/-- Every directive reads what its keyword asks for, and then a body, a block or the end of the
statement. -/
theorem statement_fueled (name : String) {t : Token} (ht : t.Sound uri) :
    Fueled uri 8 (fuel + 1) (statement (fuel + 1) name t) := by
  intro tokens w h
  have hvalues := values_fueled uri fuel
  -- most directives end in a body, for which there is fuel left
  have hbody : ∀ directive (P : List Node → Statement), Reads uri (Within uri tokens w)
      (do return P (← Grammar.body fuel directive)) fun _ => Within uri tokens w :=
    fun directive P => (ih.body directive (by omega)).bind fun _ => pure_le le_rfl
  unfold statement
  dsimp only
  split
  · exact (interpolationUntil_fueled (by omega)).bind fun query => hbody _ _
  · exact extend_fueled ht (by omega)
  · refine (Reads.expectName _).bind fun name => ?_
    exact (signature_fueled (by omega)).bind fun parameters => hbody _ _
  · -- `@include`, with or without arguments, ends in a block that may be missing
    have hblock : ∀ name passed, Reads uri (Within uri tokens w)
        (do
          discard Parser.skipBlanks
          return Statement.includeMixin name passed (← Grammar.optionalBlock fuel))
        fun _ => Within uri tokens w := fun name passed =>
      skipBlanks_bind ((ih.optionalBlock (by omega)).bind fun _ => pure_le le_rfl)
    refine (Reads.expectName _).bind fun name => skipBlanks_bind (isAt_ite ?_ ?_)
    · refine take_bind nofun fun v hv => ?_
      exact ((hvalues.arguments (by omega)).le hv.le).bind fun passed => hblock name passed
    · exact pure_bind (hblock name [])
  · exact Reads.endStatement.bind fun _ => pure_le le_rfl
  · refine (Reads.expectName _).bind fun name => ?_
    exact (signature_fueled (by omega)).bind fun parameters => hbody _ _
  · refine (hvalues.valueList (by omega)).bind fun value => ?_
    exact Reads.endStatement.bind fun _ => pure_le le_rfl
  · refine (hvalues.valueList (by omega)).bind fun condition => ?_
    refine (ih.body _ (by omega)).bind fun children => ?_
    exact (ih.otherBranches (by omega)).bind fun _ => pure_le le_rfl
  · refine (eachVariables_fueled (by omega)).bind fun names => ?_
    refine (Reads.expectWord _).bind fun _ => skipBlanks_bind ?_
    exact (hvalues.valueList (by omega)).bind fun list => hbody _ _
  · exact ih.forLoop (by omega)
  · exact (hvalues.valueList (by omega)).bind fun condition => hbody _ _
  · exact ih.diagnostic _ (by omega)
  · exact ih.diagnostic _ (by omega)
  · exact ih.diagnostic _ (by omega)
  · refine (interpolationUntil_fueled (by omega)).bind fun prelude => ?_
    exact (ih.optionalBlock (by omega)).bind fun _ => pure_le le_rfl

end

/-- **Statements are read as long as the fuel suffices**, and they are read to the end. -/
theorem all_statements_fueled (uri : String) (fuel : Nat) : StatementsFueled uri fuel := by
  induction fuel with
  | zero => constructor <;> intros <;> first | exact fueled_zero (by decide) _ | omega
  | succ fuel ih =>
      exact ⟨statements_fueled ih, ruleOrDeclaration_fueled ih, rule_fueled ih, group_fueled ih,
        body_fueled ih, otherBranches_fueled ih, optionalBlock_fueled ih,
        fun name _ ht => directive_fueled ih name ht, fun name _ ht => statement_fueled ih name ht,
        forLoop_fueled ih, diagnostic_fueled⟩

end Grammar

/-! ## Stylesheets -/

namespace Cursor

variable {uri : String} {c d : Cursor}

/-- The cursor `d` stands further on in the tokens that are in front of `c`. -/
def Behind (d c : Cursor) : Prop := d.tokens <:+ c.tokens ∧ d.tokens.length < c.tokens.length

theorem within_self (h : Token.AllSound uri c.tokens) :
    Within uri c.tokens (Token.weight c.tokens) c := ⟨h, List.suffix_rfl, le_rfl⟩

/-- Where fewer characters are left, there are fewer tokens. -/
theorem Below.behind (h : Below uri c.tokens (Token.weight c.tokens) d) : d.Behind c := by
  obtain ⟨v, hv, hd⟩ := h
  refine ⟨hd.suffix, lt_of_le_of_ne hd.suffix.length_le fun hlength => ?_⟩
  have hweight := hd.weight
  rw [hd.suffix.eq_of_length hlength] at hweight
  omega

/-- Only the end of the text is no token to move over. -/
theorem advance_behind (h : Token.AllSound uri c.tokens) (hkind : c.current.kind ≠ .finish) :
    c.advance.Behind c := by
  obtain ⟨v, hv, hmoved⟩ := (within_self h).advance
  have hpos := h.sound _ List.mem_cons_self |>.shorter hkind
  exact Below.behind ⟨v, by omega, hmoved⟩

end Cursor

namespace Reads

variable {α : Type} {uri : String} {m : Parser α} {c : Cursor}

open Cursor

/-- What stays within the tokens in front of a cursor ends at some of them. -/
theorem stays (hm : Reads uri (Within uri c.tokens (Token.weight c.tokens)) m
      fun _ => Within uri c.tokens (Token.weight c.tokens)) (h : Token.AllSound uri c.tokens) :
    Yields uri (fun r => r.2.tokens <:+ c.tokens) (m.run c) :=
  (hm c (within_self h)).mono fun _ hr => hr.suffix

/-- What comes below the tokens in front of a cursor ends strictly further on. -/
theorem moves (hm : Reads uri (Within uri c.tokens (Token.weight c.tokens)) m
      fun _ => Below uri c.tokens (Token.weight c.tokens)) (h : Token.AllSound uri c.tokens) :
    Yields uri (fun r => r.2.Behind c) (m.run c) :=
  (hm c (within_self h)).mono fun _ hr => hr.behind

end Reads

/-- A text is read to its end, or there is a fault in it. -/
theorem Stylesheet.read_yields (source uri : String) :
    Yields uri (fun sheet => sheet.uri = uri) (read source uri) := by
  have huri : (Position.start uri).uri = uri := rfl
  refine (Token.read_yields source huri).bind fun tokens ⟨hsound, hweight⟩ => ?_
  have hfuel : 8 * source.length + 9 ≤ Grammar.fuelFor source.length := by
    rw [Grammar.fuelFor]
    omega
  have hstart := Cursor.within_ofTokens (Position.start uri) hsound hweight
  have hstatements := Grammar.all_statements_fueled uri (Grammar.fuelFor source.length)
  exact (hstatements.statements false hfuel _ hstart).bind fun _ _ => rfl

/-- **Reading is total.** Whatever the text, it is read as a stylesheet or there is a fault of the text in
the named file. Wherever the cursor stands among the tokens of a text, reading statements ends there or
further on, or with such a fault; whatever is read in a loop, a statement without a keyword, an operand
or an interpolation, moves the cursor on, and so does moving over a token. What a token holds is shorter
than the token, and what is read in it in turn, the text in an interpolation and the text behind that, is
shorter still. -/
theorem Stylesheet.reading_is_total (source uri : String) :
    Yields uri (fun sheet => sheet.uri = uri) (read source uri) ∧
    Yields uri (fun tokens => Token.AllSound uri tokens ∧ Token.weight tokens ≤ source.length)
      (Token.read source (Position.start uri)) ∧
    (∀ c : Cursor, Token.AllSound uri c.tokens →
      ∀ fuel, Grammar.fuelFor (Token.weight c.tokens) ≤ fuel →
        (∀ nested, Yields uri (fun r => r.2.tokens <:+ c.tokens)
          ((Grammar.statements fuel nested).run c)) ∧
        Yields uri (fun r => r.2.Behind c) ((Grammar.ruleOrDeclaration fuel).run c) ∧
        (∀ name, Yields uri (fun r => r.2.Behind c) ((Grammar.assignment fuel name).run c)) ∧
        Yields uri (fun r => r.2.Behind c) ((Grammar.primary fuel).run c) ∧
        (c.current.kind = .mark .interpolation →
          Yields uri (fun r => r.2.Behind c) ((Grammar.embedded fuel).run c)) ∧
        (c.current.kind ≠ .finish → c.advance.Behind c ∧
          c.current.kind.embeddedText.length < c.current.text.length)) ∧
    ∀ text before behind inner rest : List Char,
      Text.cutAtInterpolation? text = some (before, behind) →
      Grammar.cutAtBrace? none 0 behind = some (inner, rest) →
      inner.length < text.length ∧ rest.length < text.length := by
  refine ⟨read_yields source uri, Token.read_yields source rfl, fun c h fuel hfuel => ?_, ?_⟩
  · have hstatements := Grammar.all_statements_fueled uri fuel
    have hvalues := Grammar.values_fueled uri fuel
    rw [Grammar.fuelFor] at hfuel
    refine ⟨fun nested => ?_, ?_, fun name => ?_, ?_, fun hkind => ?_, fun hkind => ⟨?_, ?_⟩⟩
    · exact (hstatements.statements nested (by omega)).stays h
    · exact (hstatements.ruleOrDeclaration (by omega)).moves h
    · exact (Grammar.assignment_reads name (by omega)).moves h
    · exact (hvalues.primary (by omega)).moves h
    · exact (hvalues.embedded (by omega) c ⟨Cursor.within_self h, hkind⟩).mono fun _ hr => hr.behind
    · exact Cursor.advance_behind h hkind
    · exact (h.sound _ List.mem_cons_self).shorter hkind
  · intro text before behind inner rest hopen hclose
    have hopened := Text.length_of_cutAtInterpolation? hopen
    have hclosed := Grammar.length_of_cutAtBrace? hclose
    omega

/-- A block that is not closed, in a file that ends with it. -/
def Cursor.unclosed : Cursor where
  current := ⟨.mark .openBrace, Position.start "a", 0, 1, "\x7b"⟩
  later := [⟨.finish, ⟨"a", 1, 2⟩, 1, 1, ""⟩]
  previousStop := none
  charset := none

theorem Stylesheet.reading_unclosed_is_total :
    Token.AllSound "a" Cursor.unclosed.tokens ∧
    Grammar.fuelFor (Token.weight Cursor.unclosed.tokens) ≤ 24 ∧
    Yields "a" (fun r => r.2.Behind Cursor.unclosed)
      ((Grammar.ruleOrDeclaration 24).run Cursor.unclosed) ∧
    Cursor.unclosed.advance.Behind Cursor.unclosed ∧
    Text.cutAtInterpolation? "#\x7ba\x7d".toList = some ([], "a\x7d".toList) ∧
    Grammar.cutAtBrace? none 0 "a\x7d".toList = some (['a'], []) ∧
    ['a'].length < "#\x7ba\x7d".toList.length := by
  have hsound : Token.AllSound "a" Cursor.unclosed.tokens := by
    refine ⟨fun t ht => ?_, _, rfl, rfl⟩
    obtain rfl | rfl : t = _ ∨ t = _ := by simpa [Cursor.tokens, Cursor.unclosed] using ht
    · exact ⟨rfl, fun h => (by cases h), fun _ => by decide⟩
    · exact ⟨rfl, fun _ => rfl, fun hne => absurd rfl hne⟩
  have hfuel : Grammar.fuelFor (Token.weight Cursor.unclosed.tokens) ≤ 24 := by decide
  obtain ⟨-, -, hreads, hshorter⟩ := reading_is_total "\x7b" "a"
  obtain ⟨-, hrule, -, -, -, hmoves⟩ := hreads Cursor.unclosed hsound 24 hfuel
  refine ⟨hsound, hfuel, hrule, (hmoves fun h => by cases h).1, by decide, by decide, ?_⟩
  exact (hshorter _ [] "a\x7d".toList ['a'] [] (by decide) (by decide)).1

end Scss
