import Mathlib.Tactic.Choose
import Scss.Proofs.Agreement
import Scss.Proofs.Literals
import Scss.Proofs.Spacing

/-!
# Values that pass through

A value without variables, interpolations, parentheses and calls that could be run has nothing to be
evaluated in it. Evaluation still takes it apart: an expression becomes a list of its groups, without
the blanks between them, and a group of one operand becomes that operand. What comes out is written as
what went in, since the groups of an expression that was read are parted by one blank each, which is
what a list writes between its items.
-/

namespace Scss

open Compile Evaluation

/-! ## Plain values -/

/-- Nothing is to be replaced or computed in this part of a value. -/
def Value.IsPlainPart (c : Context) : Value → Prop
  | .null | .variable _ | .paren _ => False
  | .interpolated pieces _ => Interpolation.isPlain pieces = true
  | .call name _ => c.scopes.function? name = none ∧ Builtin.find? name = none
  | .expression tokens => (Value.expression tokens).isArithmetic = false
  | _ => True

/-- A value evaluates to another one that is written as it is, and leaves the context alone. -/
structure Value.Passes (call : Caller) (position : Position) (c : Context) (v w : Value) : Prop where
  outcome : (evaluate call position false v).outcome c = (.ok w, c)
  text : w.text = v.text
  notNull : w.isNull = false
  joined : w.isCommaList = v.isCommaList

variable {call : Caller} {position : Position} {c : Context} {f : Value → Value}

/-! ## Steps that leave the context alone -/

theorem Compile.outcome_mapM_ok {α β γ : Type} {make : γ → α} {run : α → Compile β} {g : γ → β}
    {xs : List γ} (h : ∀ x ∈ xs, (run (make x)).outcome c = (.ok (g x), c)) :
    ((xs.map make).mapM run).outcome c = (.ok (xs.map g), c) := by
  induction xs with
  | nil => rfl
  | cons x xs ih =>
      obtain ⟨hx, hxs⟩ := List.forall_mem_cons.mp h
      rw [List.map_cons, List.mapM_cons, outcome_bind_ok hx, outcome_bind_ok (ih hxs)]
      rfl

/-! ## Texts put together -/

theorem itemsText_visible {v : Value} (hnull : v.isNull = false) (hcomma : v.isCommaList = false)
    (separator : ListSeparator) (joined : Bool) (rest : List Value) :
    itemsText separator joined (v :: rest) =
      (if joined then separator.joint else "") ++ v.text ++ itemsText separator true rest := by
  simp [itemsText, hnull, hcomma]

theorem tokensText_append (front rest : List (ExprToken Value)) :
    tokensText (front ++ rest) = tokensText front ++ tokensText rest := by
  induction front with
  | nil => rw [List.nil_append, tokensText, String.empty_append]
  | cons t front ih => cases t <;> simp only [List.cons_append, tokensText, ih, String.append_assoc]

/-! ## Lists and arguments -/

namespace Value.Passes

theorem itemsText {items : List Value} (h : ∀ v ∈ items, v.isNull = false)
    (hf : ∀ v ∈ items, v.Passes call position c (f v)) (separator : ListSeparator) (joined : Bool) :
    itemsText separator joined (items.map f) = Scss.itemsText separator joined items := by
  induction items generalizing joined with
  | nil => rfl
  | cons v items ih =>
      obtain ⟨hnull, hnulls⟩ := List.forall_mem_cons.mp h
      obtain ⟨hv, hvs⟩ := List.forall_mem_cons.mp hf
      simp only [List.map_cons, Scss.itemsText, hnull, hv.notNull, hv.text, hv.joined, ih hnulls hvs]

theorem argumentsText {arguments : List (Argument Value)}
    (hf : ∀ a ∈ arguments, a.value.Passes call position c (f a.value)) :
    argumentsText (arguments.map (Argument.map f)) = Scss.argumentsText arguments := by
  induction arguments with
  | nil => rfl
  | cons a rest ih =>
      obtain ⟨ha, hrest⟩ := List.forall_mem_cons.mp hf
      obtain ⟨name, v, splat⟩ := a
      simp only [List.map_cons, Argument.map, Scss.argumentsText, ha.text, ih hrest,
        List.isEmpty_map]

theorem runPlainArguments {arguments : List (Argument Value)}
    (hf : ∀ a ∈ arguments, a.value.Passes call position c (f a.value)) :
    (runPlainArguments (suspendArguments call position false arguments)).outcome c =
      (.ok (arguments.map (Argument.map f)), c) := by
  induction arguments with
  | nil => rfl
  | cons a rest ih =>
      obtain ⟨ha, hrest⟩ := List.forall_mem_cons.mp hf
      obtain ⟨name, v, splat⟩ := a
      rw [suspendArguments, Evaluation.runPlainArguments, outcome_bind_ok ha.outcome,
        outcome_bind_ok (ih hrest)]
      rfl

/-! ## Expressions -/

theorem tokensText {tokens : List (ExprToken Value)}
    (hf : ∀ v, .operand v ∈ tokens → v.Passes call position c (f v)) :
    tokensText (tokens.map (ExprToken.map f)) = Scss.tokensText tokens := by
  induction tokens with
  | nil => rfl
  | cons t rest ih =>
      have hrest := ih fun v hv => hf v (List.mem_cons_of_mem t hv)
      cases t with
      | operand v =>
          simp only [List.map_cons, ExprToken.map, Scss.tokensText, hrest,
            (hf v List.mem_cons_self).text]
      | operator op => simp only [List.map_cons, ExprToken.map, Scss.tokensText, hrest]
      | blank => simp only [List.map_cons, ExprToken.map, Scss.tokensText, hrest]

theorem runLiteral {tokens : List (ExprToken Value)}
    (hf : ∀ v, .operand v ∈ tokens → v.Passes call position c (f v)) :
    (runLiteral (tokens.map (ExprToken.map (suspend call position false)))).outcome c =
      (.ok (Value.ofTokens (tokens.map (ExprToken.map f))), c) := by
  rw [Evaluation.runLiteral]
  refine outcome_bind_ok (outcome_mapM_ok fun t ht => ?_)
  cases t with
  | operand v => exact outcome_bind_ok (hf v ht).outcome
  | operator op => rfl
  | blank => rfl

/-- A group is written without the blank behind it. -/
theorem group {g back : List (ExprToken Value)} (hg : IsSpaced g) (hne : g ≠ [])
    (hback : back = [] ∨ back = [.blank]) (hjoined : ∀ v, .operand v ∈ g → v.isCommaList = false)
    (hf : ∀ v, .operand v ∈ g → v.Passes call position c (f v)) :
    (Value.ofTokens ((g ++ back).map (ExprToken.map f))).text = Scss.tokensText g ∧
      (Value.ofTokens ((g ++ back).map (ExprToken.map f))).isNull = false ∧
      (Value.ofTokens ((g ++ back).map (ExprToken.map f))).isCommaList = false := by
  -- the blank behind the group is what is trimmed, and nothing else
  have htrim : ExprToken.trim ((g ++ back).map (ExprToken.map f)) = g.map (ExprToken.map f) := by
    rcases hback with rfl | rfl
    · rw [List.append_nil, ExprToken.trim_eq_self (hg.map f)]
    · rw [List.map_append]
      exact (ExprToken.trim_concat_blank _).trans (ExprToken.trim_eq_self (hg.map f))
  rcases Value.ofTokens_cases ((g ++ back).map (ExprToken.map f)) with
    ⟨hnil, -⟩ | ⟨w, hsingle, hvalue⟩ | ⟨-, hvalue⟩
  · rw [htrim, List.map_eq_nil_iff] at hnil
    exact absurd hnil hne
  · -- a group of one operand
    obtain ⟨t, ht, hw⟩ := List.map_eq_singleton_iff.mp (htrim.symm.trans hsingle)
    subst ht
    cases t with
    | operand v =>
        obtain rfl := ExprToken.operand.inj hw
        have hv := hf v List.mem_cons_self
        rw [hvalue, hv.text, hv.joined, Scss.tokensText, Scss.tokensText, String.append_empty]
        exact ⟨rfl, hv.notNull, hjoined v List.mem_cons_self⟩
    | operator op => cases hw
    | blank => cases hw
  · rw [hvalue, htrim, Value.text, tokensText hf]
    exact ⟨rfl, rfl, rfl⟩

/-- The groups of an expression make a list that is written as the expression. -/
theorem groups {tokens : List (ExprToken Value)} {gs : List (List (ExprToken Value))}
    (h : Parted tokens gs) (hjoined : ∀ v, .operand v ∈ tokens → v.isCommaList = false)
    (hf : ∀ v, .operand v ∈ tokens → v.Passes call position c (f v)) :
    (∀ w ∈ gs.map fun g => Value.ofTokens (g.map (ExprToken.map f)),
      w.isNull = false ∧ w.isCommaList = false) ∧
    ∀ joined, Scss.itemsText .space joined
        (gs.map fun g => Value.ofTokens (g.map (ExprToken.map f))) =
      (if joined then " " else "") ++ Scss.tokensText tokens := by
  induction h with
  | @last g hg hne =>
      obtain ⟨htext, hnull, hcomma⟩ := group hg hne (.inl rfl) hjoined hf
      rw [List.append_nil] at htext hnull hcomma
      refine ⟨List.forall_mem_singleton.mpr ⟨hnull, hcomma⟩, fun joined => ?_⟩
      rw [List.map_singleton, itemsText_visible hnull hcomma, htext, Scss.itemsText,
        String.append_empty]
      rfl
  | @more g rest gs hg hne hrest ih =>
      have hin : ∀ {v : Value}, .operand v ∈ g → .operand v ∈ g ++ .blank :: rest :=
        fun hv => List.mem_append_left _ hv
      have hbehind : ∀ {v : Value}, .operand v ∈ rest → .operand v ∈ g ++ .blank :: rest :=
        fun hv => List.mem_append_right _ (List.mem_cons_of_mem _ hv)
      obtain ⟨htext, hnull, hcomma⟩ := group hg hne (.inr rfl)
        (fun v hv => hjoined v (hin hv)) fun v hv => hf v (hin hv)
      obtain ⟨hvisible, hitems⟩ :=
        ih (fun v hv => hjoined v (hbehind hv)) fun v hv => hf v (hbehind hv)
      -- the list writes a blank in front of the next group, where the expression has one
      refine ⟨List.forall_mem_cons.mpr ⟨⟨hnull, hcomma⟩, hvisible⟩, fun joined => ?_⟩
      rw [List.map_cons, itemsText_visible hnull hcomma, htext, hitems, tokensText_append,
        Scss.tokensText, String.append_assoc]
      rfl

end Value.Passes

/-! ## Evaluating plain values -/

theorem isNull_of_isPlainPart {v : Value} (h : v.IsPlainPart c) : v.isNull = false := by
  cases v with
  | null => exact h.elim
  | _ => rfl

/-- An expression that asks for nothing to be computed becomes its groups. -/
theorem expression_passes {tokens : List (ExprToken Value)}
    (hkept : (Value.expression tokens).isArithmetic = false) (hne : tokens ≠ [])
    (hspaced : IsSpaced tokens) (hjoined : ∀ v, .operand v ∈ tokens → v.isCommaList = false)
    (hf : ∀ v, .operand v ∈ tokens → v.Passes call position c (f v)) :
    ∃ w, (Value.expression tokens).Passes call position c w := by
  have hvalues : ((spaceGroups (suspendTokens call position false tokens)).mapM runLiteral).outcome c =
      (.ok ((spaceGroups tokens).map fun g => Value.ofTokens (g.map (ExprToken.map f))), c) := by
    have htokens : ∀ t ∈ tokens, t.Holds fun v : Value => v.Passes call position c (f v) := by
      intro t ht
      cases t with
      | operand v => exact hf v ht
      | operator op => trivial
      | blank => trivial
    have hgroups := spaceGroups_holds htokens
    rw [suspendTokens_eq_map, spaceGroups_map]
    exact outcome_mapM_ok fun g hg => Value.Passes.runLiteral fun v hv => hgroups g hg _ hv
  obtain ⟨hvisible, htext⟩ := Value.Passes.groups (spaceGroups_parted hspaced hne) hjoined hf
  have hsome : ((spaceGroups tokens).map fun g => Value.ofTokens (g.map (ExprToken.map f))) ≠ [] :=
    mt List.map_eq_nil_iff.mp (spaceGroups_parted hspaced hne).ne_nil
  generalize ((spaceGroups tokens).map fun g => Value.ofTokens (g.map (ExprToken.map f))) = values
    at hvalues hvisible htext hsome
  have hrun : evaluate call position false (.expression tokens) =
      runExpression position false (suspendTokens call position false tokens) := by
    rw [evaluate, hkept]
    rfl
  -- a single group is the value itself, and several become a list
  cases values with
  | nil => exact absurd rfl hsome
  | cons w rest =>
      cases rest with
      | nil =>
          obtain ⟨hnull, hcomma⟩ := hvisible w List.mem_cons_self
          refine ⟨w, ?_, ?_, hnull, hcomma⟩
          · rw [hrun, runExpression]
            exact outcome_bind_ok hvalues
          · have h := htext false
            rw [itemsText_visible hnull hcomma, itemsText, String.append_empty] at h
            simpa [Value.text] using h
      | cons w' rest =>
          refine ⟨.list (w :: w' :: rest) .space, ?_, ?_, rfl, rfl⟩
          · rw [hrun, runExpression]
            exact outcome_bind_ok hvalues
          · rw [Value.text, Value.text, htext false]
            exact String.empty_append

/-- **A plain value that was read evaluates to one that is written as it is.** -/
theorem exists_passes (call : Caller) (position : Position) {v : Value} (hlaid : v.All Value.IsLaidOut)
    (hplain : v.All (Value.IsPlainPart c)) : ∃ w, v.Passes call position c w := by
  induction hlaid with
  | @mk v laid _ ih =>
      obtain ⟨plain, hplain⟩ := hplain
      -- what the values in it evaluate to, as a function of them
      choose! f hf using fun w hw => ih w hw (hplain w hw)
      cases v with
      -- no part of this kind is plain
      | null => exact plain.elim
      | «variable» name => exact plain.elim
      | paren inner => exact plain.elim
      | number n => exact ⟨_, rfl, rfl, rfl, rfl⟩
      | color color => exact ⟨_, rfl, rfl, rfl, rfl⟩
      | quoted text quote => exact ⟨_, rfl, rfl, rfl, rfl⟩
      | word text => exact ⟨_, rfl, rfl, rfl, rfl⟩
      | interpolated pieces quote =>
          have hrun : (runText (suspendParts call position pieces)).outcome c =
              (.ok (Interpolation.text pieces), c) := interpolate_plain call position plain c
          cases quote with
          | none =>
              refine ⟨.word (Interpolation.text pieces), ?_, rfl, rfl, rfl⟩
              rw [evaluate, outcome_bind_ok hrun]
              rfl
          | some q =>
              refine ⟨.quoted (Interpolation.text pieces) q, ?_, rfl, rfl, rfl⟩
              rw [evaluate, outcome_bind_ok hrun]
              rfl
      | call name arguments =>
          have hvalues : ∀ a ∈ arguments, a.value.Passes call position c (f a.value) :=
            fun a ha => hf a.value (List.mem_map_of_mem ha)
          refine ⟨.call name (arguments.map (Argument.map f)), ?_, ?_, rfl, rfl⟩
          · rw [evaluate, runCall, outcome_scopes_bind, plain.1, plain.2]
            exact outcome_bind_ok (Value.Passes.runPlainArguments hvalues)
          · rw [Value.text, Value.text, Value.Passes.argumentsText hvalues]
      | list items separator =>
          have hnull : ∀ v ∈ items, v.isNull = false := by
            intro v hv
            obtain ⟨own, -⟩ := hplain v hv
            exact isNull_of_isPlainPart own
          refine ⟨.list (items.map f) separator, ?_, ?_, rfl, ?_⟩
          · rw [evaluate, suspendItems_eq_map]
            exact outcome_bind_ok (outcome_mapM_ok fun v hv => (hf v hv).outcome)
          · rw [Value.text, Value.text, Value.Passes.itemsText hnull hf]
          · cases separator <;> simp [Value.isCommaList]
      | expression tokens =>
          obtain ⟨hne, hspaced, hjoined⟩ := laid
          exact expression_passes plain hne hspaced hjoined fun v hv =>
            hf v (ExprToken.mem_operands.mpr hv)

/-- **Plain CSS passes through.** A value that was read, in which nothing is to be replaced or computed,
is evaluated in every context in which none of its calls is known. That succeeds, leaves the context as
it is, and gives a value that is written as the one that was read. -/
theorem readValue_passes {text : String} {origin : Position} {v : Value}
    (hread : Grammar.readValue text origin = .ok v) (call : Caller) (position : Position) {c : Context}
    (hplain : v.All (Value.IsPlainPart c)) :
    ∃ w, (evaluate call position false v).outcome c = (.ok w, c) ∧ w.text = v.text := by
  obtain ⟨w, hw⟩ := exists_passes call position (Grammar.readValue_laidOut hread) hplain
  exact ⟨w, hw.outcome, hw.text⟩

/-- `a/b c(d) / , f`. -/
def slashed : Value :=
  .list [.expression [.operand (.word "a"), .operator .divide, .operand (.word "b"), .blank,
    .operand (.call "c" [.positional (.word "d")]), .blank, .operator .divide], .word "f"] .comma

/-- The slashes and the blanks around them stay. -/
theorem slashed_passes :
    Grammar.readValue "a/b  c( d) / ,f" default = .ok slashed ∧
      slashed.All (Value.IsPlainPart .isolated) ∧
      ∃ w, (evaluate (invoke maxCallDepth) default false slashed).outcome .isolated =
        (.ok w, .isolated) ∧ w.text = "a/b c(d) /, f" := by
  have hread : Grammar.readValue "a/b  c( d) / ,f" default = .ok slashed := by cbv
  have hword : ∀ text, (Value.word text).All (Value.IsPlainPart .isolated) :=
    fun _ => .mk trivial fun _ h => absurd h List.not_mem_nil
  have hcall : (Value.call "c" [.positional (.word "d")]).All (Value.IsPlainPart .isolated) :=
    .mk ⟨rfl, by decide⟩ (List.forall_mem_singleton.mpr (hword "d"))
  have hplain : slashed.All (Value.IsPlainPart .isolated) := by
    refine .mk trivial (List.forall_mem_cons.mpr ⟨.mk rfl ?_, List.forall_mem_singleton.mpr (hword "f")⟩)
    exact List.forall_mem_cons.mpr ⟨hword "a", List.forall_mem_cons.mpr ⟨hword "b",
      List.forall_mem_singleton.mpr hcall⟩⟩
  obtain ⟨w, hw, htext⟩ := readValue_passes hread (invoke maxCallDepth) default hplain
  exact ⟨hread, hplain, w, hw, htext.trans (by cbv)⟩

end Scss
