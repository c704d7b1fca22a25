import Scss.Proofs.Placement
import Scss.Proofs.RuleSelectors
import Scss.Proofs.VacantFrames

/-!
# Extending from inside a directive

A directive that moves out of its rule repeats the rule in its body. For what is evaluated there nothing
changes: two more frames are in front of the rule, and they bind no name. So an `@extend` in such
directives has the targets that it would have behind their texts, and it is recorded for the same
selectors (`effect_nestDirectives`).

The rule that is repeated stands at the top level, however, so no selectors are around it. An extension
is recorded with the selectors around its rule, which tell how much of their ancestry two selectors
share. These get lost as soon as one directive is between the `@extend` and its rule.
-/

namespace Scss

namespace Compile

variable {α β : Type}

/-- What a computation does besides giving a result: whether it fails, and the context it leaves. -/
def effect (m : Compile α) (c : Context) : Except Failure Unit × Context :=
  ((m.outcome c).1.map fun _ => (), (m.outcome c).2)

theorem effect_unit (m : Compile Unit) (c : Context) : m.effect c = m.outcome c := by
  unfold effect
  rcases m.outcome c with ⟨_ | _, d⟩ <;> rfl

theorem effect_bind (m : Compile α) (f : α → Compile β) (c : Context) :
    (m >>= f).effect c = match m.outcome c with
      | (.ok a, d) => (f a).effect d
      | (.error failure, d) => (.error failure, d) := by
  rw [effect, outcome_bind]
  rcases m.outcome c with ⟨_ | _, d⟩ <;> rfl

/-- What is made of the result has no effect. -/
theorem effect_bind_pure (m : Compile α) (f : α → β) (c : Context) :
    (m >>= fun a => pure (f a)).effect c = m.effect c := by
  rw [effect_bind, effect]
  rcases m.outcome c with ⟨_ | _, d⟩ <;> rfl

end Compile

/-- The context with more extensions recorded. -/
def Context.addExtensions (c : Context) (extensions : List Extension) : Context :=
  { c with extensions := c.extensions ++ extensions }

theorem Context.addExtensions_nil (c : Context) : c.addExtensions [] = c := by
  rw [addExtensions, List.append_nil]

theorem Context.addExtensions_append (c : Context) (front back : List Extension) :
    (c.addExtensions front).addExtensions back = c.addExtensions (front ++ back) := by
  simp only [addExtensions, List.append_assoc]

theorem Context.addExtensions_inj {c : Context} {es es' : List Extension} :
    c.addExtensions es = c.addExtensions es' ↔ es = es' := by
  constructor
  · intro h
    exact List.append_cancel_left (congrArg Context.extensions h)
  · exact congrArg c.addExtensions

/-- Statements in this context stand in a rule with some selectors, which stands in a rule with those
around. At the top level there are none around. -/
structure Context.StandsIn (c : Context) (selectors around : List Selector) : Prop where
  parent : c.scopes.parent = .rule selectors around
  resolved : Resolved selectors

namespace Flatten

open Compile Context Evaluation

/-! ## Recording -/

section
variable (position : Position) (isOptional : Bool) (selectors around : List Selector)

/-- What an `@extend` records: each of its targets, with each selector of its rule. -/
def recorded (targets : List Compound) : List Extension :=
  targets.flatMap fun target => selectors.map fun s => ⟨target, s, around, isOptional, position⟩

/-- Records one target with each selector of the rule. -/
def recordTarget (target : Selector) : Compile Unit :=
  match target.compound? with
  | none => throw (.parse position (.nestedTarget target.text))
  | some compound =>
    selectors.forM fun s => modify (·.addExtension ⟨compound, s, around, isOptional, position⟩)

/-- Records an `@extend` in a rule with these selectors. -/
def recordIn (call : Caller) (target : SelectorSource) : Compile Unit := do
  (← sourceSelectors call position target).forM (recordTarget position isOptional selectors around)

theorem outcome_addEach (target : Compound) (c : Context) :
    (selectors.forM fun s => (modify (·.addExtension ⟨target, s, around, isOptional, position⟩) :
        Compile Unit)).outcome c =
      (.ok (), c.addExtensions (recorded position isOptional selectors around [target])) := by
  unfold recorded
  rw [List.flatMap_singleton]
  induction selectors generalizing c with
  | nil => exact congrArg (Prod.mk _) (addExtensions_nil c).symm
  | cons s rest ih =>
      refine (ih (c.addExtension ⟨target, s, around, isOptional, position⟩)).trans ?_
      exact congrArg (Prod.mk _) (addExtensions_append c [_] _)

/-- Which of the targets are recorded, and whether it fails then, depends only on the targets. -/
theorem exists_recorded (targets : List Selector) : ∃ result compounds, ∀ around c,
    (targets.forM (recordTarget position isOptional selectors around)).outcome c =
      (result, c.addExtensions (recorded position isOptional selectors around compounds)) := by
  induction targets with
  | nil => exact ⟨.ok (), [], fun around c => congrArg (Prod.mk _) (addExtensions_nil c).symm⟩
  | cons t rest ih =>
      obtain ⟨result, compounds, hrest⟩ := ih
      have hsteps : ∀ around, (t :: rest).forM (recordTarget position isOptional selectors around) =
          recordTarget position isOptional selectors around t >>= fun _ =>
            rest.forM (recordTarget position isOptional selectors around) := fun _ => rfl
      -- nothing is recorded any more behind a target that is no compound
      cases ht : t.compound? with
      | none =>
          refine ⟨.error (.parse position (.nestedTarget t.text)), [], fun around c => ?_⟩
          rw [hsteps, recordTarget, ht]
          exact congrArg (Prod.mk _) (addExtensions_nil c).symm
      | some compound =>
          refine ⟨result, compound :: compounds, fun around c => ?_⟩
          rw [hsteps, recordTarget, ht]
          have hfirst := outcome_addEach position isOptional selectors around compound c
          refine (outcome_bind_ok hfirst).trans ((hrest around _).trans ?_)
          rw [addExtensions_append]
          simp only [recorded, List.flatMap_cons, List.flatMap_nil, List.append_nil]

end

/-- Two rules record the same if they record nothing, or if the same selectors are around them. -/
theorem recorded_inj {position : Position} {isOptional : Bool}
    {selectors around around' : List Selector} {compounds : List Compound} (h : selectors ≠ []) :
    recorded position isOptional selectors around compounds =
        recorded position isOptional selectors around' compounds ↔
      around = around' ∨ compounds = [] := by
  constructor
  · intro heq
    obtain ⟨s, rest, rfl⟩ := List.exists_cons_of_ne_nil h
    cases compounds with
    | nil => exact Or.inr rfl
    | cons target later =>
        -- the first extension that is recorded tells what is around
        rw [recorded, recorded, List.flatMap_cons, List.flatMap_cons, List.map_cons, List.map_cons,
          List.cons_append, List.cons_append] at heq
        exact Or.inl (congrArg Extension.context (List.cons.inj heq).1)
  · rintro (rfl | rfl) <;> rfl

/-! ## Statements in a rule -/

section
variable {c d : Context} {selectors around : List Selector}

theorem standsIn_of_follows (h : c.StandsIn selectors around) (hd : Follows c d) :
    d.StandsIn selectors around :=
  ⟨hd.scopes.parent_eq.trans h.parent, h.resolved⟩

/-- A rule with selectors expands its body in a scope of its own. -/
theorem outcome_expandRule (h : selectors ≠ []) (position : Position) (outer : List Selector)
    (body : Compile (List Node)) (c : Context) :
    (expandRule position selectors outer body).outcome c =
      let inner := body.outcome (enteredRule (.rule selectors outer) c)
      (inner.1.map (splitRule position selectors), left inner.2) := by
  rw [expandRule, if_neg (by simpa using h), outcome_bind, outcome_inRule]
  rcases body.outcome (enteredRule (.rule selectors outer) c) with ⟨_ | _, d⟩ <;> rfl

/-- **The body of a rule stands in the rule**, which stands in the rule around. -/
theorem exists_standsIn (hc : c.IsClean) {own : List Selector}
    (hown : resolveRule c.scopes.parent.selectors? own = .ok selectors) (hne : selectors ≠ [])
    (position : Position) :
    ∃ d : Context, d.StandsIn selectors (c.scopes.parent.selectors?.getD []) ∧
      d.extensions = c.extensions ∧ ∀ body, (flattenRule position own body).outcome c =
        ((body.outcome d).1.map (splitRule position selectors), left (body.outcome d).2) := by
  cases hparent : c.scopes.parent with
  | topLevel =>
      rw [hparent] at hown
      obtain rfl := Except.ok.inj hown
      obtain ⟨warnings, hstrip⟩ := strip_outcome position own c
      refine ⟨enteredRule (.rule (stripped own) []) { c with warnings },
        ⟨rfl, hne, stripped_noParent own⟩, rfl, fun body => ?_⟩
      rw [outcome_flattenRule, hparent]
      exact (outcome_bind_ok hstrip).trans (outcome_expandRule hne position [] body _)
  | rule parents outer =>
      rw [hparent] at hown
      have hnest : nest own parents = .ok selectors := hown
      refine ⟨enteredRule (.rule selectors parents) c,
        ⟨rfl, hne, nest_noParent hnest (hc.parent hparent)⟩, rfl, fun body => ?_⟩
      rw [outcome_flattenRule, hparent]
      dsimp only
      rw [hnest]
      exact outcome_expandRule hne position parents body c

theorem outcome_recordExtend (h : c.StandsIn selectors around) (call : Caller) (position : Position)
    (target : SelectorSource) (isOptional : Bool) :
    (recordExtend call position target isOptional).outcome c =
      (recordIn position isOptional selectors around call target).outcome c := by
  rw [recordExtend, outcome_scopes_bind, h.parent]
  rfl

/-- The frames of a directive that has moved out of a rule, and of the rule that is repeated there. -/
def repeatedFrames (selectors : List Selector) : List Frame :=
  [{ Frame.empty with parent := some (.rule selectors []) },
    { Frame.empty with parent := some .topLevel }]

theorem repeatedFrames_vacant (selectors : List Selector) :
    ∀ f ∈ repeatedFrames selectors, f.IsVacant :=
  List.forall_mem_cons.mpr ⟨⟨rfl, rfl⟩, List.forall_mem_singleton.mpr ⟨rfl, rfl⟩⟩

/-- The rule that is repeated has the same selectors, but it stands at the top level. -/
theorem standsIn_repeated (h : c.StandsIn selectors around) :
    (c.insert (repeatedFrames selectors) 0).StandsIn selectors [] :=
  ⟨rfl, h.resolved⟩

/-- The body of a directive that moves out of a rule is expanded behind two more frames. -/
theorem outcome_flattenBubbling (h : c.StandsIn selectors around) (position : Position)
    (body : Compile (List Node)) :
    (flattenBubbling position body).outcome c =
      let inner := body.outcome (c.insert (repeatedFrames selectors) 0)
      (inner.1.map (splitRule position selectors), left (left inner.2)) := by
  -- the rule is resolved a second time, at the top level, where selectors without `&` stay as they are
  have hstrip := strip_eq_self position h.resolved.noParent (enteredRule .topLevel c)
  have hframes : enteredRule (.rule selectors []) (enteredRule .topLevel c) =
      c.insert (repeatedFrames selectors) 0 := rfl
  have hrule : (flattenRule position selectors body).outcome (enteredRule .topLevel c) =
      let inner := body.outcome (c.insert (repeatedFrames selectors) 0)
      (inner.1.map (splitRule position selectors), left inner.2) := by
    rw [outcome_flattenRule]
    refine (outcome_bind_ok hstrip).trans ?_
    rw [outcome_expandRule h.resolved.nonempty, hframes]
  rw [flattenBubbling, outcome_scopes_bind, h.parent]
  dsimp only
  rw [outcome_inRule, hrule]

/-- A directive that moves out of a rule has the effect of its body, if that is one that overlooks the
frames in front of the rule. -/
theorem effect_flattenBubbling (h : c.StandsIn selectors around) (position : Position)
    {body : Compile (List Node)} {m : Compile Unit}
    (hm : Overlooks (repeatedFrames selectors) 0 m)
    (hbody : body.effect (c.insert (repeatedFrames selectors) 0) =
      m.outcome (c.insert (repeatedFrames selectors) 0)) :
    (flattenBubbling position body).effect c = m.outcome c := by
  obtain ⟨-, hsame⟩ := hm 0 (Nat.le_refl 0) c (Nat.zero_le _)
  -- the frames that are left again are the two that are overlooked
  rw [hsame] at hbody
  obtain ⟨hresult, hleft⟩ := Prod.mk.inj hbody
  rw [effect, outcome_flattenBubbling h]
  dsimp only
  rw [hleft]
  refine Prod.ext ?_ rfl
  show Except.map _ (Except.map _ _) = _
  rw [← hresult]
  cases (body.outcome (c.insert (repeatedFrames selectors) 0)).1 <;> rfl

end

/-! ## Directives in a rule -/

/-- A directive that moves out of the rule around it: a media directive, or an at-rule that does not
keep its body. -/
inductive Directive where
  | media (query : Interpolation)
  | atRule (name : String) (prelude : Interpolation) (moves : keepsOwnBody name = false)

namespace Directive

/-- What is written in front of the body. -/
def text : Directive → Interpolation
  | media query => query
  | atRule _ prelude _ => prelude

def around (body : List Node) : Directive → Statement
  | media query => .media query body
  | atRule name prelude _ => .atRule name prelude (some body)

/-- What is left of a directive, with its body expanded. -/
def expanded (position : Position) (text : String) (body : List Node) : Directive → List Node
  | media _ => splitMedia position (Text.trim text) body
  | atRule name _ _ =>
    [.mk position (.atRule name (Interpolation.literal (Text.trim text)) (some body))]

theorem flattenStatement_around (s : Site) (position : Position) (d : Directive) (body : List Node) :
    flattenStatement s position (d.around body) = do
      let text ← interpolate s.caller position d.text
      let inner ← flattenBubbling position (flattenNodes s body)
      return d.expanded position text inner := by
  cases d with
  | media query => rw [around, flattenStatement]; rfl
  | atRule name prelude moves =>
      rw [around, flattenStatement, moves]
      rfl

end Directive

/-- Directives in each other, the outermost first, around a body. -/
def nestDirectives (directives : List (Position × Directive)) (body : List Node) : List Node :=
  directives.foldr (fun d inner => [.mk d.1 (d.2.around inner)]) body

/-- Evaluates the texts of directives, without their bodies. -/
def evaluateTexts (call : Caller) (directives : List (Position × Directive)) : Compile Unit :=
  directives.forM fun d => do
    let _ ← interpolate call d.1 d.2.text
    return ()

theorem evaluateTexts_cons (call : Caller) (d : Position × Directive)
    (rest : List (Position × Directive)) : evaluateTexts call (d :: rest) =
      interpolate call d.1 d.2.text >>= fun _ => evaluateTexts call rest := by
  show ((interpolate call d.1 d.2.text >>= fun _ => pure ()) >>= fun _ =>
    evaluateTexts call rest) = _
  rw [bind_assoc]
  simp only [pure_bind]

/-- Texts without expressions have nothing to be evaluated. -/
theorem evaluateTexts_plain (call : Caller) {directives : List (Position × Directive)}
    (h : ∀ d ∈ directives, Interpolation.isPlain d.2.text = true) (c : Context) :
    (evaluateTexts call directives).outcome c = (.ok (), c) := by
  induction directives with
  | nil => rfl
  | cons d rest ih =>
      obtain ⟨hd, hrest⟩ := List.forall_mem_cons.mp h
      rw [evaluateTexts_cons, outcome_bind_ok (interpolate_plain call d.1 hd c)]
      exact ih hrest

theorem evaluateTexts_keeps {N : ∀ {α : Type}, Compile α → Prop} (hN : Evaluating (fun _ => True) N)
    {call : Caller} (hcall : CallerKeeps (fun _ => True) N call)
    (directives : List (Position × Directive)) : N (evaluateTexts call directives) :=
  hN.forM fun d _ => hN.bind (interpolate_keeps hN hcall d.1 d.2.text) fun _ => hN.pure ()

theorem recordIn_overlooks {added : List Frame} (hadded : ∀ f ∈ added, f.IsVacant) (calls : Nat)
    (position : Position) (isOptional : Bool) (selectors around : List Selector)
    (target : SelectorSource) :
    Overlooks added 0 (recordIn position isOptional selectors around (invoke calls) target) := by
  have hN : Evaluating (fun _ => True) (Overlooks added 0) := evaluating_overlook hadded
  refine hN.bind (sourceSelectors_keeps hN (invoke_overlooks hadded calls) position target)
    fun targets => hN.forM fun t _ => ?_
  unfold recordTarget
  split
  · exact hN.throw _
  · exact hN.forM fun s _ _ _ _ hc => ⟨hc, rfl⟩

section
variable {s : Site} {position : Position} {target : SelectorSource} {isOptional : Bool}
  {selectors around : List Selector} {c : Context}

theorem effect_flattenNodes_singleton (s : Site) (n : Node) (c : Context) :
    (flattenNodes s [n]).effect c = (flattenNode s n).effect c := by
  rw [flattenNodes, flattenNodes]
  simp only [pure_bind]
  exact effect_bind_pure _ _ c

/-- **In directives, an `@extend` does what it does behind their texts**, but for the selectors around
its rule. -/
theorem effect_nestDirectives (h : c.StandsIn selectors around)
    (directives : List (Position × Directive)) :
    (flattenNodes s (nestDirectives directives
        [.mk position (.extend target isOptional)])).effect c =
      (do
        evaluateTexts s.caller directives
        recordIn position isOptional selectors (if directives.isEmpty then around else []) s.caller
          target).outcome c := by
  -- in the first directive nothing is around the rule any more, and so it is in all others
  induction directives generalizing c around with
  | nil =>
      refine (effect_flattenNodes_singleton s _ c).trans ?_
      rw [flattenNode, flattenStatement]
      refine (effect_bind_pure _ _ c).trans ?_
      rw [effect_unit, outcome_recordExtend h]
      rfl
  | cons d rest ih =>
      refine (effect_flattenNodes_singleton s _ c).trans ?_
      rw [flattenNode, Directive.flattenStatement_around, effect_bind, evaluateTexts_cons, bind_assoc,
        outcome_bind]
      rcases htext : (interpolate s.caller d.1 d.2.text).outcome c with ⟨_ | text, e⟩
      · rfl
      · -- behind the text, statements stand in the same rule as before
        have hcall : CallerKeeps _ _ s.caller := invoke_keeps executing_follows s.calls
        have hkeeps := interpolate_keeps executing_follows.toEvaluating hcall d.1 d.2.text c
        rw [htext] at hkeeps
        have hstands := standsIn_of_follows h hkeeps
        have hvacant := repeatedFrames_vacant selectors
        refine (effect_bind_pure _ _ e).trans (effect_flattenBubbling hstands d.1 ?_ ?_)
        · refine steps_overlook.bind ?_ fun _ =>
            recordIn_overlooks hvacant s.calls position isOptional selectors [] target
          exact evaluateTexts_keeps (evaluating_overlook hvacant) (invoke_overlooks hvacant s.calls)
            rest
        · have hrest := ih (standsIn_repeated hstands)
          rw [ite_self] at hrest
          exact hrest

/-- Behind the texts of directives, a rule is the same. -/
theorem effect_behindTexts (h : c.StandsIn selectors around)
    (directives : List (Position × Directive)) :
    (do
      evaluateTexts s.caller directives
      flattenNodes s [.mk position (.extend target isOptional)]).effect c =
      (do
        evaluateTexts s.caller directives
        recordIn position isOptional selectors around s.caller target).outcome c := by
  rw [effect_bind, outcome_bind]
  rcases htexts : (evaluateTexts s.caller directives).outcome c with ⟨_ | _, e⟩
  · rfl
  · have hcall : CallerKeeps _ _ s.caller := invoke_keeps executing_follows s.calls
    have hkeeps := evaluateTexts_keeps executing_follows.toEvaluating hcall directives c
    rw [htexts] at hkeeps
    exact effect_nestDirectives (standsIn_of_follows h hkeeps) []

/-- Behind the texts of directives, an `@extend` records its targets with the selectors of the rule and
with those around it, and nothing else of it depends on those around. -/
theorem exists_recordIn (s : Site) (directives : List (Position × Directive)) (position : Position)
    (isOptional : Bool) (selectors : List Selector) (target : SelectorSource) (c : Context) :
    ∃ result, ∃ d : Context, ∃ compounds, d.extensions = c.extensions ∧ ∀ around,
      (do
        evaluateTexts s.caller directives
        recordIn position isOptional selectors around s.caller target).outcome c =
          (result, d.addExtensions (recorded position isOptional selectors around compounds)) := by
  have hE := executing_of_scoping scoping_extensions
  have hcall := invoke_keeps hE s.calls
  let read : Compile (List Selector) := do
    evaluateTexts s.caller directives
    sourceSelectors s.caller position target
  have hsteps : ∀ around, (do
      evaluateTexts s.caller directives
      recordIn position isOptional selectors around s.caller target) =
        read >>= fun targets => targets.forM (recordTarget position isOptional selectors around) :=
    fun around => (bind_assoc _ _ _).symm
  -- evaluating the texts and the target records nothing
  have hextensions : (read.outcome c).2.extensions = c.extensions :=
    hE.bind (evaluateTexts_keeps hE.toEvaluating hcall directives)
      (fun _ => sourceSelectors_keeps hE.toEvaluating hcall position target) c
  rcases hread : read.outcome c with ⟨failure | targets, d⟩
  · rw [hread] at hextensions
    refine ⟨.error failure, d, [], hextensions, fun around => ?_⟩
    rw [hsteps, outcome_bind_error hread]
    exact congrArg (Prod.mk _) (addExtensions_nil d).symm
  · rw [hread] at hextensions
    obtain ⟨result, compounds, hrecorded⟩ := exists_recorded position isOptional selectors targets
    refine ⟨result, d, compounds, hextensions, fun around => ?_⟩
    rw [hsteps, outcome_bind_ok hread, hrecorded]

/--
**An `@extend` records the same wherever it stands in its rule, but for the selectors around the rule.**

Let a rule be expanded in any context, with any selectors of its own. Its body stands in the rule with the
selectors that they are resolved to; and around are the selectors of the rule around, or none at the top
level. Wherever statements stand in this rule, an `@extend` is compared with one in any number of
directives that move out of the rule. In the place of the directives only their texts are evaluated.

Both succeed, or fail in the same way, and they leave the same context but for what is recorded. They
record the same targets with the same selectors, those of the rule, in the same order. But in directives
no selectors are recorded as those around the rule. So the contexts are the same if there are no
directives, or if there are no selectors around the rule, and otherwise only if nothing is recorded.
Where the texts are plain, nothing is to be evaluated in the place of the directives.
-/
theorem extend_in_directives (hc : c.IsClean) {own : List Selector}
    (hown : resolveRule c.scopes.parent.selectors? own = .ok selectors) (hne : selectors ≠ [])
    (s : Site) (directives : List (Position × Directive)) (position : Position)
    (target : SelectorSource) (isOptional : Bool) :
    let around := c.scopes.parent.selectors?.getD []
    (∀ place, ∃ d : Context, d.StandsIn selectors around ∧ d.extensions = c.extensions ∧
      ∀ body, (flattenRule place own body).outcome c =
        ((body.outcome d).1.map (splitRule place selectors), left (body.outcome d).2)) ∧
    ∀ d : Context, d.StandsIn selectors around →
      let extend : Node := .mk position (.extend target isOptional)
      let plain := (do evaluateTexts s.caller directives; flattenNodes s [extend]).effect d
      let moved := (flattenNodes s (nestDirectives directives [extend])).effect d
      moved.1 = plain.1 ∧ ∃ e : Context, ∃ compounds, e.extensions = d.extensions ∧
        plain.2 = e.addExtensions (recorded position isOptional selectors around compounds) ∧
        moved.2 = e.addExtensions (recorded position isOptional selectors
          (if directives.isEmpty then around else []) compounds) ∧
        (moved.2 = plain.2 ↔ directives = [] ∨ around = [] ∨ compounds = []) ∧
        ((∀ x ∈ directives, Interpolation.isPlain x.2.text = true) →
          plain = (flattenNodes s [extend]).effect d) := by
  refine ⟨exists_standsIn hc hown hne, fun d hd => ?_⟩
  intro extend plain moved
  have halone (hplain : ∀ x ∈ directives, Interpolation.isPlain x.2.text = true) :
      plain = (flattenNodes s [extend]).effect d := by
    show (evaluateTexts s.caller directives >>= fun _ => flattenNodes s [extend]).effect d = _
    rw [effect_bind, evaluateTexts_plain s.caller hplain]
  obtain ⟨result, e, compounds, hextensions, hrecorded⟩ :=
    exists_recordIn s directives position isOptional selectors target d
  have hplain : plain = _ := (effect_behindTexts hd directives).trans (hrecorded _)
  have hmoved : moved = _ := (effect_nestDirectives hd directives).trans (hrecorded _)
  have hresult : moved.1 = plain.1 := by rw [hplain, hmoved]
  refine ⟨hresult, e, compounds, hextensions, by rw [hplain], by rw [hmoved], ?_, halone⟩
  rw [hplain, hmoved]
  rw [addExtensions_inj, recorded_inj hne]
  cases directives with
  | nil => exact iff_of_true (Or.inl rfl) (Or.inl rfl)
  | cons first rest =>
      have hfilled : first :: rest ≠ [] := List.cons_ne_nil first rest
      exact ⟨fun h => Or.inr (h.imp_left Eq.symm), fun h => (h.resolve_left hfilled).imp_left Eq.symm⟩

end

/-- Elements with a class, the last of which is inside the others. -/
def classesWithin (first : String) (later : List String) : Selector :=
  ⟨⟨none, .ofClass first⟩ :: later.map fun name => ⟨some .descendant, .ofClass name⟩⟩

/-- The context in a rule with the selector `.a`. -/
def insideA : Context := enteredRule (.rule [.ofClass "a"] []) .isolated

theorem isClean_insideA : insideA.IsClean :=
  (isClean_new _ _ _).enteredRule fun selectors outer h => by
    obtain ⟨rfl, -⟩ := ParentBlock.rule.inj h
    exact List.forall_mem_singleton.mpr (by decide)

def extendX (column : Nat) : Node := .mk ⟨"", 1, column⟩ (.extend (.parsed [.ofClass "x"]) false)

/-- `@media print`, at a column. -/
def printAt (column : Nat) : Position × Directive := (⟨"", 1, column⟩, .media [.literal "print"])

/-- In `.b .y`, inside `.a`, an `@extend .x` is recorded with `.a` around. With `@media print` between it
and its rule, it is recorded with nothing around. -/
theorem extendInPrint_recorded :
    let d := enteredRule (.rule [classesWithin "a" ["b", "y"]] [.ofClass "a"]) insideA
    let plain := (do
      evaluateTexts (siteOf 0 0 0).caller [printAt 23]
      flattenNodes (siteOf 0 0 0) [extendX 36]).effect d
    let moved := (flattenNodes (siteOf 0 0 0) (nestDirectives [printAt 23] [extendX 36])).effect d
    insideA.IsClean ∧
      resolveRule insideA.scopes.parent.selectors? [classesWithin "b" ["y"]] =
        .ok [classesWithin "a" ["b", "y"]] ∧
      d.StandsIn [classesWithin "a" ["b", "y"]] [.ofClass "a"] ∧
      moved.1 = plain.1 ∧ plain.2.extensions.map Extension.context = [[.ofClass "a"]] ∧
      moved.2 ≠ plain.2 ∧ ∃ e : Context, ∃ compounds, plain.2 = e.addExtensions
        (recorded ⟨"", 1, 36⟩ false [classesWithin "a" ["b", "y"]] [.ofClass "a"] compounds) ∧
        moved.2 = e.addExtensions
          (recorded ⟨"", 1, 36⟩ false [classesWithin "a" ["b", "y"]] [] compounds) := by
  intro d plain moved
  have hown : resolveRule insideA.scopes.parent.selectors? [classesWithin "b" ["y"]] =
      .ok [classesWithin "a" ["b", "y"]] := by cbv
  have hstands : d.StandsIn [classesWithin "a" ["b", "y"]] [.ofClass "a"] :=
    ⟨rfl, List.cons_ne_nil _ _, List.forall_mem_singleton.mpr (by decide)⟩
  obtain ⟨-, hrecorded⟩ := extend_in_directives isClean_insideA hown (List.cons_ne_nil _ _)
    (siteOf 0 0 0) [printAt 23] ⟨"", 1, 36⟩ (.parsed [.ofClass "x"]) false
  obtain ⟨hresult, e, compounds, hextensions, hplain, hmoved, hsame, -⟩ := hrecorded d hstands
  have hcontext : plain.2.extensions.map Extension.context = [[.ofClass "a"]] := by cbv
  refine ⟨isClean_insideA, hown, hstands, hresult, hcontext, fun h => ?_, e, compounds, hplain, hmoved⟩
  -- one extension is recorded, and there is a rule around
  obtain hnone | hnone | rfl := hsame.mp h
  · cases hnone
  · cases hnone
  · have hnothing : plain.2.extensions = [] :=
      (congrArg Context.extensions (hplain.trans (addExtensions_nil e))).trans hextensions
    rw [hnothing] at hcontext
    cases hcontext

/-- `.a .c .x { p: q }`, and a body in `.a { .b .y { … } }`. -/
def besideExtended (body : List Node) : Stylesheet := ⟨"", none, [
  .mk ⟨"", 1, 1⟩ (.rule (.parsed [classesWithin "a" ["c", "x"]])
    [.mk ⟨"", 1, 10⟩ (.declaration [.literal "p"] (.word "q") false)]),
  .mk ⟨"", 1, 14⟩ (.rule (.parsed [.ofClass "a"])
    [.mk ⟨"", 1, 17⟩ (.rule (.parsed [classesWithin "b" ["y"]]) body)])]⟩

/-- What becomes of `.a .c .x`, if it is extended by one other selector. -/
def extendedBy (other : Selector) : List Node :=
  [.mk ⟨"", 1, 1⟩ (.rule (.parsed [classesWithin "a" ["c", "x"], other])
    [.mk ⟨"", 1, 10⟩ (.declaration [.literal "p"] (.word "q") false)])]

/-- If the rule `.b .y` inside `.a` extends `.x`, `.a .c .x` becomes `.a .c .x, .a .c .b .y`. If it does
so in a media directive, it is not known any more that both selectors are inside `.a`, and the other
selector is `.a .c .a .b .y`. -/
theorem extendInPrint_forgets : ∃ plain moved css css' c c',
    Stylesheet.read ".a .c .x\x7bp:q\x7d.a\x7b.b .y\x7b@extend .x\x7d\x7d" "" = .ok plain ∧
      Stylesheet.read ".a .c .x\x7bp:q\x7d.a\x7b.b .y\x7b@media print\x7b@extend .x\x7d\x7d\x7d" "" =
        .ok moved ∧
      plain.compile.outcome .isolated = (.ok css, c) ∧
      moved.compile.outcome .isolated = (.ok css', c') ∧
      c.extensions.map Extension.context = [[.ofClass "a"]] ∧
      c'.extensions.map Extension.context = [[]] ∧
      css.body = extendedBy (classesWithin "a" ["c", "b", "y"]) ∧
      css'.body = extendedBy (classesWithin "a" ["c", "a", "b", "y"]) := by
  obtain ⟨_, c, hplain, hcontext, rfl⟩ := Stylesheet.exists_compile
    (s := besideExtended [extendX 23]) (c := .isolated)
    (P := fun printed c => c.extensions.map Extension.context = [[.ofClass "a"]] ∧
      printed = extendedBy (classesWithin "a" ["c", "b", "y"]))
    fun site => ⟨_, _, _, _, by cbv, by decide, by cbv, by decide, by cbv⟩
  obtain ⟨_, c', hmoved, hcontext', rfl⟩ := Stylesheet.exists_compile
    (s := besideExtended (nestDirectives [printAt 23] [extendX 36])) (c := .isolated)
    (P := fun printed c => c.extensions.map Extension.context = [[]] ∧
      printed = extendedBy (classesWithin "a" ["c", "a", "b", "y"]))
    fun site => ⟨_, _, _, _, by cbv, by decide, by cbv, by decide, by cbv⟩
  exact ⟨besideExtended [extendX 23], besideExtended (nestDirectives [printAt 23] [extendX 36]),
    _, _, c, c', by cbv, by cbv, hplain, hmoved, hcontext, hcontext', rfl, rfl⟩

end Flatten

end Scss
