import Scss.Proofs.Code
import Scss.Proofs.PlainCss

/-!
# What holds of the selectors of all rules

A property of selectors that nesting keeps, and extending keeps, holds of every rule that a compile
leaves, if it holds of the selectors that the rules are written with. This is done here once for any
such property. Of the selectors as they are written more may be known (`Own`) than what holds of them
when they are resolved (`P`).

What has to be known of the context is that the selectors kept in it have the property: those of the
rules around, and those of extensions. And all code that can be run from it must have been written
with such selectors.
-/

namespace Scss

open Compile Context Evaluation Flatten

/-- Of selectors with the property `Own`, resolving makes such with the property `P`. -/
structure Selector.Nests (Own P : Selector → Prop) : Prop where
  own : ∀ {s : Selector}, Own s → P s
  strip : ∀ {s t : Selector}, P s → s.stripParents? = some t → P t
  resolve : ∀ {s parent t : Selector}, Own s → P parent → s.resolve parent = .ok t → P t

/-- The selectors that a source is read as have a property. Selectors with expressions in them are
read when the rule is expanded; whatever they are read as, this holds of it. -/
def SelectorSource.ReadsAs (Own : Selector → Prop) (source : SelectorSource) : Prop :=
  ∀ call position c own c',
    (sourceSelectors call position source).outcome c = (.ok own, c') → ∀ s ∈ own, Own s

/-- All selectors of a rule have a property, once they are known. -/
def Statement.RulesAre (P : Selector → Prop) : Statement → Prop
  | .rule (.parsed selectors) _ => ∀ s ∈ selectors, P s
  | .rule (.interpolated _) _ => False
  | _ => True

/-- What the selectors of a rule are known to be may be weakened. -/
theorem Statement.RulesAre.mono {P Q : Selector → Prop} (h : ∀ s, P s → Q s)
    {statement : Statement} (hs : statement.RulesAre P) : statement.RulesAre Q := by
  cases statement with
  | rule source body =>
      cases source with
      | parsed selectors => exact fun s hmem => h s (hs s hmem)
      | interpolated text => exact hs
  | _ => trivial

/-- All code of the context satisfies `S`, and the selectors that the context keeps satisfy `P`. -/
structure Context.RulesHold (S : Statement → Prop) (P : Selector → Prop) (c : Context) : Prop where
  code : c.AllCode S
  parents : ∀ f ∈ c.scopes.frames, ∀ selectors outer, f.parent = some (.rule selectors outer) →
    ∀ s ∈ selectors, P s
  extensions : ∀ e ∈ c.extensions, P e.extending

namespace Context.RulesHold

variable {S : Statement → Prop} {P : Selector → Prop} {c : Context} (hc : c.RulesHold S P)
include hc

theorem entered : (Compile.entered c).RulesHold S P :=
  ⟨hc.code.entered, Scopes.every_enter hc.parents (fun _ _ h => nomatch h),
    hc.extensions⟩

/-- The frame of a rule holds its selectors. -/
theorem enteredRule {parent : ParentBlock}
    (hparent : ∀ selectors outer, parent = .rule selectors outer → ∀ s ∈ selectors, P s) :
    (Compile.enteredRule parent c).RulesHold S P := by
  refine ⟨hc.code.entered.setParent parent, ?_, hc.extensions⟩
  intro f hf selectors outer h
  rcases List.mem_cons.mp hf with rfl | hf
  · exact hparent selectors outer (Option.some.inj h)
  · exact hc.parents f hf selectors outer h

theorem drop (count : Nat) :
    ({ c with scopes := { c.scopes with inner := c.scopes.inner.drop count } } : Context).RulesHold
      S P :=
  ⟨hc.code.drop count, fun f hf => hc.parents f (Scopes.mem_frames_of_drop hf), hc.extensions⟩

/-- The selectors of the rule around are those of its frame. -/
theorem parent {selectors outer : List Selector} (h : c.scopes.parent = .rule selectors outer) :
    ∀ s ∈ selectors, P s := by
  obtain ⟨f, hf, hparent⟩ := Scopes.exists_frame_of_parent h
  exact hc.parents f hf selectors outer hparent

end Context.RulesHold

/-- In a new context nothing is stored yet, so that all rules will come from what the resolver
reads. -/
theorem Context.rulesHold_new {S : Statement → Prop} (P : Selector → Prop) (urlMode : UrlMode)
    {resolver : Resolver} (maxImportDepth : Nat) (hread : ∀ {importer target found stylesheet},
      resolver importer target = .ok (some found) →
        Stylesheet.read found.content found.uri = .ok stylesheet → ∀ n ∈ stylesheet.body, n.All S) :
    (Context.new urlMode resolver maxImportDepth).RulesHold S P := by
  refine ⟨⟨fun f hf => ?_, fun _ h => absurd h List.not_mem_nil, hread⟩,
    fun f hf selectors outer h => ?_, fun _ h => absurd h List.not_mem_nil⟩
  · obtain rfl := List.mem_singleton.mp hf
    exact ⟨fun _ h => absurd h List.not_mem_nil, fun _ h => absurd h List.not_mem_nil⟩
  · obtain rfl := List.mem_singleton.mp hf
    cases h

/-! ## The first pass -/

section
variable {S : Statement → Prop} {Own P : Selector → Prop}

/-- From a context with such selectors, only such contexts are reached. -/
abbrev KeepsRules (S : Statement → Prop) (P : Selector → Prop) (c d : Context) : Prop :=
  c.RulesHold S P → d.RulesHold S P

theorem Compile.reading_rules : Reading S (Leaves (KeepsRules S P)) :=
  fun h c hc => h c hc.code c hc

/-- Nothing that a value or a function does sets up the frame of a rule. -/
theorem Compile.executing_rules :
    Executing S (Leaves (KeepsRules S P)) where
  toEvaluating := reading_rules.evaluating
    (Leaves.steps (fun _ hc => hc) fun _ _ _ h₁ h₂ hc => h₂ (h₁ hc))
  define name value c hc :=
    ⟨hc.code.define name value, Scopes.every_define hc.parents (fun _ _ h => h) name, hc.extensions⟩
  assign name value c hc :=
    ⟨hc.code.assign name value, Scopes.every_assign hc.parents (fun _ _ h => h) name, hc.extensions⟩
  setGlobal _ value c hc := ⟨hc.code.setGlobal _ value,
    Scopes.every_setGlobal hc.parents (fun _ _ h => h) _, hc.extensions⟩
  warn position message c hc := ⟨hc.code.warn position message, hc.parents, hc.extensions⟩
  inScope h c hc := (h (entered c) hc.entered).drop 1
  calling name position m h c hc := by
    rw [outcome_calling]
    cases hentered : c.enterCall name position with
    | error failure => exact hc
    | ok d =>
        have hcode := hc.code.enterCall hentered
        obtain ⟨-, rfl⟩ := of_enterCall hentered
        have hd := h _ ⟨hcode, hc.parents, hc.extensions⟩
        exact ⟨hd.code.exitCall, hd.parents, hd.extensions⟩

namespace Flatten

/-- The selectors of all rules in the statements have a property. -/
abbrev AllRules (P : Selector → Prop) (nodes : List Node) : Prop :=
  ∀ n ∈ nodes, n.All (Statement.RulesAre P)

/-- In a context with such selectors a computation leaves such a context, and its result satisfies
`Q`. -/
abbrev GivesRules {α : Type} (S : Statement → Prop) (P : Selector → Prop) (m : Compile α)
    (Q : α → Prop) : Prop := Agree (RulesHold S P) Q m m

theorem givesRules_of_leaves {α : Type} {m : Compile α} (h : Leaves (KeepsRules S P) m) :
    GivesRules S P m fun _ => True :=
  fun c hc => ⟨rfl, h c hc, fun _ _ => trivial⟩

theorem allRules_nil : AllRules P [] := fun _ hn => absurd hn List.not_mem_nil

theorem allRules_singleton {position : Position} {statement : Statement}
    (own : statement.RulesAre P)
    (inside : ∀ body ∈ statement.bodies, AllRules P body) :
    AllRules P [.mk position statement] := by
  intro n hn
  obtain rfl := List.mem_singleton.mp hn
  exact .mk own inside

theorem allRules_bare (position : Position) {statement : Statement} (h : IsBare statement) :
    AllRules P [.mk position statement] := by
  cases statement with
  | atRule name prelude body =>
      cases body with
      | none => exact allRules_singleton trivial fun _ h => absurd h List.not_mem_nil
      | some body => exact absurd h id
  | declaration | comment | importFile =>
      exact allRules_singleton trivial fun _ h => absurd h List.not_mem_nil
  | _ => exact absurd h id

/-- The rule that comes out has the selectors it was expanded with, or it is left out. -/
theorem splitRule_rules (position : Position) {selectors : List Selector}
    (hselectors : ∀ s ∈ selectors, P s) {body : List Node} (hbody : AllRules P body) :
    AllRules P (splitRule position selectors body) := by
  intro n hn
  obtain hn | ⟨leaves, -, hleaves, rfl⟩ := mem_splitRule hn
  · exact hbody n hn
  · refine .mk hselectors fun inside hinside => ?_
    obtain rfl := List.mem_singleton.mp hinside
    exact fun m hm => hbody m (hleaves m hm).1

theorem mergedMedia_rules (query : String) {body : List Node} (hbody : AllRules P body) :
    AllRules P (mergedMedia query body) := by
  intro n hn
  obtain ⟨place, inner, nested, hmem, rfl⟩ := mem_mergedMedia hn
  cases hbody _ hmem with
  | mk own inside => exact .mk trivial inside

theorem splitMedia_rules (position : Position) (query : String) {body : List Node}
    (hbody : AllRules P body) : AllRules P (splitMedia position query body) := by
  intro n hn
  obtain hn | ⟨others, -, hothers, rfl⟩ := mem_splitMedia hn
  · exact mergedMedia_rules query hbody n hn
  · refine .mk trivial fun inside hinside => ?_
    obtain rfl := List.mem_singleton.mp hinside
    exact fun m hm => hbody m (hothers m hm).1

section
variable {m : Compile (List Node)}

theorem inRule_rules (h : GivesRules S P m (AllRules P)) {parent : ParentBlock}
    (hparent : ∀ selectors outer, parent = .rule selectors outer → ∀ s ∈ selectors, P s) :
    GivesRules S P (inScope do modifyScopes (·.setParent parent); m) (AllRules P) :=
  Agree.within (enteredRule parent) (fun _ => left) (outcome_inRule parent m)
    (outcome_inRule parent m) h (fun hc => hc.enteredRule hparent) fun _ hd => hd.drop 1

theorem inScope_rules (h : GivesRules S P m (AllRules P)) :
    GivesRules S P (inScope m) (AllRules P) :=
  Agree.within entered (fun _ => left) (outcome_inScope m) (outcome_inScope m) h
    (fun hc => hc.entered) fun _ hd => hd.drop 1

/-- The body is expanded in the frame of the rule. -/
theorem expandRule_rules (position : Position) {selectors : List Selector} (outer : List Selector)
    (hselectors : ∀ s ∈ selectors, P s) (h : GivesRules S P m (AllRules P)) :
    GivesRules S P (expandRule position selectors outer m) (AllRules P) := by
  refine Agree.ite (Agree.pure allRules_nil) ?_
  refine Agree.bind (inRule_rules h fun own outer' hparent => ?_) fun inner hinner => ?_
  · obtain ⟨rfl, -⟩ := ParentBlock.rule.inj hparent
    exact hselectors
  · exact Agree.pure (splitRule_rules position hselectors hinner)

variable (hN : Selector.Nests Own P)
include hN

/-- A rule at the top level loses what it has of `&`. -/
theorem strip_rules (position : Position) {own : List Selector} (hown : ∀ s ∈ own, P s) :
    GivesRules S P (strip position own) fun kept => ∀ s ∈ kept, P s := by
  intro c hc
  obtain ⟨warnings, h⟩ := strip_outcome position own c
  rw [h]
  refine ⟨rfl, ⟨⟨hc.code.frames, hc.code.contents, hc.code.stylesheets⟩, hc.parents,
    hc.extensions⟩, fun kept hkept => ?_⟩
  obtain rfl := Except.ok.inj hkept
  intro t ht
  obtain ⟨s, hs, ht⟩ := List.mem_flatMap.mp ht
  split at ht
  · exact hN.strip (hown s hs) (Option.mem_toList.mp ht)
  · obtain rfl := List.mem_singleton.mp ht
    exact hown t hs

/-- **A rule resolves its selectors to such with the property.** -/
theorem flattenRule_rules (position : Position) {own : List Selector}
    (hown : ∀ s ∈ own, Own s) (h : GivesRules S P m (AllRules P)) :
    GivesRules S P (flattenRule position own m) (AllRules P) := by
  intro c hc
  rw [outcome_flattenRule]
  cases hparent : c.scopes.parent with
  | topLevel =>
      exact Agree.bind (strip_rules hN position fun s hs => hN.own (hown s hs))
        (fun kept hkept => expandRule_rules position [] hkept h) c hc
  | rule parents outer =>
      have hparents := hc.parent hparent
      refine Agree.bind (Agree.ofFault position fun selectors hnest => ?_)
        (fun selectors hselectors => expandRule_rules position parents hselectors h) c hc
      intro t ht
      obtain ⟨parent, hparent, s, hs, hst⟩ := resolve_of_mem_nest hnest ht
      exact hN.resolve (hown s hs) (hparents parent hparent) hst

/-- A rule that is repeated inside a directive has resolved selectors already. -/
theorem flattenBubbling_rules (position : Position) (h : GivesRules S P m (AllRules P)) :
    GivesRules S P (flattenBubbling position m) (AllRules P) := by
  intro c hc
  unfold flattenBubbling
  rw [outcome_scopes_bind]
  cases hparent : c.scopes.parent with
  | topLevel => exact inScope_rules h c hc
  | rule selectors outer =>
      have hselectors := hc.parent hparent
      have hentered : (enteredRule .topLevel c).RulesHold S P :=
        hc.enteredRule fun _ _ h => nomatch h
      have hrule := Agree.bind (strip_rules hN position hselectors)
        (fun kept hkept => expandRule_rules position [] hkept h) _ hentered
      have houtcome := outcome_flattenRule position selectors m (enteredRule .topLevel c)
      obtain ⟨-, hleft, hresult⟩ := hrule
      dsimp only
      rw [outcome_inRule, houtcome]
      exact ⟨rfl, hleft.drop 1, hresult⟩

end

/-- Recording an extension leaves the frames. -/
theorem recordExtend_rules {call : Caller}
    (hcall : CallerKeeps S (Leaves (KeepsRules S P)) call)
    (position : Position) (target : SelectorSource) (optional : Bool) :
    Leaves (KeepsRules S P) (recordExtend call position target optional) :=
  recordExtend_leaves executing_rules (fun hc hrule => hc.parent hrule)
    (fun hc hextending => ⟨hc.code.addExtension _, hc.parents, List.forall_mem_append.mpr
      ⟨hc.extensions, List.forall_mem_singleton.mpr hextending⟩⟩) hcall position target optional

/-- The block runs in the frames of its own scope, which were of the kind when it was passed. -/
theorem expandContent_rules {s : Site}
    (h : ∀ nodes, (∀ n ∈ nodes, n.All S) →
      GivesRules S P (s.contentBody nodes) (AllRules P)) :
    GivesRules S P (expandContent s) (AllRules P) := by
  intro c hc
  rw [expandContent, outcome_get_bind]
  split
  next block below hcontents =>
    rw [outcome_scopes_bind]
    have hblock : ∀ n ∈ block.body, n.All S :=
      hc.code.contents block (hcontents ▸ List.mem_cons_self)
    have hbody : GivesRules S P (inScope do
          modifyScopes (·.setParent c.scopes.parent)
          s.contentBody block.body) (AllRules P) :=
      inRule_rules (h block.body hblock) fun _ _ hparent => hc.parent hparent
    refine Agree.settingAside (J := RulesHold S P) (some block) (Agree.seeing (J := RulesHold S P)
      block.depth hbody (fun hc => hc.drop _) fun {c d} hc hd => ?_) (fun {c} hc => ?_)
      (fun {d} hd => ?_) c hc
    · exact ⟨hc.code.restore hd.code block.depth, fun f hf =>
        (Scopes.mem_frames_of_restore hf).elim (hc.parents f) (hd.parents f), hd.extensions⟩
    · exact ⟨hc.code.popContent, hc.parents, hc.extensions⟩
    · refine ⟨hd.code.pushContent fun b hb => ?_, hd.parents, hd.extensions⟩
      obtain rfl := Option.some.inj hb
      exact hblock
  · exact Agree.pure allRules_nil c hc

variable (hN : Selector.Nests Own P)
  (hS : ∀ {source body}, S (.rule source body) → source.ReadsAs Own)
include hN hS

/-- **Every step of flattening leaves rules with selectors that have the property**, if all code is
written with selectors from which that follows. -/
theorem expanding_rules : Expanding S (Leaves (KeepsRules S P))
    fun m => GivesRules S P m (AllRules P) where
  executing := executing_rules
  context := reading_rules.get executing_rules.toSteps
  nothing := Agree.pure allRules_nil
  raise failure := Agree.throw failure
  bare position _ h := Agree.pure (allRules_bare position h)
  after hm hf := Agree.bind (givesRules_of_leaves hm) fun a _ => hf a
  append h h' := Agree.bind h fun front hfront => Agree.bind h' fun rest hrest =>
    Agree.pure fun n hn => (List.mem_append.mp hn).elim (hfront n) (hrest n)
  inScope h := inScope_rules h
  topLevel h := inRule_rules h fun _ _ h => nomatch h
  rule {call source body} hcall own position m _ h := by
    have hread : GivesRules S P (sourceSelectors call position source)
        fun selectors => ∀ s ∈ selectors, Own s := by
      intro c hc
      have hleft := sourceSelectors_keeps executing_rules.toEvaluating hcall position source c hc
      exact ⟨rfl, hleft, fun selectors hresult =>
        hS own call position c selectors _ (Prod.ext hresult rfl)⟩
    exact Agree.bind hread fun selectors hselectors => flattenRule_rules hN position hselectors h
  bubbling position _ _ h := flattenBubbling_rules hN position h
  media position query _ _ h := Agree.bind h fun body hbody =>
    Agree.pure (splitMedia_rules position query hbody)
  atRule position name prelude _ _ h := Agree.bind h fun body hbody =>
    Agree.pure (allRules_singleton trivial fun inner hinner => by
      obtain rfl := List.mem_singleton.mp hinner
      exact hbody)
  recordExtend hcall _ position := recordExtend_rules hcall position _ _
  defineMixin hd c hc := ⟨hc.code.defineMixin hd,
    Scopes.every_modifyCurrent hc.parents fun _ hf => hf, hc.extensions⟩
  defineFunction hd c hc := ⟨hc.code.defineFunction hd,
    Scopes.every_modifyCurrent hc.parents fun _ hf => hf, hc.extensions⟩
  reading h c hc := h c hc.code c hc
  calling name position _ h := Agree.calling (J := RulesHold S P) name position h
    (fun {c d} hc hentered => by
      have hcode := hc.code.enterCall hentered
      obtain ⟨-, rfl⟩ := of_enterCall hentered
      exact ⟨hcode, hc.parents, hc.extensions⟩)
    fun hd => ⟨hd.code.exitCall, hd.parents, hd.extensions⟩
  passing hblock h := Agree.passing (J := RulesHold S P) _ h
    (fun hc => ⟨hc.code.pushContent hblock, hc.parents, hc.extensions⟩)
    fun hd => ⟨hd.code.popContent, hd.parents, hd.extensions⟩
  content := expandContent_rules
  importing uri base _ h := Agree.importing (J := RulesHold S P) uri base h
    (fun {c d} hc hentered => by
      have hcode := hc.code.enterImport hentered
      obtain ⟨-, rfl⟩ := of_enterImport hentered
      exact ⟨hcode, hc.parents, hc.extensions⟩)
    fun {d} hd => by
      have hcode := hd.code.exitImport
      unfold exitImport at hcode ⊢
      split at hcode
      · exact ⟨hcode, hd.parents, hd.extensions⟩
      · exact hd

theorem run_rules {nodes : List Node} (hnodes : ∀ n ∈ nodes, n.All S) :
    GivesRules S P (Flatten.run nodes) (AllRules P) := by
  refine Agree.bind Agree.get fun c _ => ?_
  refine Agree.bind (expand_meets (expanding_rules hN hS) _ _ _ nodes hnodes) fun flat hflat => ?_
  split
  · exact Agree.fail _ _
  · exact Agree.pure hflat

end Flatten

end

/-! ## The second pass -/

/-- Evaluation records no extensions. -/
theorem Context.scoping_extensions : Scoping fun c d : Context => d.extensions = c.extensions := by
  refine ⟨fun _ => rfl, fun h₁ h₂ => h₂.trans h₁, fun _ _ _ => rfl, fun _ _ _ => rfl,
    fun _ _ _ => rfl, fun _ _ _ => rfl, fun h => h, fun hentered h => ?_⟩
  obtain ⟨-, rfl⟩ := of_enterCall hentered
  exact h

namespace Extending

variable {extensions : List Extension} {P : Selector → Prop}
  (hP : ∀ e ∈ extensions, ∀ s t : Selector, P s → t ∈ s.extendWith e → P t)
include hP

/-- What extending keeps holds of the selectors that a rule gets. -/
theorem extendSelectors_keeps {matched matched' : List Bool} {written result : List Selector}
    (hmarks : matched.length = extensions.length) (hwritten : ∀ s ∈ written, P s)
    (h : extendSelectors extensions matched written = .ok (result, matched')) :
    (∀ s ∈ result, P s) ∧ matched'.length = extensions.length := by
  obtain ⟨hresult, -, hlength⟩ := extendSelectors_sound hmarks h
  exact ⟨fun s hs => (hresult s hs).1.keeps hP hwritten, hlength⟩

omit hP in
/-- What holds of the statements that come of each statement holds of all. -/
theorem extendNodes_all {Q : Node → Prop} {nodes : List Node}
    (hnodes : ∀ n ∈ nodes, ∀ {matched r}, matched.length = extensions.length →
      extendNode extensions matched n = .ok r →
        (∀ m ∈ r.1, Q m) ∧ r.2.length = extensions.length)
    {matched : List Bool} {r : List Node × List Bool} (hmarks : matched.length = extensions.length)
    (h : extendNodes extensions matched nodes = .ok r) :
    (∀ m ∈ r.1, Q m) ∧ r.2.length = extensions.length := by
  refine extendNodes_induction (Q := fun _ left => ∀ m ∈ left, Q m) nofun
    (fun {_ _ front others} hfront hothers n hn => ?_) hnodes hmarks h
  exact (List.mem_append.mp hn).elim (hfront n) (hothers n)

/-- **What extending keeps holds of every rule that is left.** -/
theorem extendNode_all {node : Node} (hnode : node.All (Statement.RulesAre P))
    {matched : List Bool} {r : List Node × List Bool} (hmarks : matched.length = extensions.length)
    (h : extendNode extensions matched node = .ok r) :
    (∀ m ∈ r.1, m.All (Statement.RulesAre P)) ∧ r.2.length = extensions.length := by
  induction hnode generalizing matched r with
  | @mk position statement own inside ih =>
      obtain ⟨nodes, marks⟩ := r
      obtain ⟨left, hleft, rfl⟩ := extendNode_eq_ok_iff.mp h
      -- most statements are left as they are
      have hsame : extendStatement extensions matched statement = .ok ([statement], matched) →
          (∀ m ∈ left.map (Node.mk position), m.All (Statement.RulesAre P)) ∧
            marks.length = extensions.length := by
        intro heq
        obtain ⟨rfl, rfl⟩ := Prod.mk.inj (Except.ok.inj (heq.symm.trans hleft))
        refine ⟨fun m hm => ?_, hmarks⟩
        obtain rfl := List.mem_singleton.mp hm
        exact .mk own inside
      cases statement with
      | rule source body =>
          cases source with
          | interpolated text => exact absurd own id
          | parsed selectors =>
              obtain ⟨result, hresult, rfl⟩ := extendStatement_rule_eq_ok_iff.mp hleft
              obtain ⟨hkept, hlength⟩ := extendSelectors_keeps hP hmarks own hresult
              refine ⟨fun m hm => ?_, hlength⟩
              obtain ⟨statement, hstatement, rfl⟩ := List.mem_map.mp hm
              split at hstatement
              · exact absurd hstatement List.not_mem_nil
              · obtain rfl := List.mem_singleton.mp hstatement
                exact .mk hkept inside
      | media query body =>
          obtain ⟨rest, hrest, rfl⟩ := extendStatement_media_eq_ok_iff.mp hleft
          obtain ⟨hkept, hlength⟩ := extendNodes_all (ih body List.mem_cons_self) hmarks hrest
          refine ⟨fun m hm => ?_, hlength⟩
          obtain ⟨statement, hstatement, rfl⟩ := List.mem_map.mp hm
          split at hstatement
          · exact absurd hstatement List.not_mem_nil
          · obtain rfl := List.mem_singleton.mp hstatement
            refine .mk trivial fun inner hinner => ?_
            obtain rfl := List.mem_singleton.mp hinner
            exact hkept
      | atRule name prelude content =>
          cases content with
          | none => exact hsame rfl
          | some body =>
              obtain ⟨rest, hrest, rfl⟩ := extendStatement_atRule_eq_ok_iff.mp hleft
              obtain ⟨hkept, hlength⟩ := extendNodes_all (ih body List.mem_cons_self) hmarks hrest
              refine ⟨fun m hm => ?_, hlength⟩
              obtain rfl := List.mem_singleton.mp hm
              refine .mk trivial fun inner hinner => ?_
              obtain rfl := List.mem_singleton.mp hinner
              exact hkept
      | _ => exact hsame rfl

omit hP in
theorem run_keeps_extensions (nodes : List Node) :
    Leaves (fun c d => d.extensions = c.extensions) (Extending.run nodes) :=
  run_leaves scoping_extensions nodes

/-- After the second pass the rules have the selectors that extending gives. -/
theorem run_all {nodes printed : List Node} {c c' : Context}
    (hextensions : c.extensions = extensions)
    (hnodes : ∀ n ∈ nodes, n.All (Statement.RulesAre P))
    (h : (Extending.run nodes).outcome c = (.ok printed, c')) :
    ∀ n ∈ printed, n.All (Statement.RulesAre P) := by
  rw [Extending.run, outcome_get_bind] at h
  dsimp only at h
  rw [hextensions] at h
  split at h
  · cases h
  next rewritten marks hrewritten =>
    obtain ⟨_, d, -, h⟩ := bind_eq_ok h
    obtain rfl := Except.ok.inj (congrArg Prod.fst h)
    exact (extendNodes_all (fun n hn _ _ => extendNode_all hP (hnodes n hn)) (List.length_map _)
      hrewritten).1

end Extending

/-! ## Both passes -/

section
variable {S : Statement → Prop} {Own P : Selector → Prop} (hN : Selector.Nests Own P)
  (hS : ∀ {source body}, S (.rule source body) → source.ReadsAs Own)
  (hP : ∀ {s t : Selector} {e : Extension}, P s → P e.extending → t ∈ s.extendWith e → P t)

include hP in
/-- Rules are of the kind still, if extending leads to none that are not. -/
theorem Extending.run_rules {nodes : List Node} (hnodes : AllRules P nodes) :
    GivesRules S P (Extending.run nodes) (AllRules P) := by
  have hE := executing_rules (S := S) (P := P)
  have hleft : Leaves (KeepsRules S P) (Extending.run nodes) := by
    refine hE.bind (reading_rules.get hE.toSteps) fun c => ?_
    dsimp only
    split
    · exact hE.throw _
    · refine hE.bind (hE.forM fun e _ => ?_) fun _ => hE.pure _
      exact hE.ite (hE.pure ()) (hE.warn _ _)
  intro c hc
  refine ⟨rfl, hleft c hc, fun printed hprinted => ?_⟩
  exact run_all (fun e he s t hs ht => hP hs (hc.extensions e he) ht) rfl hnodes
    (Prod.ext hprinted rfl)

include hN hS hP in
/-- **A property that nesting and extending keep holds of all rules that a compile leaves**, and of
the selectors that the context keeps. -/
theorem Stylesheet.compile_rules {s : Stylesheet} (hs : ∀ n ∈ s.body, n.All S) :
    GivesRules S P s.compile fun css => AllRules P css.body := by
  refine Agree.bind (Agree.modify fun c hc => ?_) fun _ _ => ?_
  · exact ⟨⟨hc.code.frames, hc.code.contents, hc.code.stylesheets⟩, hc.parents, hc.extensions⟩
  refine Agree.bind (Flatten.run_rules hN hS hs) fun flat hflat => ?_
  exact Agree.bind (Extending.run_rules hP hflat) fun printed hprinted => Agree.pure hprinted

end

end Scss
