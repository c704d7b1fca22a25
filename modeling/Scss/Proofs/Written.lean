import Scss.Compilation
import Scss.Proofs.Chains
import Scss.Proofs.RuleSelectors

/-!
# What a stylesheet is written with

The selectors of a rule are read when the stylesheet is, or when the rule is expanded if there are
expressions in them. In both cases they are read from a list, so what follows from that, and is kept by
nesting and extending, holds of every rule that a compile leaves: their selectors are chains. For the
first case the grammar is gone through once: every reader of statements makes such as are written with
selectors from lists (`Makes`), whatever its cursor does on the way.
-/

namespace Scss

open Compile Evaluation Flatten Grammar

/-! ## Sources -/

/-- One of the selectors that a list is read as. -/
def Selector.IsListed (s : Selector) : Prop :=
  ∃ text position selectors, readList text position = .ok selectors ∧ s ∈ selectors

theorem Selector.IsListed.isChain {s : Selector} (h : s.IsListed) : IsChain s.segments := by
  obtain ⟨text, position, selectors, hread, hs⟩ := h
  exact isChain_of_readList hread s hs

namespace SelectorSource

theorem readsAs_parsed {Own : Selector → Prop} {own : List Selector} (h : ∀ s ∈ own, Own s) :
    (parsed own).ReadsAs Own := by
  intro call position c selectors c' hread
  obtain rfl := Except.ok.inj (congrArg Prod.fst hread)
  exact h

/-- A text is read as a selector only when it has been evaluated, and then it is one that can be
listed. -/
theorem readsAs_interpolated (text : Interpolation) :
    (interpolated text).ReadsAs Selector.IsListed := by
  intro call position c selectors c' hread
  obtain ⟨written, d, -, hread⟩ := bind_eq_ok hread
  split at hread
  next own hown =>
    obtain rfl := Except.ok.inj (congrArg Prod.fst hread)
    exact fun s hs => ⟨_, _, _, hown, hs⟩
  · cases hread

end SelectorSource

/-- A rule is written with selectors from lists. -/
def Statement.ReadsListed : Statement → Prop
  | .rule source _ => source.ReadsAs Selector.IsListed
  | _ => True

/-- Statements in which all rules are written with selectors from lists. -/
abbrev Node.AllRead (nodes : List Node) : Prop := ∀ n ∈ nodes, n.All Statement.ReadsListed

namespace Grammar

variable {α β : Type}

/-! ## What readers make -/

/-- Whatever the reader makes satisfies `Q`. -/
def Makes (m : Parser α) (Q : α → Prop) : Prop := ∀ c a d, m.run c = .ok (a, d) → Q a

namespace Makes

variable {m : Parser α} {Q : α → Prop} {R : β → Prop}

protected theorem pure {a : α} (h : Q a) : Makes (pure a) Q := by
  intro c b d hrun
  obtain ⟨rfl, -⟩ := Prod.mk.inj (Except.ok.inj hrun)
  exact h

protected theorem throw (failure : Failure) : Makes (throw failure : Parser α) Q :=
  fun _ _ _ h => nomatch h

protected theorem bind {f : α → Parser β} (hm : Makes m Q) (hf : ∀ a, Q a → Makes (f a) R) :
    Makes (m >>= f) R := by
  intro c b d h
  obtain ⟨⟨a, c'⟩, ha, hb⟩ := bind_eq_ok_iff.mp h
  exact hf a (hm c a c' ha) c' b d hb

/-- After a step of which nothing has to be known. -/
theorem after {f : α → Parser β} (hf : ∀ a, Makes (f a) R) : Makes (m >>= f) R :=
  Makes.bind (Q := fun _ => True) (fun _ _ _ _ => trivial) fun a _ => hf a

protected theorem ite {p : Prop} [Decidable p] {m' : Parser α} (h : Makes m Q) (h' : Makes m' Q) :
    Makes (if p then m else m') Q := by
  split
  · exact h
  · exact h'

theorem failAt (t : Token) (fault : SyntaxFault) : Makes (Parser.failAt t fault : Parser α) Q :=
  Makes.throw _

theorem fail (fault : SyntaxFault) : Makes (Parser.fail fault : Parser α) Q :=
  after fun _ => failAt _ _

theorem failExpected (t : Token) (what : String) : Makes (Parser.failExpected t what : Parser α) Q :=
  failAt _ _

theorem exhausted : Makes (Parser.exhausted : Parser α) Q := Makes.throw _

theorem lift {r : Except Failure α} (h : ∀ a, r = .ok a → Q a) : Makes (liftM r : Parser α) Q := by
  intro c a d hrun
  cases r with
  | error failure => cases hrun
  | ok b =>
      obtain ⟨rfl, -⟩ := Prod.mk.inj (Except.ok.inj hrun)
      exact h b rfl

end Makes

/-- Selectors without expressions in them are read from a list at once. -/
theorem selectorSource_makes (text : Interpolation) (position : Position) :
    Makes (selectorSource text position) (·.ReadsAs Selector.IsListed) := by
  unfold selectorSource
  split
  · have hread : ∀ {own : List Selector} {text : String},
        Selector.readList text position = .ok own → ∀ s ∈ own, s.IsListed :=
      fun hown s hs => ⟨_, _, _, hown, hs⟩
    refine Makes.bind (Makes.lift fun own hown => hread hown) fun own hown => ?_
    exact Makes.pure (SelectorSource.readsAs_parsed hown)
  · exact Makes.pure (SelectorSource.readsAs_interpolated _)

/-! ## Statements -/

/-- A statement that is written with selectors from lists, and so are all those in it. -/
structure IsRead (statement : Statement) : Prop where
  own : statement.ReadsListed
  inside : ∀ body ∈ statement.bodies, Node.AllRead body

theorem allRead_singleton {position : Position} {statement : Statement} (h : IsRead statement) :
    Node.AllRead [.mk position statement] := by
  intro n hn
  obtain rfl := List.mem_singleton.mp hn
  exact .mk h.own h.inside

theorem isRead_body {statement : Statement} {body : List Node} (own : statement.ReadsListed)
    (hbodies : statement.bodies = [body]) (h : Node.AllRead body) : IsRead statement := by
  refine ⟨own, fun inner hinner => ?_⟩
  rw [hbodies, List.mem_singleton] at hinner
  exact hinner ▸ h

theorem isRead_block {statement : Statement} {block : Option (List Node)}
    (own : statement.ReadsListed) (hbodies : statement.bodies = block.toList)
    (h : ∀ body ∈ block, Node.AllRead body) : IsRead statement :=
  ⟨own, fun body hbody => h body (Option.mem_toList.mp (hbodies ▸ hbody))⟩

/-- A statement without a body is no rule. -/
theorem isRead_leaf {statement : Statement} (hbodies : statement.bodies = []) :
    IsRead statement := by
  refine ⟨?_, fun inner hinner => ?_⟩
  · cases statement <;> trivial
  · rw [hbodies] at hinner
    exact absurd hinner List.not_mem_nil

theorem allRead_leaf {position : Position} {statement : Statement}
    (hbodies : statement.bodies = []) : Node.AllRead [.mk position statement] :=
  allRead_singleton (isRead_leaf hbodies)

theorem allRead_append {front rest : List Node} (h : Node.AllRead front) (h' : Node.AllRead rest) :
    Node.AllRead (front ++ rest) := List.forall_mem_append.mpr ⟨h, h'⟩

/-- A declaration names no selectors. -/
theorem declaration_makes (fuel : Nat) : Makes (declaration fuel) fun n => Node.AllRead [n] := by
  unfold declaration
  refine Makes.after fun start => Makes.after fun name => ?_
  dsimp only
  have hend : ∀ value, Makes (do
      let isImportant ← important
      Parser.endStatement
      return Node.mk start.position (.declaration name value isImportant)) fun n =>
        Node.AllRead [n] := fun value =>
    Makes.after fun _ => Makes.after fun _ => Makes.pure (allRead_leaf rfl)
  refine Makes.ite (Makes.bind (Makes.failAt _ _) fun _ h => absurd h id) (Makes.after fun _ => ?_)
  refine Makes.ite (Makes.bind (Makes.failAt _ _) fun _ h => absurd h id) ?_
  refine Makes.after fun _ => Makes.after fun _ => Makes.ite ?_ ?_
  · exact Makes.after fun _ => Makes.after fun value => hend value
  · exact Makes.after fun value => hend value

theorem assignment_makes (fuel : Nat) (name : String) :
    Makes (assignment fuel name) fun n => Node.AllRead [n] :=
  Makes.after fun _ => Makes.after fun _ => Makes.after fun _ => Makes.after fun _ =>
    Makes.after fun _ => Makes.after fun _ => Makes.after fun _ => Makes.pure (allRead_leaf rfl)

theorem imports_makes (fuel : Nat) (position : Position) :
    Makes (imports fuel position) Node.AllRead := by
  refine Makes.after fun targets => Makes.after fun media => Makes.after fun _ => Makes.pure ?_
  intro n hn
  obtain ⟨target, -, rfl⟩ := List.mem_map.mp hn
  exact allRead_leaf rfl _ (List.mem_singleton_self _)

/-- The target of an extension is a selector that was read, or waits for its text. -/
theorem extend_makes (fuel : Nat) (t : Token) : Makes (extend fuel t) IsRead := by
  unfold extend
  refine Makes.after fun target => ?_
  dsimp only
  have hend : ∀ isOptional, Makes (do
      Parser.endStatement
      return Statement.extend (← selectorSource target t.position) isOptional) IsRead :=
    fun isOptional => Makes.after fun _ => Makes.after fun _ => Makes.pure (isRead_leaf rfl)
  refine Makes.ite (Makes.bind (Makes.failAt _ _) fun _ h => absurd h id) (Makes.after fun kind => ?_)
  split
  · exact Makes.after fun _ => Makes.after fun isOptional => hend isOptional
  · exact Makes.after fun isOptional => hend isOptional
  · exact Makes.after fun isOptional => hend isOptional

/-- With some fuel, the readers of statements make such as are written with selectors from lists. -/
structure MakesRead (fuel : Nat) : Prop where
  statements : ∀ nested, Makes (statements fuel nested) Node.AllRead
  ruleOrDeclaration : Makes (ruleOrDeclaration fuel) Node.AllRead
  rule : Makes (rule fuel) fun n => Node.AllRead [n]
  group : Makes (group fuel) Node.AllRead
  body : ∀ directive, Makes (body fuel directive) Node.AllRead
  otherBranches : Makes (otherBranches fuel) fun branches => ∀ b ∈ branches, Node.AllRead b.2
  optionalBlock : Makes (optionalBlock fuel) fun block => ∀ b ∈ block, Node.AllRead b
  directive : ∀ name t, Makes (directive fuel name t) Node.AllRead
  statement : ∀ name t, Makes (statement fuel name t) IsRead
  forLoop : Makes (forLoop fuel) IsRead
  diagnostic : ∀ level, Makes (diagnostic fuel level) IsRead

section
variable {fuel : Nat} (ih : MakesRead fuel)
include ih

/-- What is read of the first statement and of the statements behind it is put together. -/
theorem statements_makes (nested : Bool) : Makes (statements (fuel + 1) nested) Node.AllRead := by
  rw [statements]
  have hrest : ∀ {front : List Node}, Node.AllRead front →
      Makes (do return front ++ (← Grammar.statements fuel nested)) Node.AllRead := fun hfront =>
    (ih.statements nested).bind fun rest hrest => Makes.pure (allRead_append hfront hrest)
  have hnone : Node.AllRead [] := fun _ hn => absurd hn List.not_mem_nil
  refine Makes.after fun _ => Makes.after fun t => ?_
  split
  · exact Makes.ite (Makes.failAt _ _) (Makes.pure hnone)
  · exact Makes.ite (Makes.after fun _ => Makes.pure hnone) (Makes.failAt _ _)
  · exact Makes.after fun _ => hrest (allRead_leaf rfl)
  · exact Makes.after fun _ => (ih.directive _ t).bind fun nodes hnodes => hrest hnodes
  · refine Makes.after fun c => ?_
    dsimp only
    split
    · exact (assignment_makes fuel _).bind fun n hn => Makes.bind (Makes.pure hn) fun _ => hrest
    · exact ih.ruleOrDeclaration.bind fun nodes hnodes => hrest hnodes

theorem ruleOrDeclaration_makes : Makes (ruleOrDeclaration (fuel + 1)) Node.AllRead := by
  rw [ruleOrDeclaration]
  refine Makes.after fun c => Makes.ite ?_ (Makes.ite ih.group ?_)
  · exact (declaration_makes fuel).bind fun n hn => Makes.pure hn
  · exact ih.rule.bind fun n hn => Makes.pure hn

/-- The selectors of a rule were read off a list. -/
theorem rule_makes : Makes (rule (fuel + 1)) fun n => Node.AllRead [n] := by
  rw [rule]
  refine Makes.after fun start => Makes.after fun text => Makes.after fun _ => ?_
  refine (selectorSource_makes text _).bind fun source hsource => ?_
  exact (ih.statements true).bind fun body hbody =>
    Makes.pure (allRead_singleton (isRead_body hsource rfl hbody))

omit ih in
theorem nameInGroup_read {group : String} {n : Node} (h : n.All Statement.ReadsListed) :
    (nameInGroup group n).All Statement.ReadsListed := by
  unfold nameInGroup
  split
  · exact allRead_leaf rfl _ (List.mem_singleton_self _)
  · exact h

/-- Naming the declarations of a group leaves the selectors in it. -/
theorem group_makes : Makes (group (fuel + 1)) Node.AllRead := by
  rw [group]
  have hend : ∀ {own : List Node} {name : String}, Node.AllRead own → Makes (do
      Parser.expect .openBrace "'\x7b' after nested property"
      return own ++ (← Grammar.statements fuel true).map (nameInGroup name)) Node.AllRead := by
    intro own name hown
    refine Makes.after fun _ => (ih.statements true).bind fun inner hinner => Makes.pure ?_
    refine allRead_append hown fun n hn => ?_
    obtain ⟨m, hm, rfl⟩ := List.mem_map.mp hn
    exact nameInGroup_read (hinner m hm)
  refine Makes.after fun t => Makes.after fun _ => Makes.after fun _ => Makes.after fun _ => ?_
  dsimp only
  refine Makes.ite ?_ ?_
  · exact Makes.bind (Makes.pure fun _ hn => absurd hn List.not_mem_nil) fun own hown => hend hown
  · refine Makes.after fun value => Makes.after fun isImportant => Makes.after fun _ => ?_
    exact Makes.bind (Makes.pure (allRead_leaf rfl)) fun own hown => hend hown

theorem body_makes (name : String) : Makes (body (fuel + 1) name) Node.AllRead := by
  rw [body]
  exact Makes.after fun _ => Makes.after fun _ => ih.statements true

/-- Each branch is a body that was read. -/
theorem otherBranches_makes :
    Makes (otherBranches (fuel + 1)) fun branches => ∀ b ∈ branches, Node.AllRead b.2 := by
  rw [otherBranches]
  have hback : ∀ {before : Cursor}, Makes (do set before; return ([] : List (Option Value × List Node)))
      fun branches => ∀ b ∈ branches, Node.AllRead b.2 :=
    Makes.after fun _ => Makes.pure fun _ hb => absurd hb List.not_mem_nil
  refine Makes.after fun before => Makes.after fun _ => Makes.after fun kind => ?_
  split
  · refine Makes.ite (Makes.after fun _ => Makes.after fun _ => Makes.after fun kind => ?_) hback
    split
    · refine Makes.after fun _ => Makes.after fun _ => Makes.after fun condition => ?_
      refine (ih.body _).bind fun children hchildren => ih.otherBranches.bind fun others hothers => ?_
      exact Makes.pure (List.forall_mem_cons.mpr ⟨hchildren, hothers⟩)
    · exact (ih.body _).bind fun children hchildren =>
        Makes.pure (List.forall_mem_singleton.mpr hchildren)
  · exact hback

theorem optionalBlock_makes :
    Makes (optionalBlock (fuel + 1)) fun block => ∀ b ∈ block, Node.AllRead b := by
  rw [optionalBlock]
  refine Makes.after fun _ => Makes.ite ?_ ?_
  · refine Makes.after fun _ => (ih.statements true).bind fun body hbody => Makes.pure ?_
    rintro _ ⟨⟩
    exact hbody
  · exact Makes.after fun _ => Makes.pure fun _ h => nomatch h

theorem directive_makes (name : String) (t : Token) :
    Makes (directive (fuel + 1) name t) Node.AllRead := by
  unfold directive
  refine Makes.after fun _ => ?_
  split
  · refine Makes.after fun value => ?_
    dsimp only
    have hnone : Node.AllRead [] := fun _ hn => absurd hn List.not_mem_nil
    split
    · exact Makes.after fun _ => Makes.after fun _ => Makes.pure hnone
    · exact Makes.bind (Makes.failExpected _ _) fun _ h => absurd h id
  · exact imports_makes fuel _
  · exact Makes.failAt _ _
  · exact (ih.statement name t).bind fun statement hstatement =>
      Makes.pure (allRead_singleton hstatement)

theorem forLoop_makes : Makes (forLoop (fuel + 1)) IsRead := by
  rw [forLoop]
  refine Makes.after fun t => ?_
  split
  next counter _ =>
    refine Makes.after fun _ => Makes.after fun _ => Makes.after fun _ => Makes.after fun start => ?_
    refine Makes.after fun _ => Makes.after fun separator => ?_
    have hend : ∀ isInclusive, Makes (do
        discard Parser.skipBlanks
        let stop ← spaceExpression fuel []
        return Statement.forLoop counter start stop isInclusive (← Grammar.body fuel "@for")) IsRead :=
      fun isInclusive => Makes.after fun _ => Makes.after fun stop =>
        (ih.body _).bind fun body hbody => Makes.pure (isRead_body trivial rfl hbody)
    dsimp only
    split
    · exact Makes.after fun _ => hend _
    · exact Makes.after fun _ => hend _
    · exact Makes.bind (Makes.failExpected _ _) fun _ h => absurd h id
  · exact Makes.failExpected _ _

omit ih in
theorem diagnostic_makes (level : DiagnosticLevel) : Makes (diagnostic (fuel + 1) level) IsRead := by
  rw [diagnostic]
  exact Makes.after fun _ => Makes.after fun _ => Makes.pure (isRead_leaf rfl)

/-- One case for each directive; those without a body hold no selectors at all. -/
theorem statement_makes (name : String) (t : Token) :
    Makes (statement (fuel + 1) name t) IsRead := by
  -- a directive that ends in a body is listed if what it makes of any body is
  have hbody : ∀ directive (P : List Node → Statement), (∀ b, (P b).ReadsListed) →
      (∀ b, (P b).bodies = [b]) → Makes (do return P (← Grammar.body fuel directive)) IsRead :=
    fun directive P own hbodies => (ih.body directive).bind fun b hb =>
      Makes.pure (isRead_body (own b) (hbodies b) hb)
  unfold statement
  dsimp only
  split
  · exact Makes.after fun query => hbody _ _ (fun _ => trivial) fun _ => rfl
  · exact extend_makes fuel t
  · exact Makes.after fun name => Makes.after fun parameters =>
      hbody _ _ (fun _ => trivial) fun _ => rfl
  · have hblock : ∀ name passed, Makes (do
        discard Parser.skipBlanks
        return Statement.includeMixin name passed (← Grammar.optionalBlock fuel)) IsRead :=
      fun name passed => Makes.after fun _ => ih.optionalBlock.bind fun block hblock =>
        Makes.pure (isRead_block trivial (by cases block <;> rfl) hblock)
    refine Makes.after fun name => Makes.after fun _ => Makes.after fun _ => Makes.ite ?_ ?_
    · exact Makes.after fun _ => Makes.after fun passed => hblock name passed
    · exact Makes.after fun passed => hblock name passed
  · exact Makes.after fun _ => Makes.pure (isRead_leaf rfl)
  · exact Makes.after fun name => Makes.after fun parameters =>
      hbody _ _ (fun _ => trivial) fun _ => rfl
  · exact Makes.after fun value => Makes.after fun _ => Makes.pure (isRead_leaf rfl)
  · refine Makes.after fun condition => (ih.body _).bind fun children hchildren => ?_
    refine ih.otherBranches.bind fun others hothers => Makes.pure ⟨trivial, fun body hbody => ?_⟩
    obtain ⟨branch, hbranch, rfl⟩ := List.mem_map.mp hbody
    have hall : ∀ b ∈ (some condition, children) :: others, Node.AllRead b.2 :=
      List.forall_mem_cons.mpr ⟨hchildren, hothers⟩
    exact hall branch hbranch
  · exact Makes.after fun names => Makes.after fun _ => Makes.after fun _ => Makes.after fun list =>
      hbody _ _ (fun _ => trivial) fun _ => rfl
  · exact ih.forLoop
  · exact Makes.after fun condition => hbody _ _ (fun _ => trivial) fun _ => rfl
  · exact ih.diagnostic _
  · exact ih.diagnostic _
  · exact ih.diagnostic _
  · refine Makes.after fun prelude => ih.optionalBlock.bind fun block hblock => Makes.pure ?_
    exact isRead_block trivial (by cases block <;> rfl) hblock

end

/-- **Whatever is read is written with selectors from lists.** -/
theorem all_makesRead (fuel : Nat) : MakesRead fuel := by
  induction fuel with
  | zero => constructor <;> intros <;> exact Makes.exhausted
  | succ fuel ih =>
      exact ⟨statements_makes ih, ruleOrDeclaration_makes ih, rule_makes ih, group_makes ih,
        body_makes ih, otherBranches_makes ih, optionalBlock_makes ih, directive_makes ih,
        statement_makes ih, forLoop_makes ih, diagnostic_makes⟩

end Grammar

/-! ## Stylesheets -/

/-- **A stylesheet is read with selectors from lists.** -/
theorem Stylesheet.allRead_of_read {source uri : String} {s : Stylesheet}
    (h : Stylesheet.read source uri = .ok s) : Node.AllRead s.body := by
  obtain ⟨tokens, -, h⟩ := bind_eq_ok_iff.mp h
  obtain ⟨⟨body, stop⟩, hbody, h⟩ := bind_eq_ok_iff.mp h
  obtain rfl := Except.ok.inj h
  exact (all_makesRead _).statements false _ _ _ hbody

/-- The contexts that a stylesheet can be compiled in: new ones, those in which variables were set from
outside, and those left by earlier compiles, whether these succeeded or failed. -/
inductive Context.InUse : Context → Prop where
  | new (urlMode : UrlMode) (resolver : Resolver) (maxImportDepth : Nat) :
      InUse (.new urlMode resolver maxImportDepth)
  | preset {c : Context} (name text : String) (h : InUse c) :
      InUse ((definePreset name text).outcome c).2
  | compiled {c : Context} {source uri : String} {s : Stylesheet}
      (hs : Stylesheet.read source uri = .ok s) (h : InUse c) : InUse (s.compile.outcome c).2

/-- What every step keeps is kept when a variable is set from outside. -/
theorem definePreset_keeps {S : Statement → Prop} {N : ∀ {α : Type}, Compile α → Prop}
    (hE : Executing S N) (hR : Reading S N)
    (hassign : ∀ name source, S (.assignment name source false true))
    (name text : String) : N (definePreset name text) := by
  have hread : ∀ {α : Type} (r : Except Failure α), N (MonadExcept.ofExcept r : Compile α) := by
    intro α r
    cases r with
    | ok a => exact hE.pure a
    | error failure => exact hE.throw failure
  have hdefine : N (do
      let source ← MonadExcept.ofExcept (readValue text outside)
      let value ← evaluate (invoke (callsLeft (← get))) outside true source
      modifyScopes fun s => s.setGlobal (withoutSigil name) value : Compile Unit) := by
    refine hE.bind (hread _) fun source => hE.bind (hR.get hE.toSteps) fun d => ?_
    refine hE.bind (evaluate_keeps hE.toEvaluating (invoke_keeps hE _) _ true source) fun v => ?_
    exact hE.setGlobal (hassign (withoutSigil name) source) v
  unfold definePreset
  exact hE.ite (hE.bind (hE.throw _) fun _ => hdefine) hdefine

section
variable {P : Selector → Prop} (hN : Selector.Nests Selector.IsListed P)
  (hP : ∀ {s t : Selector} {e : Extension}, P s → P e.extending → t ∈ s.extendWith e → P t)
include hN hP

/-- **What nesting and extending keep of selectors from lists holds of all rules** that a compile leaves,
and of the selectors that the context keeps. -/
theorem Stylesheet.compile_listed {source uri : String} {s : Stylesheet}
    (hs : Stylesheet.read source uri = .ok s) :
    GivesRules Statement.ReadsListed P s.compile fun css => AllRules P css.body :=
  Stylesheet.compile_rules hN (fun h => h) hP (Stylesheet.allRead_of_read hs)

theorem Context.InUse.rulesHold {c : Context} (h : c.InUse) :
    c.RulesHold Statement.ReadsListed P := by
  induction h with
  | new urlMode resolver maxImportDepth =>
      exact rulesHold_new P _ _ fun _ hread => Stylesheet.allRead_of_read hread
  | preset name text _ ih =>
      exact definePreset_keeps executing_rules reading_rules (fun _ _ => trivial) name text _ ih
  | compiled hs _ ih => exact (Stylesheet.compile_listed hN hP hs _ ih).2.1

end

theorem Context.InUse.isClean {c : Context} (h : c.InUse) : c.IsClean := by
  induction h with
  | new urlMode resolver maxImportDepth => exact isClean_new urlMode resolver maxImportDepth
  | preset name text _ ih =>
      exact definePreset_keeps executing_keepsClean reading_of_leaves (fun _ _ => trivial) name text _ ih
  | @compiled _ _ _ s _ _ ih => exact (s.compile_gives _ ih).1

/-- Nesting makes chains of what is written. -/
theorem Selector.nests_chains :
    Selector.Nests Selector.IsListed fun s => Selector.IsChain s.segments where
  own hs := hs.isChain
  strip _ h := Selector.isChain_stripParents? h
  resolve hs hparent h := Selector.isChain_resolve hs.isChain hparent h

/-- **A compile leaves rules whose selectors are chains.** -/
theorem Stylesheet.compile_chains {source uri : String} {s css : Stylesheet} {c c' : Context}
    (hs : Stylesheet.read source uri = .ok s) (hc : c.InUse)
    (h : s.compile.outcome c = (.ok css, c')) :
    AllRules (fun s => Selector.IsChain s.segments) css.body :=
  have hextend : ∀ {s t : Selector} {e : Extension}, Selector.IsChain s.segments →
      Selector.IsChain e.extending.segments → t ∈ s.extendWith e → Selector.IsChain t.segments :=
    Selector.isChain_extendWith
  (Stylesheet.compile_listed Selector.nests_chains hextend hs c
    (hc.rulesHold Selector.nests_chains hextend)).2.2 css (congrArg Prod.fst h)

end Scss
