import Scss.Proofs.Agreement
import Scss.Proofs.Expanding

/-!
# Expansions that agree

What holds of evaluations holds of the statements that use them: two expansions do the same if they
differ only in bodies from elsewhere, and do the same with these. The bodies are those of mixins, of
imported stylesheets and of content blocks, which are expanded in contexts of their own; what has to be
known about them is what a `Site` does with them. That is asked for, and the rest is one induction on
statements.

Here too values may be known to be of a kind. Then so are the values that are left in declarations and
imports.
-/

namespace Scss

/-- A statement of plain CSS with values of a kind in all declarations and imports. -/
inductive Node.Carries (V : Value → Prop) : Node → Prop where
  | declaration {position : Position} {name : Interpolation} {value : Value} {important : Bool}
      (h : V value) : Carries V (.mk position (.declaration name value important))
  | importFile {position : Position} {target : Value} {media : Option Interpolation} (h : V target) :
      Carries V (.mk position (.importFile target media))
  | comment {position : Position} {text : String} : Carries V (.mk position (.comment text))
  | bareAtRule {position : Position} {name : String} {prelude : Interpolation} :
      Carries V (.mk position (.atRule name prelude none))
  | rule {position : Position} {selectors : SelectorSource} {body : List Node}
      (h : ∀ n ∈ body, Carries V n) : Carries V (.mk position (.rule selectors body))
  | media {position : Position} {query : Interpolation} {body : List Node}
      (h : ∀ n ∈ body, Carries V n) : Carries V (.mk position (.media query body))
  | atRule {position : Position} {name : String} {prelude : Interpolation} {body : List Node}
      (h : ∀ n ∈ body, Carries V n) : Carries V (.mk position (.atRule name prelude (some body)))

namespace Flatten

open Compile Evaluation

variable {V : Value → Prop} {I : Context → Prop}

/-! ## Statements that are put together -/

/-- Statements of plain CSS with values of a kind. -/
abbrev AllCarry (V : Value → Prop) (nodes : List Node) : Prop := ∀ n ∈ nodes, n.Carries V

theorem allCarry_nil : AllCarry V [] := fun _ hn => absurd hn List.not_mem_nil

theorem allCarry_singleton {n : Node} (h : n.Carries V) : AllCarry V [n] :=
  fun _ hm => List.mem_singleton.mp hm ▸ h

/-- A rule keeps its declarations and lets the other statements out: each of them was in its body. -/
theorem splitRule_carries (position : Position) (selectors : List Selector) {body : List Node}
    (hbody : AllCarry V body) : AllCarry V (splitRule position selectors body) := by
  intro n hn
  obtain hn | ⟨leaves, -, hleaves, rfl⟩ := mem_splitRule hn
  · exact hbody n hn
  · exact .rule fun m hm => hbody m (hleaves m hm).1

theorem mergedMedia_carries (query : String) {body : List Node} (hbody : AllCarry V body) :
    AllCarry V (mergedMedia query body) := by
  intro n hn
  obtain ⟨place, inner, nested, hmem, rfl⟩ := mem_mergedMedia hn
  cases hbody _ hmem with
  | media h => exact .media h

/-- So do the queries that a directive lets out. -/
theorem splitMedia_carries (position : Position) (query : String) {body : List Node}
    (hbody : AllCarry V body) : AllCarry V (splitMedia position query body) := by
  intro n hn
  obtain hn | ⟨others, -, hothers, rfl⟩ := mem_splitMedia hn
  · exact mergedMedia_carries query hbody n hn
  · exact .media fun m hm => hbody m (hothers m hm).1

/-! ## Where expansions agree -/

/-- A property of contexts that the steps of flattening keep besides those of evaluation. -/
structure Keeping (V : Value → Prop) (I : Context → Prop) : Prop extends Compile.Keeping V I where
  setParent : ∀ {c} parent, I c → I { c with scopes := c.scopes.setParent parent }
  defineMixin : ∀ {c} d, I c → I { c with scopes := c.scopes.defineMixin d }
  defineFunction : ∀ {c} d, I c → I { c with scopes := c.scopes.defineFunction d }
  addExtension : ∀ {c} e, I c → I (c.addExtension e)

/-- Two sites at which the same calls may still nest, and which do the same with bodies from
elsewhere. -/
structure SitesAgree (V : Value → Prop) (I : Context → Prop) (s s' : Site) : Prop where
  calls : s'.calls = s.calls
  caller : CallersAgree V I s.caller s.caller
  mixin : ∀ {calls} name position block {bound : BoundArguments Value} nodes, s.calls = calls + 1 →
    (∀ e ∈ bound.bindings, e.2.Holds V) → (∀ v ∈ bound.rest, V v) →
    Agree I (AllCarry V)
      (calling name position (passing block (inScope do
        bindParameters (invoke calls) position bound
        s.mixinBody (s.blocks + 1) nodes)))
      (calling name position (passing block (inScope do
        bindParameters (invoke calls) position bound
        s'.mixinBody (s'.blocks + 1) nodes)))
  imported : ∀ {c target found}, I c → c.resolve target = .ok (some found) → ∀ nodes,
    let base := UrlPath.importedDirectory c.urlBase target
    Agree I (AllCarry V) (importing found.uri base (s.importedBody nodes))
      (importing found.uri base (s'.importedBody nodes))
  content : Agree I (AllCarry V) (expandContent s) (expandContent s')

theorem SitesAgree.caller_eq {s s' : Site} (hs : SitesAgree V I s s') : s'.caller = s.caller :=
  congrArg invoke hs.calls

section
variable (hI : Keeping V I)

/-- Two bodies one behind the other. -/
theorem append_agrees {m m' n n' : Compile (List Node)} (h : Agree I (AllCarry V) m m')
    (h' : Agree I (AllCarry V) n n') :
    Agree I (AllCarry V) (do let front ← m; return front ++ (← n))
      (do let front ← m'; return front ++ (← n')) :=
  Agree.bind h fun _ hfront => Agree.bind h' fun _ hrest =>
    Agree.pure fun k hk => (List.mem_append.mp hk).elim (hfront k) (hrest k)

/-- After a step whose only result is that it was done. -/
theorem done_agrees {m m' : Compile Unit} (h : Agree I (fun _ => True) m m') :
    Agree I (AllCarry V) (do m; return []) (do m'; return []) :=
  Agree.bind h fun _ _ => Agree.pure allCarry_nil

include hI

theorem inRule_agrees (parent : ParentBlock) {m m' : Compile (List Node)}
    (h : Agree I (AllCarry V) m m') :
    Agree I (AllCarry V) (inScope do modifyScopes (·.setParent parent); m)
      (inScope do modifyScopes (·.setParent parent); m') :=
  hI.inScope (Agree.bind (Agree.modify fun _ hc => hI.setParent parent hc) fun _ _ => h)

/-- Placeholders are taken out of the selectors, which hold no values. -/
theorem strip_agrees (position : Position) (own : List Selector) :
    Agree I (fun _ => True) (strip position own) (strip position own) := by
  induction own with
  | nil => exact Agree.pure trivial
  | cons s rest ih =>
      have hrest : ∀ front : List Selector, Agree I (fun _ => True)
          (do return front ++ (← strip position rest)) (do return front ++ (← strip position rest)) :=
        fun _ => Agree.bind ih fun _ _ => Agree.pure trivial
      rw [strip]
      refine Agree.ite ?_ (Agree.bind ih fun _ _ => Agree.pure trivial)
      exact Agree.bind (Agree.modify fun _ hc => hI.warn position _ hc) fun _ _ => hrest _

/-- A rule is expanded in a frame for itself, with the selectors that the rule around it lends. -/
theorem flattenRule_agrees (position : Position) (own : List Selector) {m m' : Compile (List Node)}
    (h : Agree I (AllCarry V) m m') :
    Agree I (AllCarry V) (flattenRule position own m) (flattenRule position own m') := by
  have hrule : ∀ selectors outer, Agree I (AllCarry V) (expandRule position selectors outer m)
      (expandRule position selectors outer m') := by
    intro selectors outer
    refine Agree.ite (Agree.pure allCarry_nil) ?_
    refine Agree.bind (inRule_agrees hI _ h) fun inner hinner => ?_
    exact Agree.pure (splitRule_carries position selectors hinner)
  refine Agree.bind hI.scopes fun s _ => ?_
  split
  · exact Agree.bind (strip_agrees hI position own) fun kept _ => hrule kept []
  next parents _ _ =>
    refine Agree.bind (Agree.ofFault (Q := fun _ => True) position fun _ _ => trivial) ?_
    exact fun selectors _ => hrule selectors parents

/-- What bubbles is expanded in the rule around it, if there is one. -/
theorem flattenBubbling_agrees (position : Position) {m m' : Compile (List Node)}
    (h : Agree I (AllCarry V) m m') :
    Agree I (AllCarry V) (flattenBubbling position m) (flattenBubbling position m') := by
  refine Agree.bind hI.scopes fun s _ => ?_
  split
  · exact hI.inScope h
  · exact inRule_agrees hI _ (flattenRule_agrees hI position _ h)

section
variable {call : Caller} (hcall : CallersAgree V I call call)
include hcall

theorem sourceSelectors_agrees (position : Position) (source : SelectorSource) :
    Agree I (fun _ => True) (sourceSelectors call position source)
      (sourceSelectors call position source) := by
  cases source with
  | parsed selectors => exact Agree.pure trivial
  | interpolated text =>
      refine Agree.bind (interpolate_agrees hI.toKeeping hcall position text) fun t _ => ?_
      split
      · exact Agree.pure trivial
      · exact Agree.throw _

theorem flattenDeclaration_agrees (position : Position) (name : Interpolation) (value : Value)
    (important : Bool) :
    Agree I (fun n => n.Carries V) (flattenDeclaration call position name value important)
      (flattenDeclaration call position name value important) := by
  refine Agree.bind (interpolate_agrees hI.toKeeping hcall position name) fun text _ => ?_
  refine Agree.bind (evaluate_agrees hI.toKeeping hcall position false value) fun v hv => ?_
  refine Agree.bind Agree.get fun c _ => ?_
  have hrebased : ∀ rebase : Bool, V (if rebase then v.rebaseUrls c.urlBase else v) := by
    intro rebase
    split
    · exact hI.kind.rebaseUrls c.urlBase hv
    · exact hv
  exact Agree.pure (.declaration (hrebased _))

/-- An extension is recorded by selectors alone. -/
theorem recordExtend_agrees (position : Position) (target : SelectorSource) (optional : Bool) :
    Agree I (fun _ => True) (recordExtend call position target optional)
      (recordExtend call position target optional) := by
  refine Agree.bind hI.scopes fun s _ => ?_
  split
  · exact Agree.fail position _
  next selectors outer _ =>
    refine Agree.bind (sourceSelectors_agrees hI hcall position target) fun targets _ => ?_
    refine Agree.forM fun t _ => ?_
    split
    · exact Agree.throw _
    · exact Agree.forM fun s _ => Agree.modify fun c hc => hI.addExtension _ hc

end

/-! ## Bodies from elsewhere -/

/-- Content blocks agree if the topmost one on the stack does, wherever there is one. -/
theorem expandContent_agrees {s s' : Site}
    (h : ∀ {c block below} parent, I c → c.contents = some block :: below →
      Agree I (AllCarry V)
        (settingAside (some block) (seeing block.depth (inScope do
          modifyScopes (·.setParent parent)
          s.contentBody block.body)))
        (settingAside (some block) (seeing block.depth (inScope do
          modifyScopes (·.setParent parent)
          s'.contentBody block.body)))) :
    Agree I (AllCarry V) (expandContent s) (expandContent s') := by
  refine Agree.bind Agree.get fun c hc => ?_
  split
  next block below hcontents => exact Agree.bind hI.scopes fun scopes _ => h scopes.parent hc hcontents
  · exact Agree.pure allCarry_nil

omit hI in
/-- A property that does not depend on how deep bodies from elsewhere are nested, imports apart. -/
structure Nesting (V : Value → Prop) (I : Context → Prop) : Prop extends keeping : Keeping V I where
  enterCall : ∀ {c d name position}, I c → c.enterCall name position = .ok d → I d
  exitCall : ∀ {c}, I c → I c.exitCall
  pushContent : ∀ {c} block, I c → I (c.pushContent block)
  popContent : ∀ {c}, I c → I c.popContent
  hide : ∀ {c} depth, I c → I { c with scopes := (c.scopes.hideAbove depth).2 }
  restore : ∀ {c d} depth, I c → I d →
    I { d with scopes := d.scopes.restore (c.scopes.hideAbove depth).1 }

omit hI in
/-- Functions of a stylesheet, given values of a kind, answer one. -/
theorem Nesting.invoke_agrees (hI : Nesting V I) (calls : Nat) :
    CallersAgree V I (invoke calls) (invoke calls) := by
  induction calls with
  | zero => exact invoke_zero_agrees
  | succ calls ih =>
      rw [invoke_succ]
      exact callThrough_agrees hI.keeping.toKeeping ih hI.enterCall hI.exitCall

omit hI in
/-- Two sites do the same with bodies from elsewhere if these do the same wherever such a property
holds, and imported stylesheets do where they are imported. -/
theorem Nesting.sites (hI : Nesting V I) {s s' : Site} (hcalls : s'.calls = s.calls)
    (hblocks : s'.blocks = s.blocks)
    (hmixin : ∀ blocks nodes, Agree I (AllCarry V) (s.mixinBody blocks nodes)
      (s'.mixinBody blocks nodes))
    (hcontent : ∀ nodes, Agree I (AllCarry V) (s.contentBody nodes) (s'.contentBody nodes))
    (himported : ∀ {c target found}, I c → c.resolve target = .ok (some found) → ∀ nodes,
      let base := UrlPath.importedDirectory c.urlBase target
      Agree I (AllCarry V) (importing found.uri base (s.importedBody nodes))
        (importing found.uri base (s'.importedBody nodes))) :
    SitesAgree V I s s' where
  calls := hcalls
  caller := hI.invoke_agrees s.calls
  mixin {calls} name position block bound nodes _ hgiven hrest := by
    refine Agree.calling (J := I) name position ?_ hI.enterCall hI.exitCall
    refine Agree.passing (J := I) block (hI.inScope ?_) (hI.pushContent block) hI.popContent
    rw [hblocks]
    exact Agree.bind (bindParameters_agrees hI.keeping.toKeeping (hI.invoke_agrees calls) position
      hgiven hrest) fun _ _ => hmixin _ nodes
  imported := himported
  content := by
    refine expandContent_agrees hI.keeping fun {c block below} parent _ _ => ?_
    refine Agree.settingAside (J := I) _ ?_ hI.popContent (hI.pushContent (some block))
    refine Agree.seeing (J := I) block.depth ?_ (hI.hide block.depth) (hI.restore block.depth)
    exact inRule_agrees hI.keeping parent (hcontent block.body)

variable {s s' : Site} (hs : SitesAgree V I s s')
include hs

omit hI in
theorem expandImport_agrees (position : Position) (target : String) :
    Agree I (AllCarry V) (expandImport s position target) (expandImport s' position target) := by
  refine Agree.bind Agree.get fun c hc => ?_
  split
  · exact Agree.throw _
  · exact Agree.throw _
  next found hfound =>
    split
    · exact Agree.throw _
    · exact hs.imported hc hfound _

/-- A target that is left to CSS carries the value it came from; the others are files that are
expanded. -/
theorem flattenImport_agrees (position : Position) (target : Value) (media : Option Interpolation) :
    Agree I (AllCarry V) (flattenImport s position target media)
      (flattenImport s' position target media) := by
  have hrest : ∀ value (text : String), V value → Agree I (AllCarry V)
      (importAs s position value text) (importAs s' position value text) := by
    intro value text hvalue
    unfold importAs
    split
    · exact expandImport_agrees hs position _
    · refine Agree.bind Agree.get fun c _ => Agree.pure (allCarry_singleton (.importFile ?_))
      split
      · exact hI.kind.rebaseUrls c.urlBase hvalue
      · exact hvalue
  unfold flattenImport
  rw [hs.caller_eq]
  refine Agree.bind (evaluate_agrees hI.toKeeping hs.caller position false target)
    fun value hvalue => ?_
  cases media with
  | none => exact hrest value "" hvalue
  | some m =>
      exact Agree.bind (interpolate_agrees hI.toKeeping hs.caller position m) fun text _ =>
        hrest value (Text.trim text) hvalue

/-- Arguments and block are bound here, the body is expanded where the call leads. -/
theorem expandMixin_agrees (position : Position) (name : String) (arguments : List (Argument Value))
    (content : Option (List Node)) :
    Agree I (AllCarry V) (expandMixin s position name arguments content)
      (expandMixin s' position name arguments content) := by
  unfold expandMixin
  rw [hs.caller_eq, hs.calls]
  refine Agree.bind hI.scopes fun scopes _ => ?_
  split
  · exact Agree.fail position _
  next mixin _ =>
    refine Agree.bind (runArguments_agrees hI.toKeeping fun a _ =>
      evaluate_agrees hI.toKeeping hs.caller position true a.value) fun passed hpassed => ?_
    refine Agree.bind (Agree.ofFault (Q := fun bound => (∀ e ∈ bound.bindings, e.2.Holds V) ∧
      ∀ v ∈ bound.rest, V v) position fun bound hbound =>
        Signature.bind_holds hpassed hbound) fun bound hbound => ?_
    refine Agree.bind hI.scopes fun scopes _ => ?_
    dsimp only
    split
    · exact Agree.fail position _
    next calls hcalls => exact hs.mixin _ position _ _ hcalls hbound.1 hbound.2

end

/-! ## Loops -/

theorem forEach_agrees {run run' : Value → Compile (List Node)} {items : List Value}
    (h : ∀ v ∈ items, Agree I (AllCarry V) (run v) (run' v)) :
    Agree I (AllCarry V) (forEach run items) (forEach run' items) := by
  induction items with
  | nil => exact Agree.pure allCarry_nil
  | cons v rest ih =>
      exact append_agrees (h v List.mem_cons_self) (ih fun w hw => h w (List.mem_cons_of_mem v hw))

/-- The rounds are counted alike, and the fault of too many is the same. -/
theorem whileHolds_agrees {condition : Compile Bool} {run run' : Compile (List Node)}
    (hc : Agree I (fun _ => True) condition condition) (h : Agree I (AllCarry V) run run')
    (rounds : Nat) :
    Agree I (AllCarry V) (whileHolds condition run rounds) (whileHolds condition run' rounds) := by
  induction rounds with
  | zero => exact Agree.bind hc fun _ _ => Agree.ite (Agree.throw _) (Agree.pure allCarry_nil)
  | succ rounds ih =>
      exact Agree.bind hc fun _ _ => Agree.ite (append_agrees h ih) (Agree.pure allCarry_nil)

/-! ## Statements -/

mutual

/-- **Expansions of statements agree** at two sites that do the same with bodies from elsewhere. -/
theorem flattenNodes_agrees (hI : Keeping V I) {s s' : Site} (hs : SitesAgree V I s s') :
    ∀ nodes : List Node, Agree I (AllCarry V) (flattenNodes s nodes) (flattenNodes s' nodes)
  | [] => Agree.pure allCarry_nil
  | node :: rest => by
      rw [flattenNodes, flattenNodes]
      exact append_agrees (flattenNode_agrees hI hs node) (flattenNodes_agrees hI hs rest)

theorem flattenNode_agrees (hI : Keeping V I) {s s' : Site} (hs : SitesAgree V I s s') :
    ∀ node : Node, Agree I (AllCarry V) (flattenNode s node) (flattenNode s' node)
  | .mk position statement => flattenStatement_agrees hI hs position statement

/-- One case for each kind of statement. What is evaluated is evaluated alike at both sites; the values
that come of it are carried into the frames and into the statements that are left. -/
theorem flattenStatement_agrees (hI : Keeping V I) {s s' : Site} (hs : SitesAgree V I s s')
    (position : Position) : ∀ statement : Statement, Agree I (AllCarry V)
      (flattenStatement s position statement) (flattenStatement s' position statement)
  | .rule selectors body => by
      rw [flattenStatement, flattenStatement, hs.caller_eq]
      refine Agree.bind (sourceSelectors_agrees hI hs.caller position selectors) fun own _ => ?_
      -- only after its selectors are known is the frame of the rule set up
      exact flattenRule_agrees hI position own (flattenNodes_agrees hI hs body)
  | .declaration name value important => by
      rw [flattenStatement, flattenStatement, hs.caller_eq]
      exact Agree.bind (flattenDeclaration_agrees hI hs.caller position name value important)
        fun n hn => Agree.pure (allCarry_singleton hn)
  | .assignment name value ifUnset isGlobal => by
      rw [flattenStatement, flattenStatement, hs.caller_eq]
      exact done_agrees (assign_agrees hI.toKeeping hs.caller position name value ifUnset isGlobal)
  | .media query body => by
      rw [flattenStatement, flattenStatement, hs.caller_eq]
      refine Agree.bind (interpolate_agrees hI.toKeeping hs.caller position query) fun text _ => ?_
      refine Agree.bind (flattenBubbling_agrees hI position (flattenNodes_agrees hI hs body))
        fun inner hinner => ?_
      -- nested queries come out beside the directive, with what they carried
      exact Agree.pure (splitMedia_carries position _ hinner)
  | .extend target optional => by
      rw [flattenStatement, flattenStatement, hs.caller_eq]
      exact done_agrees (recordExtend_agrees hI hs.caller position target optional)
  | .mixin name signature body => done_agrees (Agree.modify fun _ hc => hI.defineMixin _ hc)
  | .function name signature body => done_agrees (Agree.modify fun _ hc => hI.defineFunction _ hc)
  -- bodies from elsewhere: of a mixin, of the block that was passed, of an imported file
  | .includeMixin name arguments content => by
      rw [flattenStatement, flattenStatement]
      exact expandMixin_agrees hI hs position name arguments content
  | .content => by
      rw [flattenStatement, flattenStatement]
      exact hs.content
  | .returnValue _ => Agree.fail position _
  | .branches alternatives => by
      rw [flattenStatement, flattenStatement]
      exact flattenBranches_agrees hI hs position alternatives
  | .eachLoop names list body => by
      rw [flattenStatement, flattenStatement, hs.caller_eq]
      refine Agree.bind (eachItems_agrees hI.toKeeping hs.caller position list) fun items hitems => ?_
      -- a round binds an entry of the list, which carries what the list carries
      refine forEach_agrees fun item hitem => hI.inScope ?_
      exact Agree.bind (bindItem_agrees hI.toKeeping names (hitems item hitem)) fun _ _ =>
        flattenNodes_agrees hI hs body
  | .forLoop counter start stop isInclusive body => by
      rw [flattenStatement, flattenStatement, hs.caller_eq]
      refine Agree.bind (loopValues_agrees hI.toKeeping hs.caller position start stop isInclusive)
        fun _ hvalues => ?_
      refine forEach_agrees fun i hi => hI.inScope ?_
      exact Agree.bind (hI.binds counter (hvalues i hi)) fun _ _ => flattenNodes_agrees hI hs body
  | .whileLoop condition body => by
      rw [flattenStatement, flattenStatement, hs.caller_eq]
      exact whileHolds_agrees (holds_agrees hI.toKeeping hs.caller position condition)
        (hI.inScope (flattenNodes_agrees hI hs body)) maxRounds
  | .importFile target media => by
      rw [flattenStatement, flattenStatement]
      exact flattenImport_agrees hI hs position target media
  | .comment text => Agree.pure (allCarry_singleton .comment)
  | .atRule name prelude none => by
      rw [flattenStatement, flattenStatement, hs.caller_eq]
      exact Agree.bind (interpolate_agrees hI.toKeeping hs.caller position prelude) fun text _ =>
        Agree.pure (allCarry_singleton .bareAtRule)
  | .atRule name prelude (some body) => by
      rw [flattenStatement, flattenStatement, hs.caller_eq]
      have hbody := flattenNodes_agrees hI hs body
      refine Agree.bind (interpolate_agrees hI.toKeeping hs.caller position prelude) fun text _ => ?_
      -- `@font-face` and the like keep their body, any other directive bubbles as `@media` does
      split
      · exact Agree.bind (inRule_agrees hI .topLevel hbody) fun inner hinner =>
          Agree.pure (allCarry_singleton (.atRule hinner))
      · exact Agree.bind (flattenBubbling_agrees hI position hbody) fun inner hinner =>
          Agree.pure (allCarry_singleton (.atRule hinner))
  | .diagnostic level message => by
      rw [flattenStatement, flattenStatement, hs.caller_eq]
      exact done_agrees (report_agrees hI.toKeeping hs.caller position level message)

theorem flattenBranches_agrees (hI : Keeping V I) {s s' : Site} (hs : SitesAgree V I s s')
    (position : Position) : ∀ alternatives : List (Option Value × List Node),
      Agree I (AllCarry V) (flattenBranches s position alternatives)
        (flattenBranches s' position alternatives)
  | [] => Agree.pure allCarry_nil
  | (none, body) :: _ => by
      rw [flattenBranches, flattenBranches]
      exact hI.inScope (flattenNodes_agrees hI hs body)
  | (some condition, body) :: rest => by
      rw [flattenBranches, flattenBranches, hs.caller_eq]
      refine Agree.bind (holds_agrees hI.toKeeping hs.caller position condition) fun taken _ => ?_
      refine Agree.ite (hI.inScope (flattenNodes_agrees hI hs body)) ?_
      exact flattenBranches_agrees hI hs position rest

end

end Flatten

end Scss
