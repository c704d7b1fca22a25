import Scss.Flatten
import Scss.Proofs.Evaluating

/-!
# One induction over everything that is expanded

Flattening is a recursion on four things at once, and it meets many kinds of statements on the way.
What it does with the statements that it leaves, though, is done by a few steps: a list of
statements is put behind another, a rule is split, a media directive is merged, a body runs in a
scope, in an imported stylesheet, or with frames hidden from it.

`Relating S E N` says that a relation `N` between two expansions is kept by these steps, where `E`
is the property of the evaluations in between, and `S` is known of all statements. The two differ in
the bodies that come from elsewhere; so if these are related, the expansions are
(`flattenNodes_relate`).

With one expansion twice, this is about a property of expansions. `Expanding S E N` says that the
steps into bodies from elsewhere keep it too, and `expand_meets` concludes that every expansion has
it, whatever is nested in what. The facts about flattening as a whole are each proved step by step,
and the induction is done here once.
-/

namespace Scss

namespace Flatten

open Compile Evaluation

/-- Whether a media query of an import, as it is written, restricts anything. -/
def restricts (media : Option Interpolation) : Bool :=
  match media with
  | none => false
  | some m => !(Interpolation.text m).isEmpty && !Text.sameIgnoringCase (Interpolation.text m) "all"

/-- A statement without a body that plain CSS has. An import is left to the browser. -/
def IsBare : Statement → Prop
  | .declaration .. | .comment _ | .atRule _ _ none => True
  | .importFile target media => inlineTarget? target (restricts media) = none
  | _ => False

/-- What becomes of an import, once its target and the text of its query are known. -/
def importAs (s : Site) (position : Position) (target : Value) (media : String) :
    Compile (List Node) := do
  match inlineTarget? target (!media.isEmpty && !Text.sameIgnoringCase media "all") with
  | some file => expandImport s position file
  | none =>
    let c ← get
    let target := if c.urlMode = .relative then target.rebaseUrls c.urlBase else target
    let media := if media.isEmpty then none else some (Interpolation.literal media)
    return [.mk position (.importFile target media)]

/-- The second half of flattening a rule, once its selectors are resolved. -/
def expandRule (position : Position) (selectors outer : List Selector)
    (body : Compile (List Node)) : Compile (List Node) := do
  if selectors.isEmpty then
    return []
  let inner ← inScope do
    modifyScopes (·.setParent (.rule selectors outer))
    body
  return splitRule position selectors inner

/-- A rule resolves its selectors in the rule around, and goes on with the second half. -/
theorem outcome_flattenRule (position : Position) (own : List Selector)
    (body : Compile (List Node)) (c : Context) :
    (flattenRule position own body).outcome c = match c.scopes.parent with
      | .topLevel => outcome (do
          expandRule position (← strip position own) [] body) c
      | .rule parents _ => outcome (do
          expandRule position (← ofFault position (nest own parents)) parents body) c := by
  unfold flattenRule
  rw [outcome_scopes_bind]
  cases c.scopes.parent <;> rfl

section
variable {position : Position} {selectors : List Selector} {query : String} {body : List Node} {n : Node}

/-- What is left of a rule: statements of its body, and the rule around declarations and comments of
it. -/
theorem mem_splitRule (h : n ∈ splitRule position selectors body) :
    n ∈ body ∨ ∃ leaves, leaves ≠ [] ∧ (∀ m ∈ leaves, m ∈ body ∧ m.statement.isLeaf = true) ∧
      n = .mk position (.rule (.parsed selectors) leaves) := by
  unfold splitRule at h
  dsimp only at h
  split at h
  · exact .inl (List.mem_filter.mp h).1
  next hleaves =>
    rcases List.mem_cons.mp h with hrule | hother
    · exact .inr ⟨_, fun hnil => hleaves (by rw [hnil]; rfl), fun m hm => List.mem_filter.mp hm, hrule⟩
    · exact .inl (List.mem_filter.mp hother).1

/-- Only media directives are merged, each with its own body. -/
theorem mem_mergedMedia (h : n ∈ mergedMedia query body) :
    ∃ place inner nested, Node.mk place (.media inner nested) ∈ body ∧
      n = .mk place (.media
        (Interpolation.literal (mergeQueries query (Interpolation.text inner))) nested) := by
  induction body with
  | nil => exact absurd h List.not_mem_nil
  | cons m rest ih =>
      obtain ⟨place, statement⟩ := m
      by_cases hrest : n ∈ mergedMedia query rest
      · obtain ⟨place, inner, nested, hmem, hn⟩ := ih hrest
        exact ⟨place, inner, nested, List.mem_cons_of_mem _ hmem, hn⟩
      · cases statement with
        | media inner nested =>
            exact ⟨place, inner, nested, List.mem_cons_self, (List.mem_cons.mp h).resolve_right hrest⟩
        | _ => exact absurd h hrest

/-- What is left of a media directive: the merged ones, and the directive around everything else. -/
theorem mem_splitMedia (h : n ∈ splitMedia position query body) :
    n ∈ mergedMedia query body ∨ ∃ others, others ≠ [] ∧
      (∀ m ∈ others, m ∈ body ∧ ∀ inner nested, m.statement ≠ .media inner nested) ∧
      n = .mk position (.media (Interpolation.literal query) others) := by
  unfold splitMedia at h
  dsimp only at h
  split at h
  · exact .inl h
  next hothers =>
    rcases List.mem_cons.mp h with hmedia | hmerged
    · refine .inr ⟨_, fun hnil => hothers (by rw [hnil]; rfl), fun m hm => ?_, hmedia⟩
      obtain ⟨hbody, htest⟩ := List.mem_filter.mp hm
      exact ⟨hbody, fun inner nested hm => by rw [hm] at htest; cases htest⟩
    · exact .inl hmerged

end

/-- What expands a body is done with these steps, and `N` is a relation that all of them keep. -/
structure Relating (S : Statement → Prop) (E : ∀ {α : Type}, Compile α → Prop)
    (N : Compile (List Node) → Compile (List Node) → Prop) : Prop where
  executing : Executing S E
  context : E (get : Compile Context)
  nothing : N (pure []) (pure [])
  raise : ∀ failure, N (throw failure) (throw failure)
  bare : ∀ position {statement}, IsBare statement →
    N (pure [.mk position statement]) (pure [.mk position statement])
  after : ∀ {α : Type} {m : Compile α} {f f' : α → Compile (List Node)},
    E m → (∀ a, N (f a) (f' a)) → N (m >>= f) (m >>= f')
  append : ∀ {m m' n n' : Compile (List Node)}, N m m' → N n n' →
    N (do let front ← m; return front ++ (← n)) (do let front ← m'; return front ++ (← n'))
  inScope : ∀ {m m'}, N m m' → N (Compile.inScope m) (Compile.inScope m')
  /-- A body at the top level. -/
  topLevel : ∀ {m m'}, N m m' →
    N (Compile.inScope do modifyScopes (·.setParent .topLevel); m)
      (Compile.inScope do modifyScopes (·.setParent .topLevel); m')
  rule : ∀ {call : Caller} {source body}, CallerKeeps S E call → S (.rule source body) →
    ∀ position {m m'}, N m m' →
      N (do flattenRule position (← sourceSelectors call position source) m)
        (do flattenRule position (← sourceSelectors call position source) m')
  bubbling : ∀ position {m m'}, N m m' →
    N (flattenBubbling position m) (flattenBubbling position m')
  media : ∀ position query {m m'}, N m m' →
    N (do return splitMedia position query (← m)) (do return splitMedia position query (← m'))
  atRule : ∀ position name prelude {m m'}, N m m' →
    N (do return [.mk position (.atRule name (Interpolation.literal prelude) (some (← m)))])
      (do return [.mk position (.atRule name (Interpolation.literal prelude) (some (← m')))])
  recordExtend : ∀ {call : Caller} {target optional}, CallerKeeps S E call →
    S (.extend target optional) → ∀ position, E (recordExtend call position target optional)
  defineMixin : ∀ {d : Definition}, (∀ n ∈ d.body, n.All S) → E (modifyScopes (·.defineMixin d))
  defineFunction : ∀ {d : Definition}, (∀ n ∈ d.body, n.All S) →
    E (modifyScopes (·.defineFunction d))

/-- Two sites at which the same calls may still nest, and whose bodies from elsewhere are
related. -/
structure SitesRelate (S : Statement → Prop)
    (N : Compile (List Node) → Compile (List Node) → Prop) (s s' : Site) : Prop where
  calls : s'.calls = s.calls
  mixin : ∀ position name arguments {content : Option (List Node)},
    (∀ body ∈ content, ∀ n ∈ body, n.All S) →
      N (expandMixin s position name arguments content)
        (expandMixin s' position name arguments content)
  imported : ∀ position target, N (expandImport s position target) (expandImport s' position target)
  content : N (expandContent s) (expandContent s')

theorem SitesRelate.caller_eq {S : Statement → Prop}
    {N : Compile (List Node) → Compile (List Node) → Prop} {s s' : Site}
    (hs : SitesRelate S N s s') : s'.caller = s.caller := congrArg invoke hs.calls

/-- Rebasing does not turn an import that is left alone into one that is not. -/
theorem inlineTarget?_rebaseUrls (base : String) (target : Value) (hasMedia : Bool) :
    inlineTarget? (target.rebaseUrls base) hasMedia = inlineTarget? target hasMedia := by
  match target with
  | .null | .number _ | .color _ | .quoted _ _ | .word _ | .variable _ | .paren _
  | .interpolated _ _ | .call _ [] | .call _ (_ :: _ :: _) => rfl
  | .list items separator => rw [Value.rebaseUrls]; rfl
  | .expression tokens => rw [Value.rebaseUrls]; rfl
  | .call name [argument] =>
      rw [Value.rebaseUrls]
      split
      · split <;> rfl
      · rfl

/-- The media query of an import that stays restricts what the trimmed text does. -/
theorem restricts_literal (media : String) :
    restricts (if media.isEmpty then none else some (Interpolation.literal media)) =
      (!media.isEmpty && !Text.sameIgnoringCase media "all") := by
  have htext : Interpolation.text (Interpolation.literal media) = media := by
    simp [Interpolation.literal, Interpolation.text]
  cases h : media.isEmpty with
  | true => rfl
  | false =>
      show (!(Interpolation.text (Interpolation.literal media)).isEmpty && _) = _
      rw [htext, h]

/-- Selectors are read off an evaluated text, or have been read already. -/
theorem sourceSelectors_keeps {S : Statement → Prop} {E : ∀ {α : Type}, Compile α → Prop}
    (hN : Evaluating S E) {call : Caller} (hcall : CallerKeeps S E call) (position : Position)
    (source : SelectorSource) : E (sourceSelectors call position source) := by
  cases source with
  | parsed selectors => exact hN.pure selectors
  | interpolated text =>
      refine hN.bind (interpolate_keeps hN hcall position text) fun t => ?_
      split
      · exact hN.pure _
      · exact hN.throw _

section
variable {S : Statement → Prop} {E : ∀ {α : Type}, Compile α → Prop}
  {N : Compile (List Node) → Compile (List Node) → Prop} (hE : Relating S E N)
include hE

theorem Relating.fail (position : Position) (fault : EvaluationFault) :
    N (Compile.fail position fault) (Compile.fail position fault) := hE.raise _

/-- After a step whose only result is that it was done. -/
theorem Relating.done {m : Compile Unit} (h : E m) :
    N (do m; return []) (do m; return []) :=
  hE.after h fun _ => hE.nothing

/-- A declaration is made of what its name and its value evaluate to. -/
theorem flattenDeclaration_relates {call : Caller} (hcall : CallerKeeps S E call)
    (position : Position) (name : Interpolation) (value : Value) (important : Bool) :
    N (do return [← flattenDeclaration call position name value important])
      (do return [← flattenDeclaration call position name value important]) := by
  simp only [flattenDeclaration, bind_assoc, pure_bind]
  refine hE.after (interpolate_keeps hE.executing.toEvaluating hcall position name) fun text => ?_
  refine hE.after (evaluate_keeps hE.executing.toEvaluating hcall position false value) fun v => ?_
  exact hE.after hE.context fun c => hE.bare position trivial

theorem caller_keeps {s : Site} : CallerKeeps S E s.caller := invoke_keeps hE.executing s.calls

variable {s s' : Site} (hs : SitesRelate S N s s')
include hs

theorem importAs_relates (position : Position) (target : Value) (media : String) :
    N (importAs s position target media) (importAs s' position target media) := by
  unfold importAs
  split
  · exact hs.imported position _
  next hplain =>
    refine hE.after hE.context fun c => hE.bare position ?_
    show inlineTarget? _ (restricts _) = none
    rw [restricts_literal]
    split
    · rw [inlineTarget?_rebaseUrls]; exact hplain
    · exact hplain

/-- An import is left to CSS or expanded, which the value of its target decides. -/
theorem flattenImport_relates (position : Position) (target : Value)
    (media : Option Interpolation) :
    N (flattenImport s position target media) (flattenImport s' position target media) := by
  have hcall : CallerKeeps S E s.caller := caller_keeps hE
  unfold flattenImport
  rw [hs.caller_eq]
  refine hE.after (evaluate_keeps hE.executing.toEvaluating hcall position false target) fun value => ?_
  cases media with
  | none => exact importAs_relates hE hs position value ""
  | some m =>
      refine hE.after (interpolate_keeps hE.executing.toEvaluating hcall position m) fun text => ?_
      exact importAs_relates hE hs position value (Text.trim text)

omit hs

theorem forEach_relates {α : Type} {run run' : α → Compile (List Node)}
    (h : ∀ a, N (run a) (run' a)) (items : List α) : N (forEach run items) (forEach run' items) := by
  induction items with
  | nil => exact hE.nothing
  | cons a rest ih => exact hE.append (h a) ih

/-- Rounds are related one by one, as long as the condition holds. -/
theorem whileHolds_relates {condition : Compile Bool} {run run' : Compile (List Node)}
    (hc : E condition) (h : N run run') (rounds : Nat) :
    N (whileHolds condition run rounds) (whileHolds condition run' rounds) := by
  induction rounds with
  | zero =>
      refine hE.after hc fun again => ?_
      cases again with
      | true => exact hE.raise _
      | false => exact hE.nothing
  | succ rounds ih =>
      refine hE.after hc fun again => ?_
      cases again with
      | true => exact hE.append h ih
      | false => exact hE.nothing

end

/-! ## Statements -/

section
variable {S : Statement → Prop} {E : ∀ {α : Type}, Compile α → Prop}
  {N : Compile (List Node) → Compile (List Node) → Prop}

mutual

/-- **Expansions of statements are related** at two sites whose bodies from elsewhere are. -/
theorem flattenNodes_relate (hE : Relating S E N) {s s' : Site} (hs : SitesRelate S N s s') :
    ∀ nodes : List Node, (∀ n ∈ nodes, n.All S) → N (flattenNodes s nodes) (flattenNodes s' nodes)
  | [], _ => hE.nothing
  | node :: rest, hnodes => by
      rw [flattenNodes, flattenNodes]
      obtain ⟨hnode, hrest⟩ := List.forall_mem_cons.mp hnodes
      exact hE.append (flattenNode_relate hE hs node hnode) (flattenNodes_relate hE hs rest hrest)

theorem flattenNode_relate (hE : Relating S E N) {s s' : Site} (hs : SitesRelate S N s s') :
    ∀ node : Node, node.All S → N (flattenNode s node) (flattenNode s' node)
  | .mk position statement, .mk own inside =>
      flattenStatement_relate hE hs position statement own inside

/-- One case for each kind of statement. The two sites read values alike, so that what is evaluated
in front of a body is one computation on both sides; what they do differently is left to `hs`. -/
theorem flattenStatement_relate (hE : Relating S E N) {s s' : Site} (hs : SitesRelate S N s s')
    (position : Position) : ∀ statement : Statement, S statement →
      (∀ body ∈ statement.bodies, ∀ n ∈ body, n.All S) →
      N (flattenStatement s position statement) (flattenStatement s' position statement)
  | .rule selectors body, own, inside => by
      rw [flattenStatement, flattenStatement, hs.caller_eq]
      -- the selectors are read and the frame set up around the body in one step
      exact hE.rule (caller_keeps hE) own position
        (flattenNodes_relate hE hs body (inside body List.mem_cons_self))
  | .declaration name value important, _, _ => by
      rw [flattenStatement, flattenStatement, hs.caller_eq]
      exact flattenDeclaration_relates hE (caller_keeps hE) position name value important
  | .assignment name value ifUnset isGlobal, own, _ => by
      rw [flattenStatement, flattenStatement, hs.caller_eq]
      exact hE.done (assign_keeps hE.executing (caller_keeps hE) position own)
  | .media query body, _, inside => by
      rw [flattenStatement, flattenStatement, hs.caller_eq]
      have hbody := flattenNodes_relate hE hs body (inside body List.mem_cons_self)
      refine hE.after (interpolate_keeps hE.executing.toEvaluating (caller_keeps hE) position query)
        fun text => ?_
      -- the body is wrapped in the enclosing rule before the directive takes it
      exact hE.media position _ (hE.bubbling position hbody)
  | .extend target optional, own, _ => by
      rw [flattenStatement, flattenStatement, hs.caller_eq]
      exact hE.done (hE.recordExtend (caller_keeps hE) own position)
  -- a body that is only stored has to be of the kind that later calls may rely on
  | .mixin name signature body, _, inside =>
      hE.done (hE.defineMixin (inside body List.mem_cons_self))
  | .function name signature body, _, inside =>
      hE.done (hE.defineFunction (inside body List.mem_cons_self))
  -- the statements that expand a body from elsewhere are where the sites differ
  | .includeMixin name arguments content, _, inside => by
      rw [flattenStatement, flattenStatement]
      refine hs.mixin position name arguments fun body hbody => ?_
      obtain rfl := Option.mem_def.mp hbody
      exact inside body List.mem_cons_self
  | .content, _, _ => by
      rw [flattenStatement, flattenStatement]
      exact hs.content
  | .returnValue _, _, _ => hE.fail position _
  | .branches alternatives, _, inside => by
      rw [flattenStatement, flattenStatement]
      exact flattenBranches_relate hE hs position alternatives inside
  | .eachLoop names list body, _, inside => by
      rw [flattenStatement, flattenStatement, hs.caller_eq]
      have hbody := flattenNodes_relate hE hs body (inside body List.mem_cons_self)
      refine hE.after (eachItems_keeps hE.executing.toEvaluating (caller_keeps hE) position list)
        fun items => ?_
      -- each round binds its item inside of its own scope
      refine forEach_relates hE (fun item => hE.inScope ?_) items
      exact hE.after (bindItem_keeps hE.executing names item) fun _ => hbody
  | .forLoop counter start stop isInclusive body, _, inside => by
      rw [flattenStatement, flattenStatement, hs.caller_eq]
      have hbody := flattenNodes_relate hE hs body (inside body List.mem_cons_self)
      refine hE.after (loopValues_keeps hE.executing.toEvaluating (caller_keeps hE) position start stop
        isInclusive) fun is => ?_
      refine forEach_relates hE (fun i => hE.inScope ?_) is
      exact hE.after (hE.executing.define counter i) fun _ => hbody
  | .whileLoop condition body, _, inside => by
      rw [flattenStatement, flattenStatement, hs.caller_eq]
      have hbody := flattenNodes_relate hE hs body (inside body List.mem_cons_self)
      exact whileHolds_relates hE
        (holds_keeps hE.executing.toEvaluating (caller_keeps hE) position condition)
        (hE.inScope hbody) maxRounds
  | .importFile target media, _, _ => by
      rw [flattenStatement, flattenStatement]
      exact flattenImport_relates hE hs position target media
  | .comment text, _, _ => hE.bare position trivial
  | .atRule name prelude none, _, _ => by
      rw [flattenStatement, flattenStatement, hs.caller_eq]
      refine hE.after (interpolate_keeps hE.executing.toEvaluating (caller_keeps hE) position prelude)
        fun text => ?_
      exact hE.bare position trivial
  | .atRule name prelude (some body), _, inside => by
      rw [flattenStatement, flattenStatement, hs.caller_eq]
      have hbody := flattenNodes_relate hE hs body (inside body List.mem_cons_self)
      refine hE.after (interpolate_keeps hE.executing.toEvaluating (caller_keeps hE) position prelude)
        fun text => ?_
      -- `@font-face` and the like keep their body, any other directive bubbles as `@media` does
      split
      · exact hE.atRule position name _ (hE.topLevel hbody)
      · exact hE.atRule position name _ (hE.bubbling position hbody)
  | .diagnostic level message, _, _ => by
      rw [flattenStatement, flattenStatement, hs.caller_eq]
      exact hE.done (report_keeps hE.executing (caller_keeps hE) position level message)

theorem flattenBranches_relate (hE : Relating S E N) {s s' : Site} (hs : SitesRelate S N s s')
    (position : Position) : ∀ alternatives : List (Option Value × List Node),
      (∀ body ∈ alternatives.map Prod.snd, ∀ n ∈ body, n.All S) →
        N (flattenBranches s position alternatives) (flattenBranches s' position alternatives)
  | [], _ => hE.nothing
  | (none, body) :: _, inside => by
      rw [flattenBranches, flattenBranches]
      exact hE.inScope (flattenNodes_relate hE hs body (inside body List.mem_cons_self))
  | (some condition, body) :: rest, inside => by
      rw [flattenBranches, flattenBranches, hs.caller_eq]
      have hbody := flattenNodes_relate hE hs body (inside body List.mem_cons_self)
      refine hE.after (holds_keeps hE.executing.toEvaluating (caller_keeps hE) position condition)
        fun taken => ?_
      cases taken with
      | true => exact hE.inScope hbody
      | false =>
          exact flattenBranches_relate hE hs position rest fun later hlater =>
            inside later (List.mem_cons_of_mem body hlater)

end

end

/-! ## Properties of expansions -/

/-- The steps into bodies from elsewhere keep a property, too. -/
structure Expanding (S : Statement → Prop) (E : ∀ {α : Type}, Compile α → Prop)
    (N : Compile (List Node) → Prop) : Prop extends Relating S E (fun m _ => N m) where
  reading : ∀ {f : Context → Compile (List Node)}, (∀ c, c.AllCode S → N (f c)) → N (get >>= f)
  calling : ∀ name position {m}, N m → N (Compile.calling name position m)
  passing : ∀ {block : Option ContentBlock} {m}, (∀ b ∈ block, ∀ n ∈ b.body, n.All S) → N m →
    N (Compile.passing block m)
  content : ∀ {s : Site}, (∀ nodes, (∀ n ∈ nodes, n.All S) → N (s.contentBody nodes)) →
    N (expandContent s)
  importing : ∀ uri base {m}, N m → N (Compile.importing uri base m)

/-- The bodies that a site expands from elsewhere have a property, if all code satisfies `S`. -/
structure Site.Meets (S : Statement → Prop) (N : Compile (List Node) → Prop) (s : Site) : Prop where
  mixinBody : ∀ blocks nodes, (∀ n ∈ nodes, n.All S) → N (s.mixinBody blocks nodes)
  importedBody : ∀ nodes, (∀ n ∈ nodes, n.All S) → N (s.importedBody nodes)
  contentBody : ∀ nodes, (∀ n ∈ nodes, n.All S) → N (s.contentBody nodes)

section
variable {S : Statement → Prop} {E : ∀ {α : Type}, Compile α → Prop}

section
variable {N : Compile (List Node) → Prop}
  (hafter : ∀ {α : Type} {m : Compile α} {f : α → Compile (List Node)},
    E m → (∀ a, N (f a)) → N (m >>= f))
  (hrule : ∀ position own {m}, N m → N (flattenRule position own m)) (hE : Evaluating S E)
include hafter hrule hE

/-- A property that every rule keeps, whatever its selectors are, is kept by a rule whose selectors
are to be read first. -/
theorem sourcedRule_of {call : Caller} (hcall : CallerKeeps S E call) (position : Position)
    (source : SelectorSource) {m : Compile (List Node)} (h : N m) :
    N (do flattenRule position (← sourceSelectors call position source) m) :=
  hafter (sourceSelectors_keeps hE hcall position source) fun own => hrule position own h

theorem flattenBubbling_of (hR : Reading S E)
    (hinScope : ∀ {m : Compile (List Node)}, N m → N (inScope m))
    (htop : ∀ {m : Compile (List Node)}, N m →
      N (inScope do modifyScopes (·.setParent .topLevel); m))
    (position : Position) {m : Compile (List Node)} (h : N m) :
    N (flattenBubbling position m) := by
  refine hafter (hR.scopes fun c _ => hE.pure c.scopes) fun s => ?_
  split
  · exact hinScope h
  · exact htop (hrule position _ h)

end

section
variable (hE : Evaluating S E) (hwarn : ∀ position message, E (warn position message))
include hE hwarn

/-- Taking out placeholders may fail at the selectors and does nothing else. -/
theorem strip_keeps (position : Position) (selectors : List Selector) :
    E (strip position selectors) := by
  induction selectors with
  | nil => exact hE.pure []
  | cons s rest ih =>
      refine hE.ite ?_ ?_
      · refine hE.bind (hwarn position _) fun _ => ?_
        exact hE.bind ih fun kept => hE.pure _
      · exact hE.bind ih fun kept => hE.pure _

/-- A rule keeps what its body keeps in a scope that is made the scope of a rule. -/
theorem flattenRule_keeps (hR : Reading S E) (position : Position) (own : List Selector)
    {m : Compile (List Node)} (h : ∀ parent, E (inScope do modifyScopes (·.setParent parent); m)) :
    E (flattenRule position own m) := by
  have hsplit : ∀ selectors outer, E (expandRule position selectors outer m) := fun _ _ =>
    hE.ite (hE.pure []) (hE.bind (h _) fun inner => hE.pure _)
  refine hR.scopes fun c _ => ?_
  dsimp only
  split
  · exact hE.bind (strip_keeps hE hwarn position own) fun selectors => hsplit selectors []
  · exact hE.bind (hE.ofFault position _) fun selectors => hsplit selectors _

end

/-- An expansion keeps what evaluations keep, if that is also kept in a scope made the scope of a
rule, by what is recorded and defined, and by the steps into bodies from elsewhere. -/
theorem expanding_of_executing (hE : Executing S E) (hR : Reading S E)
    (hparent : ∀ parent {m : Compile (List Node)}, E m →
      E (inScope do modifyScopes (·.setParent parent); m))
    (hextension : ∀ e : Extension, E (modify fun c => c.addExtension e))
    (hmixin : ∀ {d : Definition}, (∀ n ∈ d.body, n.All S) → E (modifyScopes (·.defineMixin d)))
    (hfunction : ∀ {d : Definition}, (∀ n ∈ d.body, n.All S) →
      E (modifyScopes (·.defineFunction d)))
    (hpassing : ∀ {block : Option ContentBlock} {m : Compile (List Node)},
      (∀ b ∈ block, ∀ n ∈ b.body, n.All S) → E m → E (passing block m))
    (hcontent : ∀ {s : Site}, (∀ nodes, (∀ n ∈ nodes, n.All S) → E (s.contentBody nodes)) →
      E (expandContent s))
    (himporting : ∀ uri base {m : Compile (List Node)}, E m → E (importing uri base m)) :
    Expanding S E fun m => E m := by
  have hrule : ∀ position own {m}, E m → E (flattenRule position own m) :=
    fun position own _ h => flattenRule_keeps hE.toEvaluating hE.warn hR position own
      fun parent => hparent parent h
  have hbubbling : ∀ position {m}, E m → E (flattenBubbling position m) :=
    flattenBubbling_of hE.bind hrule hE.toEvaluating hR hE.inScope (hparent .topLevel)
  refine ⟨⟨hE, hR.get hE.toSteps, hE.pure [], hE.throw, fun _ _ _ => hE.pure _, hE.bind,
    fun h h' => ?_, hE.inScope, hparent .topLevel, fun hcall _ position _ _ h => ?_,
    fun position _ _ => hbubbling position,
    fun _ _ _ _ h => hE.bind h fun _ => hE.pure _, fun _ _ _ _ _ h => hE.bind h fun _ => hE.pure _,
    fun hcall _ position => ?_, hmixin, hfunction⟩, hR, hE.calling, hpassing, hcontent,
    himporting⟩
  · exact hE.bind h fun _ => hE.bind h' fun _ => hE.pure _
  · exact sourcedRule_of hE.bind hrule hE.toEvaluating hcall position _ h
  · refine hR.scopes fun c _ => ?_
    cases c.scopes.parent with
    | topLevel => exact hE.fail position _
    | rule selectors outer =>
        refine hE.bind (sourceSelectors_keeps hE.toEvaluating hcall position _) fun targets => ?_
        refine hE.forM fun t _ => ?_
        cases t.compound? with
        | none => exact hE.throw _
        | some compound => exact hE.forM fun s _ => hextension _

end

section
variable {S : Statement → Prop} {E : ∀ {α : Type}, Compile α → Prop}
  {N : Compile (List Node) → Prop} (hE : Expanding S E N)
include hE

theorem Expanding.next {α : Type} {m : Compile α} {f : α → Compile (List Node)} (hm : E m)
    (hf : ∀ a, N (f a)) : N (m >>= f) :=
  @Relating.after _ _ _ hE.toRelating α m f f hm hf

theorem Expanding.scoped {m : Compile (List Node)} (h : N m) : N (Compile.inScope m) :=
  @Relating.inScope _ _ _ hE.toRelating m m h

theorem Expanding.scopes {f : Scopes → Compile (List Node)}
    (h : ∀ c : Context, c.AllCode S → N (f c.scopes)) : N (Compile.scopes >>= f) := by
  simp only [Compile.scopes, bind_assoc, pure_bind]
  exact hE.reading h

variable {s : Site} (hs : s.Meets S N)
include hs

theorem expandImport_meets (position : Position) (target : String) :
    N (expandImport s position target) := by
  refine hE.reading fun c hc => ?_
  split
  · exact hE.raise _
  · exact hE.raise _
  next found hfound =>
    split
    · exact hE.raise _
    next stylesheet hread =>
      exact hE.importing _ _ (hs.importedBody _ (hc.stylesheets hfound hread))

/-- A mixin is looked up in the context and its body is of the kind that was stored. -/
theorem expandMixin_meets (position : Position) (name : String) (arguments : List (Argument Value))
    {content : Option (List Node)} (hcontent : ∀ body ∈ content, ∀ n ∈ body, n.All S) :
    N (expandMixin s position name arguments content) := by
  have hcall : CallerKeeps S E s.caller := invoke_keeps hE.executing s.calls
  refine hE.scopes fun c hc => ?_
  split
  · exact hE.raise _
  next mixin hmixin =>
    refine hE.next (runArguments_keeps hE.executing.toSteps
      (suspendArguments_holds fun a _ =>
        evaluate_keeps hE.executing.toEvaluating hcall position true a.value)) fun passed => ?_
    refine hE.next (hE.executing.ofFault position _) fun bound => ?_
    refine hE.scopes fun c' _ => ?_
    dsimp only
    split
    · exact hE.raise _
    next calls _ =>
      have hbinds := bindParameters_keeps hE.executing (invoke_keeps hE.executing calls) position bound
      have hbody := hE.next hbinds fun _ =>
        hs.mixinBody (s.blocks + 1) _ (hc.of_mixin? hmixin)
      refine hE.calling _ _ (hE.passing (fun block hblock => ?_) (hE.scoped hbody))
      obtain ⟨body, hbody, rfl⟩ := Option.map_eq_some_iff.mp hblock
      exact hcontent body hbody

/-- **All statements have the property**, if the bodies from elsewhere do. -/
theorem flattenNodes_meets (nodes : List Node) (hnodes : ∀ n ∈ nodes, n.All S) :
    N (flattenNodes s nodes) := by
  have hsites : SitesRelate S (fun m _ => N m) s s :=
    ⟨rfl, fun position name arguments content hcontent =>
      expandMixin_meets hE hs position name arguments hcontent,
      expandImport_meets hE hs, hE.content hs.contentBody⟩
  exact flattenNodes_relate hE.toRelating hsites nodes hnodes

end

/-! ## Bodies from elsewhere -/

variable {S : Statement → Prop} {E : ∀ {α : Type}, Compile α → Prop}
  {N : Compile (List Node) → Prop}

/-- Where statements are expanded, if so many calls, imports and content blocks may still nest. -/
def siteOf (calls imports blocks : Nat) : Site where
  calls := calls
  blocks := blocks
  mixinBody := match calls with
    | 0 => fun _ _ => return []
    | calls + 1 => expand calls imports
  importedBody := match imports with
    | 0 => fun _ => do throw (.limitExceeded .imports (← get).maxImportDepth)
    | imports + 1 => expand calls imports blocks
  contentBody := match blocks with
    | 0 => fun _ => return []
    | below + 1 => expand calls imports below

/-- Whatever may still nest, expanding is the recursion on statements, with fewer calls in the
bodies of mixins, fewer imports in imported stylesheets, and fewer blocks in content blocks. -/
theorem expand_eq_flattenNodes (calls imports blocks : Nat) (nodes : List Node) :
    expand calls imports blocks nodes = flattenNodes (siteOf calls imports blocks) nodes := by
  cases calls <;> cases imports <;> cases blocks <;> rfl

/-- A stylesheet is flattened by the recursion on statements, if no declaration is left at the top
level. -/
theorem exists_root_site (c : Context) : ∃ s : Site, s.calls = callsLeft c ∧
    ∀ {nodes flat c'}, (run nodes).outcome c = (.ok flat, c') ↔
      (flattenNodes s nodes).outcome c = (.ok flat, c') ∧
        ∀ n ∈ flat, n.statement.isDeclaration = false := by
  refine ⟨siteOf (callsLeft c) (c.maxImportDepth + 1) c.contents.length, rfl,
    fun {nodes flat c'} => ?_⟩
  rw [run, outcome_get_bind, expand_eq_flattenNodes]
  constructor
  · intro h
    obtain ⟨flat', d, hflat, h⟩ := bind_eq_ok h
    split at h
    · cases h
    next hnone =>
      obtain ⟨hresult, rfl⟩ := Prod.mk.inj h
      obtain rfl := Except.ok.inj hresult
      exact ⟨hflat, fun n hn => Bool.eq_false_iff.mpr (List.find?_eq_none.mp hnone n hn)⟩
  · rintro ⟨hflat, htop⟩
    rw [outcome_bind_ok hflat, List.find?_eq_none.mpr fun n hn => by simp [htop n hn]]
    rfl

/-- What holds of the recursion on statements at every site whose bodies have it holds of every
expansion. -/
theorem expand_of_nodes (hnodes : ∀ {s : Site}, s.Meets S N → ∀ nodes, (∀ n ∈ nodes, n.All S) →
      N (flattenNodes s nodes))
    (hnothing : N (pure []))
    (hlimit : N do throw (.limitExceeded .imports (← get).maxImportDepth))
    (calls imports blocks : Nat) (nodes : List Node) (hall : ∀ n ∈ nodes, n.All S) :
    N (expand calls imports blocks nodes) := by
  rw [expand_eq_flattenNodes]
  refine hnodes ⟨fun blocks nodes hall => ?_, fun nodes hall => ?_, fun nodes hall => ?_⟩ nodes hall
  · cases calls with
    | zero => exact hnothing
    | succ calls => exact expand_of_nodes hnodes hnothing hlimit calls imports blocks nodes hall
  · cases imports with
    | zero => exact hlimit
    | succ imports => exact expand_of_nodes hnodes hnothing hlimit calls imports blocks nodes hall
  · cases blocks with
    | zero => exact hnothing
    | succ below => exact expand_of_nodes hnodes hnothing hlimit calls imports below nodes hall
termination_by (calls, imports, blocks)

/-- **Every expansion has the property**, for all calls and imports that may still nest, all content
blocks, and all statements. -/
theorem expand_meets (hE : Expanding S E N) : ∀ calls imports blocks nodes,
    (∀ n ∈ nodes, n.All S) → N (expand calls imports blocks nodes) :=
  expand_of_nodes (flattenNodes_meets hE) hE.nothing
    (hE.next hE.context fun _ => hE.raise _)

/-- Wherever statements are expanded, the bodies from elsewhere have the property. -/
theorem siteOf_meets (hE : Expanding S E N) (calls imports blocks : Nat) :
    (siteOf calls imports blocks).Meets S N := by
  have hall := expand_meets hE
  refine ⟨fun blocks nodes h => ?_, fun nodes h => ?_, fun nodes h => ?_⟩
  · cases calls with
    | zero => exact hE.nothing
    | succ calls => exact hall calls imports blocks nodes h
  · cases imports with
    | zero => exact hE.next hE.context fun _ => hE.raise _
    | succ imports => exact hall calls imports blocks nodes h
  · cases blocks with
    | zero => exact hE.nothing
    | succ below => exact hall calls imports below nodes h

end Flatten

end Scss
