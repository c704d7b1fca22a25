import Mathlib
import Scss.Compiler
import Scss.Proofs.Closure
import Scss.Proofs.Following
import Scss.Proofs.Traversal

/-!
# Compilation always ends

A compile recurs in several ways that nothing in the stylesheet bounds. Functions call each other, mixins
and stylesheets include each other, a content block stands for statements of any size, a loop goes on
while its condition holds, and the selectors of a rule may beget more of them without end. Each of these
is stopped by a guard: the depth of calls and of imports is limited, running a content block takes it off
the stack, rounds are counted, and so are the selectors of a rule.

The definitions recur on numbers of their own, so that they are total by themselves. That is bookkeeping,
and what has to be shown is that it does not end anything that the guards would not end. For each
recursion there is one round of it here which leaves everything deeper to something given: `callThrough`,
`expandThrough`, `loopRound` and `closeRound`. In such a round there are only the guards. The round is
then put into itself, and if that is done often enough, it makes no difference what is given at the
bottom: it is never reached. So this is how deep the recursion goes, and the definitions compute what it
comes to.

How often is often enough depends on the `Level` of a context, the part of it that the guards look at. A
call makes it one call deeper and puts a block on the stack, a content block takes one off, and an import
makes it one import deeper: the number `Level.nesting` gets less each time. Between two such steps there
is only the recursion on statements and values, which get smaller.
-/

namespace Scss

/-! ## Levels -/

/-- What the guards look at. -/
structure Level where
  callDepth : Nat
  contents : List (Option ContentBlock)
  imports : List ImportFrame
  maxImportDepth : Nat

/-- How deep a context is nested. -/
def Context.level (c : Context) : Level := ⟨c.callDepth, c.contents, c.imports, c.maxImportDepth⟩

namespace Level

variable (l : Level)

/-- How many calls may still nest. -/
def callsLeft : Nat := maxCallDepth - l.callDepth

/-- How many imports may still nest. -/
def importsLeft : Nat := l.maxImportDepth + 1 - l.imports.length

/-- How often bodies from elsewhere may still nest. Every call brings a content block. -/
def nesting : Nat := 2 * l.callsLeft + l.importsLeft + l.contents.length

/-- One call deeper. -/
def called : Level := { l with callDepth := l.callDepth + 1 }

/-- With a content block on top of the stack. -/
def passed (block : Option ContentBlock) : Level := { l with contents := block :: l.contents }

/-- Inside an imported stylesheet. -/
def imported (frame : ImportFrame) : Level := { l with imports := frame :: l.imports }

variable {l}

/-! ### Bodies from elsewhere are nested less deep than the statements that they stand for -/

theorem callsLeft_called {calls : Nat} (h : l.callsLeft = calls + 1) :
    l.callDepth < maxCallDepth ∧ l.called.callsLeft = calls := by
  simp only [callsLeft, called] at h ⊢
  omega

theorem importsLeft_imported (h : l.imports.length ≤ l.maxImportDepth) (frame : ImportFrame) :
    l.importsLeft = (l.imported frame).importsLeft + 1 := by
  simp only [importsLeft, imported, List.length_cons]
  omega

theorem nesting_called (h : l.callDepth < maxCallDepth) (block : Option ContentBlock) :
    (l.called.passed block).nesting < l.nesting := by
  simp only [nesting, callsLeft, importsLeft, called, passed, List.length_cons]
  omega

theorem nesting_imported (h : l.imports.length ≤ l.maxImportDepth) (frame : ImportFrame) :
    (l.imported frame).nesting < l.nesting := by
  have himports := importsLeft_imported h frame
  simp only [nesting, callsLeft, importsLeft, imported, List.length_cons] at himports ⊢
  omega

theorem nesting_popped (block : Option ContentBlock) : l.nesting < (l.passed block).nesting := by
  simp only [nesting, callsLeft, importsLeft, passed, List.length_cons]
  omega

/-! ### The levels of contexts that are entered and left -/

theorem enterCall {c d : Context} {name : String} {position : Position} (hc : c.level = l)
    (h : c.enterCall name position = .ok d) : d.level = l.called ∧ l.callDepth < maxCallDepth := by
  subst hc
  obtain ⟨hdepth, rfl⟩ := Context.of_enterCall h
  exact ⟨rfl, hdepth⟩

theorem enterImport {c d : Context} {uri base : String} (hc : c.level = l)
    (h : c.enterImport uri base = .ok d) :
    d.level = l.imported ⟨uri, base⟩ ∧ l.imports.length ≤ l.maxImportDepth := by
  subst hc
  obtain ⟨hdepth, rfl⟩ := Context.of_enterImport h
  exact ⟨rfl, hdepth⟩

theorem exitCall {c : Context} (hc : c.level = l.called) : c.exitCall.level = l := by
  obtain ⟨hdepth, hrest⟩ := Level.mk.inj hc
  show Level.mk (c.callDepth - 1) c.contents c.imports c.maxImportDepth = l
  rw [hdepth, hrest.1, hrest.2.1, hrest.2.2]
  rfl

theorem exitImport {c : Context} {frame : ImportFrame} (hl : l.imports ≠ [])
    (hc : c.level = l.imported frame) : c.exitImport.level = l := by
  obtain ⟨top, below, himports⟩ := List.exists_cons_of_ne_nil hl
  obtain ⟨hdepth, hcontents, hstack, hmax⟩ := Level.mk.inj hc
  rw [himports] at hstack
  rw [Context.exitImport, hstack]
  show Level.mk c.callDepth c.contents (top :: below) c.maxImportDepth = l
  rw [hdepth, hcontents, hmax, ← himports]

theorem pushContent {c : Context} (block : Option ContentBlock) (hc : c.level = l) :
    (c.pushContent block).level = l.passed block :=
  congrArg (passed · block) hc

theorem popContent {c : Context} {block : Option ContentBlock} (hc : c.level = l.passed block) :
    c.popContent.level = l := by
  obtain ⟨hdepth, hcontents, hrest⟩ := Level.mk.inj hc
  show Level.mk c.callDepth c.contents.tail c.imports c.maxImportDepth = l
  rw [hdepth, hcontents, hrest.1, hrest.2]
  rfl

end Level

open Compile Evaluation Flatten

/-- **Steps stay at their level**, whatever the values are. -/
theorem keeping_level (l : Level) : Flatten.Keeping (fun _ => True) fun c => c.level = l where
  kind := .all
  value _ _ := trivial
  define _ _ hc _ := hc
  assign _ _ hc _ := hc
  setGlobal _ _ hc _ := hc
  warn _ _ hc := hc
  entered hc := hc
  left hc := hc
  setParent _ hc := hc
  defineMixin _ hc := hc
  defineFunction _ hc := hc
  addExtension _ hc := hc

/-! ## Functions -/

/-- Two callers do the same at a level. -/
abbrev SameCalls (l : Level) : Caller → Caller → Prop := CallersAgree (fun _ => True) (·.level = l)

/-- A call leaves the level as it was. -/
theorem invoke_sameCalls (calls : Nat) (l : Level) : SameCalls l (invoke calls) (invoke calls) := by
  induction calls generalizing l with
  | zero => exact invoke_zero_agrees
  | succ calls ih =>
      rw [invoke_succ]
      exact callThrough_agrees (keeping_level l.called).toKeeping (ih l.called)
        (fun hc h => (Level.enterCall hc h).1) Level.exitCall

/-- Where the guard lets no call pass, it does not matter what the calls in it do. -/
theorem callThrough_sameCalls_invoke_zero (call : Caller) {l : Level}
    (hl : maxCallDepth ≤ l.callDepth) : SameCalls l (callThrough call) (invoke 0) := by
  intro definition arguments position _ c hc
  subst hc
  have henter : c.enterCall definition.name position =
      .error (.compile position (.callDepth maxCallDepth definition.name)) := if_pos hl
  have hfails : ∃ failure, (callThrough call definition arguments position).outcome c =
      (.error failure, c) ∧ (invoke 0 definition arguments position).outcome c = (.error failure, c) := by
    unfold callThrough invoke
    cases definition.signature.bind definition.name arguments with
    | error fault => exact ⟨_, rfl, rfl⟩
    | ok bound =>
        refine ⟨.compile position (.callDepth maxCallDepth definition.name), ?_, rfl⟩
        have hbound : (ofFault position (.ok bound)).outcome c = (.ok bound, c) := rfl
        rw [outcome_bind_ok hbound]
        refine outcome_bind_error ?_
        rw [outcome_calling, henter]
  obtain ⟨failure, hthrough, hinvoke⟩ := hfails
  rw [hthrough, hinvoke]
  exact ⟨rfl, rfl, fun _ _ => trivial⟩

/-- **Calls of functions nest no deeper than their guard allows.** -/
theorem callThrough_sameCalls (call : Caller) {n : Nat} {l : Level} (hn : l.callsLeft < n) :
    SameCalls l (callThrough^[n] call) (invoke l.callsLeft) := by
  induction n generalizing l with
  | zero => exact absurd hn (Nat.not_lt_zero _)
  | succ n ih =>
      rw [Function.iterate_succ_apply']
      cases hcalls : l.callsLeft with
      | zero => exact callThrough_sameCalls_invoke_zero _ (Nat.le_of_sub_eq_zero hcalls)
      | succ calls =>
          obtain ⟨-, hnext⟩ := Level.callsLeft_called hcalls
          rw [invoke_succ]
          refine callThrough_agrees (keeping_level l.called).toKeeping ?_
            (fun hc h => (Level.enterCall hc h).1) Level.exitCall
          rw [← hnext]
          exact ih (by omega)

/-! ## Bodies from elsewhere -/

namespace Flatten

/-- Expands statements, and leaves the bodies of mixins, imported stylesheets and content blocks to
something given. -/
def expandThrough (body : List Node → Compile (List Node)) (nodes : List Node) :
    Compile (List Node) := do
  let c ← get
  flattenNodes ⟨callsLeft c, c.contents.length, fun _ => body, body, body⟩ nodes

/-- Two expansions do the same at a level. -/
abbrev SameExpansion (l : Level) : Compile (List Node) → Compile (List Node) → Prop :=
  Agree (·.level = l) (AllCarry fun _ => True)

theorem siteOf_mixinBody {calls imports blocks fewer : Nat} (h : calls = fewer + 1) :
    (siteOf calls imports blocks).mixinBody = expand fewer imports := by
  subst h
  rfl

/-- Content blocks come to the same if the topmost one does, with the stack below it. -/
theorem expandContent_sameExpansion {s s' : Site} {l : Level}
    (h : ∀ {block below}, l = below.passed (some block) → ∀ nodes,
      SameExpansion below (s.contentBody nodes) (s'.contentBody nodes)) :
    SameExpansion l (expandContent s) (expandContent s') := by
  refine expandContent_agrees (keeping_level l) fun {c block below} parent hc hcontents => ?_
  have hlevel : l = c.popContent.level.passed (some block) := by
    rw [← hc]
    show Level.mk c.callDepth c.contents c.imports c.maxImportDepth =
      Level.mk c.callDepth (some block :: c.contents.tail) c.imports c.maxImportDepth
    rw [hcontents]
    rfl
  subst hlevel
  have hI := keeping_level c.popContent.level
  refine Agree.settingAside (some block) (Agree.seeing block.depth
    (inRule_agrees hI parent (h rfl block.body)) (fun hc => hc) fun _ hd => hd) ?_ ?_
  · exact Level.popContent
  · exact Level.pushContent (some block)

/-- At levels that are nested less deep than a number, statements are expanded as by the definitions. -/
def ExpandsWithin (n : Nat) (body : List Node → Compile (List Node)) : Prop :=
  ∀ {l : Level} {imports : Nat}, l.imports ≠ [] → l.nesting < n → l.importsLeft ≤ imports →
    ∀ nodes, SameExpansion l (body nodes) (expand l.callsLeft imports l.contents.length nodes)

section
variable {n : Nat} {body : List Node → Compile (List Node)} (hbody : ExpandsWithin n body)
  {l : Level} {imports : Nat} (hl : l.imports ≠ []) (hn : l.nesting < n + 1)
  (himports : l.importsLeft ≤ imports)
include hbody hl hn himports

/-- The body of a mixin is one call deeper, with one block more on the stack. -/
theorem mixinBody_sameExpansion {calls : Nat} (hcalls : l.callsLeft = calls + 1) (name : String)
    (position : Position) (block : Option ContentBlock) {bound : BoundArguments Value}
    (hgiven : ∀ e ∈ bound.bindings, e.2.Holds fun _ => True) (nodes : List Node) :
    SameExpansion l
      (calling name position (passing block (inScope do
        bindParameters (invoke calls) position bound
        body nodes)))
      (calling name position (passing block (inScope do
        bindParameters (invoke calls) position bound
        expand calls imports (l.contents.length + 1) nodes))) := by
  obtain ⟨hdepth, hleft⟩ := Level.callsLeft_called hcalls
  have hleft : (l.called.passed block).callsLeft = calls := hleft
  have hless := Level.nesting_called hdepth block
  have hnodes := hbody (l := l.called.passed block) hl (by omega) himports nodes
  rw [hleft] at hnodes
  have hI := (keeping_level (l.called.passed block)).toKeeping
  refine Agree.calling name position (Agree.passing block (hI.inScope ?_) (Level.pushContent block)
    Level.popContent) (fun hc h => (Level.enterCall hc h).1) Level.exitCall
  exact Agree.bind (bindParameters_agrees hI (invoke_sameCalls calls _) position hgiven
    fun _ _ => trivial) fun _ _ => hnodes

/-- An imported stylesheet is one import deeper, if the guard lets it in. -/
theorem importedBody_sameExpansion (uri base : String) (nodes : List Node) :
    SameExpansion l (importing uri base (body nodes)) (importing uri base
      ((siteOf l.callsLeft imports l.contents.length).importedBody nodes)) := by
  by_cases hdepth : l.imports.length ≤ l.maxImportDepth
  · have hleft := Level.importsLeft_imported hdepth ⟨uri, base⟩
    have hless := Level.nesting_imported hdepth ⟨uri, base⟩
    obtain ⟨fewer, rfl⟩ : ∃ fewer, imports = fewer + 1 := Nat.exists_eq_add_one.mpr (by omega)
    have hnodes := hbody (l := l.imported ⟨uri, base⟩) (List.cons_ne_nil _ _) (by omega)
      (by omega : _ ≤ fewer) nodes
    exact Agree.importing uri base hnodes (fun hc h => (Level.enterImport hc h).1)
      (Level.exitImport hl)
  -- the body is not run at all, so anything may be said of it
  · refine Agree.importing (J := fun _ => False) uri base (fun _ h => h.elim) ?_ fun h => h.elim
    exact fun hc h => hdepth (Level.enterImport hc h).2

/-- **What is given is only met at levels that are nested less deep.** -/
theorem sitesAgree_siteOf : SitesAgree (fun _ => True) (·.level = l)
    ⟨l.callsLeft, l.contents.length, fun _ => body, body, body⟩
    (siteOf l.callsLeft imports l.contents.length) where
  calls := rfl
  caller := invoke_sameCalls _ l
  mixin name position block _ nodes hcalls hgiven _ := by
    rw [siteOf_mixinBody hcalls]
    exact mixinBody_sameExpansion hbody hl hn himports hcalls name position block hgiven nodes
  imported _ _ := importedBody_sameExpansion hbody hl hn himports _ _
  content := by
    refine expandContent_sameExpansion fun {block below} hbelow nodes => ?_
    subst hbelow
    have hless := Level.nesting_popped (l := below) (some block)
    exact hbody (l := below) hl (by omega) himports nodes

end

/-- One round more goes one level further. -/
theorem ExpandsWithin.succ {n : Nat} {body : List Node → Compile (List Node)}
    (hbody : ExpandsWithin n body) : ExpandsWithin (n + 1) (expandThrough body) := by
  intro l imports hl hn himports nodes c hc
  -- the site of the round is the one that belongs to the level
  have houtcome : (expandThrough body nodes).outcome c = (flattenNodes
      ⟨l.callsLeft, l.contents.length, fun _ => body, body, body⟩ nodes).outcome c := by
    subst hc
    rw [expandThrough, outcome_get_bind]
    rfl
  rw [houtcome, expand_eq_flattenNodes]
  exact flattenNodes_agrees (keeping_level l) (sitesAgree_siteOf hbody hl hn himports) nodes c hc

/-- **Bodies from elsewhere nest no deeper than their guards allow.** -/
theorem expandsWithin_iterate (body : List Node → Compile (List Node)) (n : Nat) :
    ExpandsWithin n (expandThrough^[n] body) := by
  induction n with
  | zero => exact fun _ h => absurd h (Nat.not_lt_zero _)
  | succ n ih =>
      rw [Function.iterate_succ_apply']
      exact ih.succ

end Flatten

/-- A compile that expands the statements of the stylesheet in some way. -/
def Stylesheet.compileBy (expansion : List Node → Compile (List Node)) (s : Stylesheet) :
    Compile Stylesheet := do
  modify fun c => c.enterRoot s.uri
  let flat ← expansion s.body
  match flat.find? fun n => n.statement.isDeclaration with
  | some n => fail n.position .declarationOutsideRule
  | none => return { s with body := ← Extending.run flat }

/-- All that matters of an expansion is what it does with the stylesheet in the context entered. -/
theorem Stylesheet.outcome_compileBy {s : Stylesheet} {c entered : Context}
    {expansion : List Node → Compile (List Node)} (hentered : c.enterRoot s.uri = entered)
    (h : (expansion s.body).outcome entered =
      (expand (callsLeft entered) (entered.maxImportDepth + 1) entered.contents.length s.body).outcome
        entered) :
    (s.compileBy expansion).outcome c = s.compile.outcome c := by
  rw [s.outcome_compile, Flatten.run, bind_assoc, hentered, outcome_get_bind, bind_assoc, outcome_bind,
    ← h]
  show outcome (expansion s.body >>= _) (c.enterRoot s.uri) = _
  rw [hentered, outcome_bind]
  obtain ⟨failure | flat, c'⟩ := (expansion s.body).outcome entered
  · rfl
  · dsimp only
    cases flat.find? fun n => n.statement.isDeclaration <;> rfl

/-! ## Loops -/

section
variable {β : Type} (condition : Compile Bool) (round : Compile β → Compile β) (done : β)

/-- A loop that has had so many rounds: if its condition holds and the guard allows it, there is another
round, with `rest` for those after it. -/
def loopRound (rest : Nat → Compile β) (rounds : Nat) : Compile β := do
  if ← condition then
    if maxRounds ≤ rounds then throw (.limitExceeded .whileRounds maxRounds)
    else round (rest (rounds + 1))
  else return done

variable {condition round done}

/-- **A loop ends when its guard says so**, if it did not before. -/
theorem loopRound_eq {loop : Nat → Compile β}
    (hzero : loop 0 = do
      if ← condition then throw (.limitExceeded .whileRounds maxRounds) else return done)
    (hsucc : ∀ left, loop (left + 1) = do
      if ← condition then round (loop left) else return done)
    (rest : Nat → Compile β) {n rounds left : Nat} (hleft : rounds + left = maxRounds)
    (hn : left < n) : (loopRound condition round done)^[n] rest rounds = loop left := by
  induction n generalizing rounds left with
  | zero => exact absurd hn (Nat.not_lt_zero _)
  | succ n ih =>
      rw [Function.iterate_succ_apply', loopRound]
      cases left with
      | zero =>
          have hguard : maxRounds ≤ rounds := Nat.le_of_eq hleft.symm
          rw [if_pos hguard, hzero]
      | succ left =>
          have hguard : ¬ maxRounds ≤ rounds := by omega
          have hnext : rounds + 1 + left = maxRounds := by omega
          rw [if_neg hguard, hsucc, ih hnext (Nat.lt_of_succ_lt_succ hn)]

end

theorem whileHolds_ends (condition : Compile Bool) (run : Compile (List Node))
    (rest : Nat → Compile (List Node)) {n : Nat} (hn : maxRounds < n) :
    (loopRound condition (fun further => do let front ← run; return front ++ (← further)) [])^[n]
      rest 0 = whileHolds condition run maxRounds :=
  loopRound_eq rfl (fun _ => rfl) rest (Nat.zero_add maxRounds) hn

theorem whileNotReturned_ends (condition : Compile Bool) (run : Compile (Option Value))
    (rest : Nat → Compile (Option Value)) {n : Nat} (hn : maxRounds < n) :
    (loopRound condition (fun further => do
      match ← run with
      | some value => return some value
      | none => further) none)^[n] rest 0 = whileNotReturned condition run maxRounds := by
  refine loopRound_eq rfl (fun left => ?_) rest (Nat.zero_add maxRounds) hn
  rw [whileNotReturned]
  refine congrArg _ (funext fun again => ?_)
  congr
  funext returned
  cases returned <;> rfl

/-- A `@for` has so many rounds at most. -/
theorem loopValues_length {call : Caller} {position : Position} {start stop : Value}
    {isInclusive : Bool} {values : List Value} {c c' : Context}
    (h : (loopValues call position start stop isInclusive).outcome c = (.ok values, c')) :
    values.length ≤ maxRounds := by
  obtain ⟨first, c₁, -, h⟩ := bind_eq_ok h
  obtain ⟨last, c₂, -, h⟩ := bind_eq_ok h
  obtain ⟨i, c₃, -, h⟩ := bind_eq_ok h
  obtain ⟨j, c₄, -, h⟩ := bind_eq_ok h
  dsimp only at h
  generalize (if isInclusive = true then (j - i).natAbs + 1 else (j - i).natAbs) = count at h
  split at h
  · cases h
  next hcount =>
    obtain ⟨hvalues, -⟩ := Prod.mk.inj h
    obtain rfl := Except.ok.inj hvalues
    rw [List.length_map, List.length_range]
    exact Nat.le_of_not_lt hcount

/-! ## The selectors of a rule -/

namespace Extending

/-- One selector is taken from the queue, with `rest` for those after it. -/
def closeRound (limit : Nat) (extensions : List Extension)
    (rest : Progress → Except Failure Progress) (p : Progress) : Except Failure Progress :=
  match p.queue with
  | [] => .ok p
  | s :: queue => do
    let next ← extendBy limit s { p with queue, matched := [] } (extensions.zip p.matched)
    rest next

/-- **The queue is empty after so many selectors**, unless the guard says that there are too many. -/
theorem closeRound_eq {limit bound fuel n : Nat} (hlimit : limit ≤ bound)
    (extensions : List Extension) (rest : Progress → Except Failure Progress) {p : Progress}
    (hsize : p.set.size ≤ bound) (hfuel : p.left bound ≤ fuel) (hn : p.left bound < n) :
    (closeRound limit extensions)^[n] rest p = close limit extensions fuel p := by
  induction n generalizing p fuel with
  | zero => exact absurd hn (Nat.not_lt_zero _)
  | succ n ih =>
      rw [Function.iterate_succ_apply', closeRound]
      cases hqueue : p.queue with
      | nil => cases fuel <;> simp only [close, hqueue]
      | cons s queue =>
          have hwaits : 0 < p.left bound := by
            rw [Progress.left, hqueue, List.length_cons]
            omega
          obtain ⟨fewer, rfl⟩ := Nat.exists_eq_add_one.mpr (Nat.lt_of_lt_of_le hwaits hfuel)
          simp only [close, hqueue]
          cases hstep : extendBy limit s { p with queue, matched := [] }
              (extensions.zip p.matched) with
          | error failure => rfl
          | ok next =>
              obtain ⟨hbound, hless⟩ := extendBy_left hlimit hqueue hsize hstep
              exact ih hbound (by omega) (by omega)

/-- The search begins with all written selectors in the queue. -/
theorem close_ends (extensions : List Extension) (matched : List Bool) (written : List Selector)
    (rest : Progress → Except Failure Progress) {n : Nat}
    (hn : max (SelectorSet.ofList written).size maxSelectors < n) :
    let start : Progress := ⟨.ofList written, (SelectorSet.ofList written).toList, matched⟩
    (closeRound maxSelectors extensions)^[n] rest start =
      close maxSelectors extensions (start.set.size + maxSelectors) start := by
  intro start
  have hleft : start.left (max start.set.size maxSelectors) = max start.set.size maxSelectors :=
    Nat.add_sub_cancel' (Nat.le_max_left _ _)
  have hfuel : max start.set.size maxSelectors ≤ start.set.size + maxSelectors :=
    Nat.max_le.mpr ⟨Nat.le_add_right _ _, Nat.le_add_left _ _⟩
  exact closeRound_eq (Nat.le_max_right start.set.size maxSelectors) extensions rest
    (Nat.le_max_left _ _) (hleft.symm ▸ hfuel) (hleft.symm ▸ hn)

end Extending

/-! ## The whole compile -/

open Extending in
/--
**Compilation always ends.**

Take any stylesheet and any context, and so any resolver. Bodies of mixins, imported stylesheets and
content blocks nest less often than `Level.nesting` says, which is twice the calls that may still nest, and
the imports, and the content blocks on the stack: the outcome of the compile, a result or a failure, is the
same for everything that might be done (`body`) with bodies nested deeper. Calls of functions nest no
deeper than calls may, whatever deeper calls would do.

In between, loops end after `maxRounds` rounds, whatever further rounds would do; and the queue of the
selectors of a rule is empty after `maxSelectors` selectors, or as many as were written if these are more,
whatever would be done with further ones.
-/
theorem Stylesheet.compile_ends (s : Stylesheet) (c : Context) :
    (∀ body n, (c.enterRoot s.uri).level.nesting < n →
      (s.compileBy (expandThrough^[n] body)).outcome c = s.compile.outcome c) ∧
    (∀ call n definition arguments position, callsLeft c < n →
      (callThrough^[n] call definition arguments position).outcome c =
        (invoke (callsLeft c) definition arguments position).outcome c) ∧
    (∀ condition run rest n, maxRounds < n →
      (loopRound condition (fun further => do let front ← run; return front ++ (← further)) [])^[n]
        rest 0 = whileHolds condition run maxRounds) ∧
    (∀ (condition : Compile Bool) (run : Compile (Option Value)) rest n, maxRounds < n →
      (loopRound condition (fun further => do
        match ← run with
        | some value => return some value
        | none => further) none)^[n] rest 0 = whileNotReturned condition run maxRounds) ∧
    (∀ call position start stop isInclusive values c',
      (loopValues call position start stop isInclusive).outcome c = (.ok values, c') →
        values.length ≤ maxRounds) ∧
    (∀ extensions matched written rest n, max (SelectorSet.ofList written).size maxSelectors < n →
      let start : Progress := ⟨.ofList written, (SelectorSet.ofList written).toList, matched⟩
      (closeRound maxSelectors extensions)^[n] rest start =
        close maxSelectors extensions (start.set.size + maxSelectors) start) := by
  refine ⟨fun body n hn => ?_, fun call n definition arguments position hn => ?_,
    fun condition run rest n hn => ?_, fun condition run rest n hn => ?_,
    fun _ _ _ _ _ _ _ h => loopValues_length h, fun extensions matched written rest n hn => ?_⟩
  · refine Stylesheet.outcome_compileBy rfl ?_
    exact (expandsWithin_iterate body n (List.cons_ne_nil _ _) hn (Nat.sub_le _ _) s.body _ rfl).1.symm
  · exact (callThrough_sameCalls call hn definition position (fun _ _ => trivial) c rfl).1.symm
  · exact whileHolds_ends condition run rest hn
  · exact whileNotReturned_ends condition run rest hn
  · exact close_ends extensions matched written rest hn

/-- `@mixin m { @include m; } @include m;`. -/
def selfIncluding : Stylesheet := ⟨"", none, [
  .mk default (.mixin "m" ⟨[], none⟩ [.mk default (.includeMixin "m" [] none)]),
  .mk default (.includeMixin "m" [] none)]⟩

/-- A context in which two calls may still nest. -/
def deepContext : Context := { Context.isolated with callDepth := 62 }

/-- A mixin that includes itself is stopped by the guard, whatever would be done with deeper bodies. -/
theorem selfIncluding_ends : (deepContext.enterRoot "").level.nesting < 21 ∧
    ∀ body, ((selfIncluding.compileBy (expandThrough^[21] body)).outcome deepContext).1 =
      .error (.compile default (.callDepth maxCallDepth "m")) := by
  have hnesting : (deepContext.enterRoot selfIncluding.uri).level.nesting < 21 := by decide
  refine ⟨hnesting, fun body => ?_⟩
  rw [(Stylesheet.compile_ends selfIncluding deepContext).1 body 21 hnesting]
  cbv

end Scss
