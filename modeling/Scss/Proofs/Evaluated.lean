import Mathlib
import Scss.Compiler
import Scss.Proofs.Following
import Scss.Proofs.Parts
import Scss.Proofs.Traversal

/-!
# No unevaluated form escapes

Variables, parentheses and interpolations are read from a stylesheet and gone once it is evaluated.
Values pass through many hands on the way: arguments are bound to parameters, one by one or as the list
of those left over, items of lists are bound in rounds of loops, built-in functions put values into
lists and take them out again, and what CSS is to compute is kept as it is written, operand by operand.
All of these make values from values that are evaluated already.

So evaluated values are a kind (`Value.Kind`), and that all variables are bound to values of a kind is a
property that flattening keeps (`Flatten.Keeping`). What is left then is the passage into calls, content
blocks and imported stylesheets. There the scopes are those outside, perhaps without some frames, and
the induction over everything that is expanded applies.
-/

namespace Scss

/-! ## Evaluated values -/

/-- A value without variables, parentheses and interpolations at any depth. -/
inductive Value.IsEvaluated : Value → Prop where
  | null : IsEvaluated .null
  | number (n : Number) : IsEvaluated (.number n)
  | color (c : Color) : IsEvaluated (.color c)
  | quoted (text : String) (quote : Char) : IsEvaluated (.quoted text quote)
  | word (text : String) : IsEvaluated (.word text)
  | list {items : List Value} {separator : ListSeparator} (h : ∀ v ∈ items, IsEvaluated v) :
      IsEvaluated (.list items separator)
  | call {name : String} {arguments : List (Argument Value)}
      (h : ∀ a ∈ arguments, IsEvaluated a.value) : IsEvaluated (.call name arguments)
  | expression {tokens : List (ExprToken Value)} (h : ∀ v, .operand v ∈ tokens → IsEvaluated v) :
      IsEvaluated (.expression tokens)

/-- **Evaluated values are a kind.** -/
theorem Value.Kind.isEvaluated : Value.Kind Value.IsEvaluated where
  null := .null
  number := .number
  color := .color
  quoted := .quoted
  word := .word
  list := .list
  call := .call
  expression := .expression
  ofList h := by cases h; assumption
  ofCall h := by cases h; assumption
  ofExpression h := by cases h; assumption
  interpolated h := nomatch h

/-! ## Scopes that bind values of a kind -/

variable {V : Value → Prop}

/-- In every frame, all variables are bound to values of a kind. -/
def Scopes.Binds (V : Value → Prop) (s : Scopes) : Prop := ∀ f ∈ s.frames, ∀ e ∈ f.values, V e.2

/-- All variables of a context are bound to values of a kind. -/
def Context.Binds (V : Value → Prop) (c : Context) : Prop := c.scopes.Binds V

namespace Scopes.Binds

variable {s : Scopes} (hs : s.Binds V)
include hs

theorem value {name : String} {v : Value} (h : s.valueOf? name = some v) : V v := by
  obtain ⟨f, hf, hv⟩ := List.exists_of_findSome?_eq_some h
  exact hs f hf _ (Entries.mem_of_get? hv)

/-- A change of the innermost frame after which that frame still binds such values. -/
theorem modifyCurrent {change : Frame → Frame}
    (hchange : ∀ f : Frame, (∀ e ∈ f.values, V e.2) → ∀ e ∈ (change f).values, V e.2) :
    (s.modifyCurrent change).Binds V := every_modifyCurrent hs hchange

theorem define (name : String) {v : Value} (hv : V v) : (s.define name v).Binds V :=
  every_define hs (fun _ _ hf => Entries.forall_put hf _ hv) name

theorem setGlobal (name : String) {v : Value} (hv : V v) : (s.setGlobal name v).Binds V :=
  every_setGlobal hs (fun _ _ hf => Entries.forall_put hf _ hv) name

theorem assign (name : String) {v : Value} (hv : V v) : (s.assign name v).Binds V :=
  every_assign hs (fun _ _ hf => Entries.forall_put hf _ hv) name

/-- A new frame binds nothing. -/
theorem enter : s.enter.Binds V := every_enter hs fun _ he => absurd he List.not_mem_nil

/-- Taking inner frames away. -/
theorem drop (count : Nat) : Scopes.Binds V { s with inner := s.inner.drop count } :=
  fun f hf => hs f (mem_frames_of_drop hf)

/-- Frames that were hidden come back as they were. -/
theorem restore (depth : Nat) {t : Scopes} (ht : t.Binds V) :
    (t.restore (s.hideAbove depth).1).Binds V :=
  fun f hf => (mem_frames_of_restore hf).elim (hs f) (ht f)

end Scopes.Binds

theorem Context.binds_new (urlMode : UrlMode) (resolver : Resolver) (maxImportDepth : Nat) :
    (Context.new urlMode resolver maxImportDepth).Binds V := by
  intro f hf
  obtain rfl := List.mem_singleton.mp hf
  exact fun _ he => absurd he List.not_mem_nil

/-! ## Contexts that bind values of a kind -/

open Compile Context Evaluation

/-- A context that is entered or left with the same scopes. -/
theorem Context.binds_enterCall {c d : Context} {name : String} {position : Position}
    (hc : c.Binds V) (h : c.enterCall name position = .ok d) : d.Binds V := by
  obtain ⟨-, rfl⟩ := of_enterCall h
  exact hc

theorem Context.binds_enterImport {c d : Context} {uri base : String} (hc : c.Binds V)
    (h : c.enterImport uri base = .ok d) : d.Binds V := by
  obtain ⟨-, rfl⟩ := of_enterImport h
  exact hc

theorem Context.binds_exitImport {c : Context} (hc : c.Binds V) : c.exitImport.Binds V := by
  unfold exitImport
  split <;> exact hc

namespace Flatten

variable (hV : Value.Kind V)
include hV

/-- **Flattening keeps that all variables are bound to values of a kind.** -/
theorem keeping_binds : Keeping V (Binds V) where
  kind := hV
  value hc h := hc.value h
  define name _ hc hv := hc.define name hv
  assign name _ hc hv := hc.assign name hv
  setGlobal name _ hc hv := hc.setGlobal name hv
  warn _ _ hc := hc
  entered hc := hc.enter
  left hc := hc.drop 1
  setParent _ hc := hc.modifyCurrent fun _ hf => hf
  defineMixin _ hc := hc.modifyCurrent fun _ hf => hf
  defineFunction _ hc := hc.modifyCurrent fun _ hf => hf
  addExtension _ hc := hc

theorem nesting_binds : Nesting V (Binds V) where
  keeping := keeping_binds hV
  enterCall := binds_enterCall
  exitCall hc := hc
  pushContent _ hc := hc
  popContent hc := hc
  hide _ hc := hc.drop _
  restore depth hc hd := hc.restore depth hd

omit hV in
/-- Two sites at which the same calls may still nest, and whose bodies from elsewhere do the same
wherever all variables are bound to values of a kind. -/
structure BodiesAgree (V : Value → Prop) (s s' : Site) : Prop where
  calls : s'.calls = s.calls
  blocks : s'.blocks = s.blocks
  mixinBody : ∀ blocks nodes,
    Agree (Binds V) (AllCarry V) (s.mixinBody blocks nodes) (s'.mixinBody blocks nodes)
  importedBody : ∀ nodes, Agree (Binds V) (AllCarry V) (s.importedBody nodes) (s'.importedBody nodes)
  contentBody : ∀ nodes, Agree (Binds V) (AllCarry V) (s.contentBody nodes) (s'.contentBody nodes)

variable {s s' : Site} (hs : BodiesAgree V s s')
include hs

/-- Such sites do the same with bodies from elsewhere. -/
theorem BodiesAgree.sites : SitesAgree V (Binds V) s s' :=
  (nesting_binds hV).sites hs.calls hs.blocks hs.mixinBody hs.contentBody fun _ _ nodes =>
    Agree.importing (J := Binds V) _ _ (hs.importedBody nodes) binds_enterImport binds_exitImport

omit hs in
/-- **Every expansion** leaves statements with values of a kind, and all variables bound to such. -/
theorem expand_agrees (calls imports blocks : Nat) (nodes : List Node) :
    Agree (Binds V) (AllCarry V) (expand calls imports blocks nodes)
      (expand calls imports blocks nodes) := by
  have hlimit : Agree (Binds V) (AllCarry V) (do throw (.limitExceeded .imports (← get).maxImportDepth))
      (do throw (.limitExceeded .imports (← get).maxImportDepth)) :=
    Agree.bind Agree.get fun c _ => Agree.throw _
  refine expand_of_nodes (S := fun _ => True) (N := fun m => Agree (Binds V) (AllCarry V) m m) ?_
    (Agree.pure allCarry_nil) hlimit calls imports blocks nodes (Node.all_trivial nodes)
  intro s hs nodes _
  have hbodies : BodiesAgree V s s :=
    ⟨rfl, rfl, fun blocks body => hs.mixinBody blocks body (Node.all_trivial body),
      fun body => hs.importedBody body (Node.all_trivial body),
      fun body => hs.contentBody body (Node.all_trivial body)⟩
  exact flattenNodes_agrees (keeping_binds hV) (hbodies.sites hV) nodes

omit hs in
theorem run_agrees (nodes : List Node) :
    Agree (Binds V) (AllCarry V) (Flatten.run nodes) (Flatten.run nodes) := by
  refine Agree.bind Agree.get fun c _ => ?_
  refine Agree.bind (expand_agrees hV _ _ _ nodes) fun flat hflat => ?_
  split
  · exact Agree.fail _ _
  · exact Agree.pure hflat

end Flatten

/-! ## The second pass -/

namespace Extending

open Flatten

variable {extensions : List Extension}

/-- What rewriting selectors makes of each statement of a list. -/
theorem extendNodes_carry {nodes : List Node}
    (hnodes : ∀ n ∈ nodes, ∀ matched, Answers (fun r => AllCarry V r.1)
      (extendNode extensions matched n)) (matched : List Bool) :
    Answers (fun r => AllCarry V r.1) (extendNodes extensions matched nodes) := by
  induction nodes generalizing matched with
  | nil => exact Answers.ok allCarry_nil
  | cons n rest ih =>
      rw [extendNodes]
      refine Answers.bind (hnodes n List.mem_cons_self matched) fun front hfront => ?_
      refine Answers.bind (ih (fun m hm => hnodes m (List.mem_cons_of_mem n hm)) front.2)
        fun others hothers => ?_
      exact Answers.ok fun m hm => (List.mem_append.mp hm).elim (hfront m) (hothers m)

/-- Rewriting selectors changes no values. -/
theorem extendNode_carries {node : Node} (h : node.Carries V) (matched : List Bool) :
    Answers (fun r => AllCarry V r.1) (extendNode extensions matched node) := by
  have hkept : ∀ (empty : Bool) {position : Position} {statement : Statement},
      Node.Carries V (.mk position statement) →
      AllCarry V ((if empty then [] else [statement]).map (Node.mk position)) := by
    intro empty position statement h
    cases empty with
    | true => exact allCarry_nil
    | false => exact allCarry_singleton h
  have hmade : ∀ {position : Position} {made : Except Failure (List Statement × List Bool)},
      Answers (fun r => AllCarry V (r.1.map (Node.mk position))) made →
      Answers (fun r => AllCarry V r.1)
        (made >>= fun r => .ok (r.1.map (Node.mk position), r.2)) :=
    fun h => Answers.bind h fun _ hr => Answers.ok hr
  -- a statement stays as it is, goes, or stays with a body that carries such values
  induction h generalizing matched with
  | declaration h => exact Answers.ok (allCarry_singleton (.declaration h))
  | importFile h => exact Answers.ok (allCarry_singleton (.importFile h))
  | comment => exact Answers.ok (allCarry_singleton .comment)
  | bareAtRule => exact Answers.ok (allCarry_singleton .bareAtRule)
  | @rule position source body h =>
      cases source with
      | parsed | interpolated =>
          rw [extendNode, extendStatement]
          exact hmade (Answers.after fun r => Answers.ok (hkept _ (.rule h)))
  | media _ ih =>
      rw [extendNode, extendStatement]
      exact hmade (Answers.bind (extendNodes_carry ih matched) fun r hr =>
        Answers.ok (hkept _ (.media hr)))
  | atRule _ ih =>
      rw [extendNode, extendStatement]
      exact hmade (Answers.bind (extendNodes_carry ih matched) fun r hr =>
        Answers.ok (allCarry_singleton (.atRule hr)))

theorem run_agrees {nodes : List Node} (h : AllCarry V nodes) :
    Agree (Binds V) (AllCarry V) (Extending.run nodes) (Extending.run nodes) := by
  refine Agree.bind Agree.get fun c _ => ?_
  have hextended : Answers (fun r => AllCarry V r.1)
      (extendNodes c.extensions (c.extensions.map fun _ => false) nodes) :=
    extendNodes_carry (fun n hn => extendNode_carries (h n hn)) _
  dsimp only
  split
  · exact Agree.throw _
  next printed matched hprinted =>
    refine Agree.bind (Agree.forM fun e _ => ?_) fun _ _ => Agree.pure (hextended _ hprinted)
    exact Agree.ite (Agree.pure trivial) (Agree.modify fun _ hc => hc)

end Extending

/-! ## The whole compile -/

theorem Stylesheet.compile_agrees (hV : Value.Kind V) (s : Stylesheet) :
    Agree (Binds V) (fun css => Flatten.AllCarry V css.body) s.compile s.compile := by
  refine Agree.bind (Agree.modify fun _ hc => hc) fun _ _ => ?_
  refine Agree.bind (Flatten.run_agrees hV s.body) fun flat hflat => ?_
  exact Agree.bind (Extending.run_agrees hflat) fun body hbody => Agree.pure hbody

/-- In a context, the computation leaves only variables bound to evaluated values, also where it fails,
and its result, if there is one, has a property. -/
structure Compile.LeavesEvaluated {α : Type} (Q : α → Prop) (m : Compile α) (c : Context) : Prop where
  context : (m.outcome c).2.Binds Value.IsEvaluated
  result : ∀ a, (m.outcome c).1 = .ok a → Q a

theorem Compile.Agree.leavesEvaluated {α : Type} {Q : α → Prop} {m m' : Compile α}
    (h : Agree (Binds Value.IsEvaluated) Q m m') {c : Context} (hc : c.Binds Value.IsEvaluated) :
    m.LeavesEvaluated Q c :=
  ⟨(h c hc).2.1, (h c hc).2.2⟩

open Flatten Value in
/--
**No unevaluated form escapes.**

Let all variables of a context be bound to evaluated values. A stylesheet that is compiled there leaves
such a context, whether it compiles or not, and a tree in which all declarations and imports hold
evaluated values.

The same holds all the way. What is expanded there, with however many calls, imports and content blocks,
leaves such a context and such statements; for the front of a list of statements this says what is bound
where the others begin. Every function answers an evaluated value for evaluated arguments, and so does
every evaluation. And no body is ever run where anything else is bound, or function called with anything
else: at two sites whose bodies of mixins, imported stylesheets and content blocks do the same in such
contexts, all statements do the same, whatever these bodies do in other contexts; and so do the bodies of
functions for two callers that do the same in such contexts with evaluated arguments.
-/
theorem Stylesheet.compile_evaluated {c : Context} (hc : c.Binds IsEvaluated) :
    (∀ s : Stylesheet, s.compile.LeavesEvaluated (fun css => AllCarry IsEvaluated css.body) c) ∧
    (∀ calls imports blocks nodes,
      (expand calls imports blocks nodes).LeavesEvaluated (AllCarry IsEvaluated) c) ∧
    (∀ calls definition arguments position, (∀ a ∈ arguments, a.value.IsEvaluated) →
      (invoke calls definition arguments position).LeavesEvaluated IsEvaluated c) ∧
    (∀ calls position arithmetic v,
      (evaluate (invoke calls) position arithmetic v).LeavesEvaluated IsEvaluated c) ∧
    (∀ {s s' : Site}, BodiesAgree IsEvaluated s s' → ∀ nodes,
      (flattenNodes s' nodes).outcome c = (flattenNodes s nodes).outcome c ∧
        (flattenNodes s nodes).LeavesEvaluated (AllCarry IsEvaluated) c) ∧
    (∀ {call call' : Caller}, CallersAgree IsEvaluated (Binds IsEvaluated) call call' → ∀ nodes,
      (runBody call' nodes).outcome c = (runBody call nodes).outcome c ∧
        (runBody call nodes).LeavesEvaluated (Returns IsEvaluated) c) := by
  have hV := Kind.isEvaluated
  have hI := keeping_binds hV
  refine ⟨fun s => ?_, fun calls imports blocks nodes => ?_,
    fun calls definition arguments position harguments => ?_, fun calls position arithmetic v => ?_,
    fun hs nodes => ?_, fun hcall nodes => ?_⟩
  · exact (s.compile_agrees hV).leavesEvaluated hc
  · exact (expand_agrees hV calls imports blocks nodes).leavesEvaluated hc
  · exact ((nesting_binds hV).invoke_agrees calls definition position harguments).leavesEvaluated hc
  · exact (evaluate_agrees hI.toKeeping ((nesting_binds hV).invoke_agrees calls) position arithmetic v).leavesEvaluated
      hc
  · have hnodes := flattenNodes_agrees hI (BodiesAgree.sites hV hs) nodes
    exact ⟨(hnodes c hc).1, hnodes.leavesEvaluated hc⟩
  · have hbody := runBody_agrees hI.toKeeping hcall nodes
    exact ⟨(hbody c hc).1, hbody.leavesEvaluated hc⟩

/-- A context in which `$x` is `red`. -/
def redContext : Context := { Context.isolated with scopes := Scopes.initial.setGlobal "x" (.word "red") }

/-- `.a { $y: ($x); color: $y; }`. -/
def redRule : Stylesheet := ⟨"", none, [
  .mk default (.rule (.parsed [.ofClass "a"]) [
    .mk default (.assignment "y" (.paren (.variable "x")) false false),
    .mk default (.declaration (Interpolation.literal "color") (.variable "y") false)])]⟩

theorem redRule_compile : ∃ css c', redRule.compile.outcome redContext = (.ok css, c') ∧
    css.body.length = 1 := by
  obtain ⟨printed, c', hcompile, hlength⟩ := Stylesheet.exists_compile (s := redRule)
    (c := redContext) (P := fun printed _ => printed.length = 1)
    fun site => ⟨_, _, _, _, by cbv, by decide, by cbv, rfl⟩
  exact ⟨_, c', hcompile, hlength⟩

theorem redContext_binds : redContext.Binds Value.IsEvaluated := by
  have hinitial : Context.isolated.Binds Value.IsEvaluated := Context.binds_new _ _ _
  exact Scopes.Binds.setGlobal hinitial "x" (.word "red")

/-- The rule is left, and what it declares is evaluated. -/
theorem redRule_evaluated : ∃ css c', redRule.compile.outcome redContext = (.ok css, c') ∧
    css.body.length = 1 ∧ Flatten.AllCarry Value.IsEvaluated css.body ∧ c'.Binds Value.IsEvaluated := by
  obtain ⟨css, c', h, hlength⟩ := redRule_compile
  have hleft := (Stylesheet.compile_evaluated redContext_binds).1 redRule
  refine ⟨css, c', h, hlength, hleft.result css (congrArg Prod.fst h), ?_⟩
  have hcontext := hleft.context
  rwa [h] at hcontext

end Scss
