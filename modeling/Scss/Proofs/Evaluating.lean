import Scss.Grammar.Statement
import Scss.Proofs.Outcome
import Scss.Proofs.Pieces

/-!
# Evaluation keeps what its steps keep

A value is evaluated by running its parts, and a function by running its body in a scope of its own.
Whatever all of these steps keep (`Evaluating`, `Executing`) is therefore kept by every value, every
built-in function and every body of a function, wherever in them it fails. A scoping relation between
the context in which a computation begins and the one it leaves is such a property.

What is known of the code can be used on the way: if all statements satisfy `S`, those written in a
body and those that the context holds (`Context.AllCode`), then a step has to keep the property only
for statements that satisfy it.

A function is run by a `Caller`. The proofs assume of it what they show of everything else, and
`invoke_keeps` closes the circle by induction on the calls that may still nest.
-/

namespace Scss

/-! ## The code of a context -/

/-- All mixins and functions in a frame satisfy `S`. -/
structure Frame.AllCode (S : Statement → Prop) (f : Frame) : Prop where
  mixins : ∀ e ∈ f.mixins, ∀ n ∈ e.2.body, n.All S
  functions : ∀ e ∈ f.functions, ∀ n ∈ e.2.body, n.All S

/-- All code that can be run from a context satisfies `S`: the mixins and functions in its frames, the
blocks on its stack, and the stylesheets that its resolver finds. -/
structure Context.AllCode (S : Statement → Prop) (c : Context) : Prop where
  frames : ∀ f ∈ c.scopes.frames, f.AllCode S
  contents : ∀ block, some block ∈ c.contents → ∀ n ∈ block.body, n.All S
  stylesheets : ∀ {importer target found stylesheet},
    c.resolver importer target = .ok (some found) →
      Stylesheet.read found.content found.uri = .ok stylesheet → ∀ n ∈ stylesheet.body, n.All S

namespace Context.AllCode

variable {S : Statement → Prop} {c : Context}

/-- If every statement is of the kind, so is all code. -/
theorem of_forall (h : ∀ statement, S statement) (c : Context) : c.AllCode S where
  frames _ _ := ⟨fun _ _ n _ => n.all_of_forall h, fun _ _ n _ => n.all_of_forall h⟩
  contents _ _ n _ := n.all_of_forall h
  stylesheets _ _ n _ := n.all_of_forall h

variable (h : c.AllCode S) {name : String} {d : Definition}
include h

/-- The body of a mixin that is found was stored in some frame. -/
theorem of_mixin? (hname : c.scopes.mixin? name = some d) : ∀ n ∈ d.body, n.All S := by
  obtain ⟨f, hf, hget⟩ := List.exists_of_findSome?_eq_some hname
  exact (h.frames f hf).mixins _ (Entries.mem_of_get? hget)

theorem of_function? (hname : c.scopes.function? name = some d) : ∀ n ∈ d.body, n.All S := by
  obtain ⟨f, hf, hget⟩ := List.exists_of_findSome?_eq_some hname
  exact (h.frames f hf).functions _ (Entries.mem_of_get? hget)

end Context.AllCode

namespace Evaluation

open Compile

/-- The computation of a suspended value keeps a property. -/
def Suspended.Keeps (N : Compile Value → Prop) (s : Suspended) : Prop := N s.run

/-! ## The parts of a value, once they are computations -/

section
variable {N : ∀ {α : Type}, Compile α → Prop} (hN : Steps N)
include hN

/-- Operations are computed from the leaves, each after its operands. -/
theorem runTree_keeps (position : Position) {tree : OperationTree Suspended}
    (h : tree.Holds (Suspended.Keeps N)) : N (runTree position tree) := by
  induction tree with
  | operand a => exact h
  | fault f => exact hN.fail position f
  | unary op inner ih => exact hN.bind (ih h) fun v => hN.pure _
  | binary op left right ihl ihr =>
      refine hN.bind (ihl h.1) fun l => ?_
      refine hN.bind (ihr h.2) fun r => ?_
      exact hN.ofFault position _

theorem runArithmetic_keeps (position : Position) {group : List (ExprToken Suspended)}
    (h : ∀ t ∈ group, t.Holds (Suspended.Keeps N)) :
    N (runArithmetic position group) := by
  refine hN.bind ?_ fun value => ?_
  · exact runTree_keeps hN position
      (OperationTree.read_holds _ fun t ht => h t (List.mem_filter.mp ht).1)
  · split
    · exact hN.pure value
    · exact hN.fail position _

theorem runLiteral_keeps {group : List (ExprToken Suspended)}
    (h : ∀ t ∈ group, t.Holds (Suspended.Keeps N)) : N (runLiteral group) := by
  refine hN.bind (hN.mapM fun t ht => ?_) fun tokens => hN.pure _
  cases t with
  | operand a => exact hN.bind (h _ ht) fun v => hN.pure _
  | operator op => exact hN.pure _
  | blank => exact hN.pure _

/-- An expression is computed or written down, group by group. -/
theorem runExpression_keeps (position : Position) (arithmetic : Bool)
    {tokens : List (ExprToken Suspended)} (h : ∀ t ∈ tokens, t.Holds (Suspended.Keeps N)) :
    N (runExpression position arithmetic tokens) := by
  have hgroup : ∀ g ∈ spaceGroups tokens,
      N ((if arithmetic then runArithmetic position else runLiteral) g) := by
    intro g hg
    have hpieces := spaceGroups_holds h g hg
    cases arithmetic with
    | true => exact runArithmetic_keeps hN position hpieces
    | false => exact runLiteral_keeps hN hpieces
  refine hN.bind (hN.mapM hgroup) fun values => ?_
  split <;> exact hN.pure _

/-- Embedded values are evaluated in the order of the text. -/
theorem runText_keeps {parts : List (TextPart Suspended)}
    (h : ∀ p ∈ parts, p.Holds (Suspended.Keeps N)) : N (runText parts) := by
  induction parts with
  | nil => exact hN.pure ""
  | cons p rest ih =>
      have hrest := ih fun q hq => h q (List.mem_cons_of_mem p hq)
      cases p with
      | literal text => exact hN.bind hrest fun t => hN.pure _
      | embedded a =>
          refine hN.bind (h _ List.mem_cons_self) fun value => ?_
          exact hN.bind hrest fun t => hN.pure _

/-- `if` runs only computations that were passed to it. -/
theorem chooseBranch_keeps {bound : BoundArguments (Compile Value)}
    (h : ∀ e ∈ bound.bindings, e.2.Holds (N (α := Value))) : N (Builtin.chooseBranch bound) := by
  have hcomputation : ∀ name, N (Builtin.computation bound name) := by
    intro name
    unfold Builtin.computation
    split
    next a hget => exact h _ (Entries.mem_of_get? hget)
    · exact hN.pure _
    · exact hN.pure _
  refine hN.bind (hcomputation "condition") fun condition => ?_
  split
  · exact hcomputation "if-true"
  · exact hcomputation "if-false"

variable {arguments : List (Argument Suspended)} (ha : ∀ a ∈ arguments, a.value.Keeps N)
include ha

theorem runArguments_keeps : N (runArguments arguments) := by
  induction arguments with
  | nil => exact hN.pure []
  | cons a rest ih =>
      obtain ⟨name, s, splat⟩ := a
      refine hN.bind (ha _ List.mem_cons_self) fun value => ?_
      have hrest := ih fun b hb => ha b (List.mem_cons_of_mem _ hb)
      exact hN.bind hrest fun values => hN.pure _

theorem runPlainArguments_keeps : N (runPlainArguments arguments) := by
  induction arguments with
  | nil => exact hN.pure []
  | cons a rest ih =>
      obtain ⟨name, s, splat⟩ := a
      refine hN.bind (ha _ List.mem_cons_self) fun value => ?_
      have hrest := ih fun b hb => ha b (List.mem_cons_of_mem _ hb)
      exact hN.bind hrest fun values => hN.pure _

/-- A built-in function evaluates its arguments, or with `if` the one that is chosen. -/
theorem runBuiltin_keeps (position : Position) (b : Builtin) :
    N (runBuiltin position b arguments) := by
  unfold runBuiltin
  split
  next f _ =>
    refine hN.bind (runArguments_keeps hN ha) fun evaluated => ?_
    refine hN.bind (hN.ofFault position _) fun bound => ?_
    exact hN.ofFault position _
  next _ =>
    refine hN.ofFault_bind position fun bound hbound => ?_
    refine chooseBranch_keeps hN (Signature.bind_holds (fun a hmem => ?_) hbound).1
    obtain ⟨a', ha', rfl⟩ := List.mem_map.mp hmem
    exact ha a' ha'

end

/-! ## What is suspended -/

section
variable {P : Suspended → Prop} {call : Caller} {position : Position} {arithmetic : Bool}

theorem suspendItems_holds {items : List Value}
    (h : ∀ v ∈ items, P ⟨v, evaluate call position arithmetic v⟩) :
    ∀ s ∈ suspendItems call position arithmetic items, P s := by
  induction items with
  | nil => exact fun _ hs => absurd hs List.not_mem_nil
  | cons v rest ih =>
      intro s hs
      rcases List.mem_cons.mp hs with rfl | hs
      · exact h v List.mem_cons_self
      · exact ih (fun w hw => h w (List.mem_cons_of_mem v hw)) s hs

/-- What holds of each embedded value, suspended, holds of the suspended parts. -/
theorem suspendParts_holds {parts : List (TextPart Value)}
    (h : ∀ v, .embedded v ∈ parts → P ⟨v, evaluate call position true v⟩) :
    ∀ p ∈ suspendParts call position parts, p.Holds P := by
  induction parts with
  | nil => exact fun _ hp => absurd hp List.not_mem_nil
  | cons part rest ih =>
      have hrest := ih fun v hv => h v (List.mem_cons_of_mem part hv)
      intro p hp
      cases part with
      | literal text =>
          rcases List.mem_cons.mp hp with rfl | hp
          · trivial
          · exact hrest p hp
      | embedded v =>
          rcases List.mem_cons.mp hp with rfl | hp
          · exact h v List.mem_cons_self
          · exact hrest p hp

theorem suspendArguments_holds {arguments : List (Argument Value)}
    (h : ∀ a ∈ arguments, P ⟨a.value, evaluate call position arithmetic a.value⟩) :
    ∀ a ∈ suspendArguments call position arithmetic arguments, P a.value := by
  induction arguments with
  | nil => exact fun _ ha => absurd ha List.not_mem_nil
  | cons argument rest ih =>
      intro a ha
      rcases List.mem_cons.mp ha with rfl | ha
      · exact h argument List.mem_cons_self
      · exact ih (fun b hb => h b (List.mem_cons_of_mem argument hb)) a ha

/-- What holds of each operand, suspended, holds of the suspended tokens. -/
theorem suspendTokens_holds {tokens : List (ExprToken Value)}
    (h : ∀ v, .operand v ∈ tokens → P ⟨v, evaluate call position arithmetic v⟩) :
    ∀ t ∈ suspendTokens call position arithmetic tokens, t.Holds P := by
  induction tokens with
  | nil => exact fun _ ht => absurd ht List.not_mem_nil
  | cons token rest ih =>
      have hrest := ih fun v hv => h v (List.mem_cons_of_mem token hv)
      intro t ht
      cases token with
      | operand v =>
          rcases List.mem_cons.mp ht with rfl | ht
          · exact h v List.mem_cons_self
          · exact hrest t ht
      | operator op =>
          rcases List.mem_cons.mp ht with rfl | ht
          · trivial
          · exact hrest t ht
      | blank =>
          rcases List.mem_cons.mp ht with rfl | ht
          · trivial
          · exact hrest t ht

end

/-! ## Steps of an evaluation -/

/-- What evaluates a value is done with these steps, and `N` is a property that all of them keep, if
all code satisfies `S`. Of the context, nothing is looked at but what a name is bound to. -/
structure Evaluating (S : Statement → Prop) (N : ∀ {α : Type}, Compile α → Prop) : Prop
    extends Steps N where
  lookUp : ∀ {α : Type} name {f : Scopes → Compile α},
    (∀ s t : Scopes, t.valueOf? name = s.valueOf? name → t.function? name = s.function? name →
      f t = f s) → (∀ c : Context, c.AllCode S → N (f c.scopes)) → N (Compile.scopes >>= f)

/-- What runs a function is done with these steps. -/
structure Executing (S : Statement → Prop) (N : ∀ {α : Type}, Compile α → Prop) : Prop
    extends Evaluating S N where
  define : ∀ name value, N (modifyScopes (·.define name value))
  assign : ∀ name value, N (modifyScopes (·.assign name value))
  setGlobal : ∀ {name source ifUnset}, S (.assignment name source ifUnset true) →
    ∀ value, N (modifyScopes (·.setGlobal name value))
  warn : ∀ position message, N (Compile.warn position message)
  inScope : ∀ {α : Type} {m : Compile α}, N m → N (Compile.inScope m)
  calling : ∀ {α : Type} name position {m : Compile α}, N m → N (Compile.calling name position m)

/-- Whatever function it runs, the caller keeps the property. -/
def CallerKeeps (S : Statement → Prop) (N : ∀ {α : Type}, Compile α → Prop) (call : Caller) : Prop :=
  ∀ definition : Definition, (∀ n ∈ definition.body, n.All S) →
    ∀ arguments position, N (call definition arguments position)

section
variable {S : Statement → Prop} {N : ∀ {α : Type}, Compile α → Prop} {α : Type}

/-- The property is also kept if the whole context is looked at. -/
def Reading (S : Statement → Prop) (N : ∀ {α : Type}, Compile α → Prop) : Prop :=
  ∀ {α : Type} {f : Context → Compile α}, (∀ c, c.AllCode S → N (f c)) → N (get >>= f)

/-- What depends on the scopes may rely on the code in them. -/
theorem Reading.scopes (hR : Reading S N) {f : Scopes → Compile α}
    (h : ∀ c : Context, c.AllCode S → N (f c.scopes)) : N (Compile.scopes >>= f) := by
  simp only [Compile.scopes, bind_assoc, pure_bind]
  exact hR h

/-- A context that is only looked at. -/
theorem Reading.get (hR : Reading S N) (hN : Steps N) : N (MonadState.get : Compile Context) := by
  rw [← bind_pure (MonadState.get : Compile Context)]
  exact hR fun c _ => hN.pure c

theorem Reading.evaluating (hR : Reading S N) (hN : Steps N) : Evaluating S N where
  toSteps := hN
  lookUp _ _ _ h := hR.scopes h

theorem reading_of_leaves {R : Context → Context → Prop} : Reading (fun _ => True) (Leaves R) :=
  fun h c => h c (.of_forall (fun _ => trivial) c) c

/-- What a scoping relation says of a computation is kept by every step, whatever the code is. -/
theorem executing_of_scoping {R : Context → Context → Prop} (hR : Scoping R) :
    Executing (fun _ => True) (Leaves R) where
  toEvaluating := reading_of_leaves.evaluating hR.steps
  define name value := Leaves.define hR name value
  assign name value c := hR.assign c name value
  setGlobal _ value c := hR.setGlobal c _ value
  warn position message := Leaves.warn hR position message
  inScope := Leaves.inScope hR
  calling name position _ := Leaves.calling hR name position

end

/-! ## Values -/

section
variable {S : Statement → Prop} {N : ∀ {α : Type}, Compile α → Prop} (hN : Evaluating S N)
  {call : Caller} (hcall : CallerKeeps S N call)
include hN hcall

/-- A call is one of a function of the stylesheet, of a built-in function or of CSS. -/
theorem runCall_keeps (position : Position) (name : String)
    {computed plain : List (Argument Suspended)} (hc : ∀ a ∈ computed, a.value.Keeps N)
    (hp : ∀ a ∈ plain, a.value.Keeps N) : N (runCall call position name computed plain) := by
  refine hN.lookUp name (fun s t _ h => by rw [h]) fun c hcode => ?_
  split
  next definition hname =>
    refine hN.bind (runArguments_keeps hN.toSteps hc) fun passed => ?_
    exact hcall definition (hcode.of_function? hname) passed position
  · split
    · exact runBuiltin_keeps hN.toSteps hc position _
    · exact hN.bind (runPlainArguments_keeps hN.toSteps hp) fun passed => hN.pure _

/-- **Evaluation keeps what its steps keep**, if calls do. -/
theorem evaluate_keeps (position : Position) (arithmetic : Bool) (v : Value) :
    N (evaluate call position arithmetic v) := by
  -- what is inside may be evaluated in the other mode, so the induction is for both
  induction v using Value.induction generalizing arithmetic with
  | null | number | color | quoted | word => exact hN.pure _
  | var name =>
      refine hN.lookUp name (fun s t h _ => by rw [h]) fun c _ => ?_
      split
      · exact hN.pure _
      · exact hN.fail position _
  | call name arguments ih =>
      rw [evaluate]
      refine runCall_keeps hN hcall position name ?_ ?_
      · exact suspendArguments_holds fun a ha => ih a ha true
      · exact suspendArguments_holds fun a ha => ih a ha false
  | list items separator ih =>
      rw [evaluate]
      refine hN.bind (hN.mapM ?_) fun values => hN.pure _
      exact suspendItems_holds fun v hv => ih v hv arithmetic
  | expression tokens ih =>
      rw [evaluate]
      refine runExpression_keeps hN.toSteps position _ ?_
      exact suspendTokens_holds fun v hv => ih v hv _
  | paren inner ih =>
      rw [evaluate]
      exact ih true
  | interpolated parts quote ih =>
      rw [evaluate]
      refine hN.bind (runText_keeps hN.toSteps ?_) fun text => ?_
      · exact suspendParts_holds fun v hv => ih v hv true
      · split <;> exact hN.pure _

theorem compute_keeps (position : Position) (v : Value) : N (compute call position v) :=
  evaluate_keeps hN hcall position true v

theorem holds_keeps (position : Position) (condition : Value) :
    N (holds call position condition) :=
  hN.bind (compute_keeps hN hcall position condition) fun v => hN.pure v.isTruthy

theorem interpolate_keeps (position : Position) (parts : Interpolation) :
    N (interpolate call position parts) :=
  runText_keeps hN.toSteps
    (suspendParts_holds fun v _ => evaluate_keeps hN hcall position true v)

theorem eachItems_keeps (position : Position) (list : Value) :
    N (eachItems call position list) :=
  hN.bind (evaluate_keeps hN hcall position false list) fun v => hN.pure v.items

theorem loopBound_keeps (position : Position) (v : Value) : N (loopBound call position v) := by
  refine hN.bind (compute_keeps hN hcall position v) fun value => ?_
  split
  · split
    · exact hN.pure _
    · exact hN.fail position _
  · exact hN.fail position _

omit hcall in
theorem loopIndex_keeps (position : Position) (n : Number) : N (loopIndex position n) :=
  hN.ite (hN.pure _) (hN.fail position _)

/-- The bounds are evaluated first, then the values between them are counted. -/
theorem loopValues_keeps (position : Position) (start stop : Value) (isInclusive : Bool) :
    N (loopValues call position start stop isInclusive) := by
  refine hN.bind (loopBound_keeps hN hcall position start) fun first => ?_
  refine hN.bind (loopBound_keeps hN hcall position stop) fun last => ?_
  refine hN.bind (loopIndex_keeps hN position first) fun i => ?_
  refine hN.bind (loopIndex_keeps hN position last) fun j => ?_
  refine hN.ite ?_ (hN.pure _)
  exact hN.bind (hN.throw _) fun _ => hN.pure _

end

/-! ## Bindings -/

section
variable {S : Statement → Prop} {N : ∀ {α : Type}, Compile α → Prop} (hN : Executing S N)
  {call : Caller} (hcall : CallerKeeps S N call)
include hN hcall

/-- Defaults are evaluated in the scope of the callee, where the parameters before them are bound. -/
theorem bindParameters_keeps (position : Position) (bound : BoundArguments Value) :
    N (bindParameters call position bound) := by
  refine hN.bind (hN.forM fun e _ => ?_) fun _ => ?_
  · obtain ⟨name, binding⟩ := e
    cases binding with
    | given v => exact hN.define name v
    | default v =>
        exact hN.bind (compute_keeps hN.toEvaluating hcall position v) fun value =>
          hN.define name value
  · split
    · exact hN.define _ _
    · exact hN.pure ()

/-- The value is evaluated before the name is looked up. -/
theorem assign_keeps (position : Position) {name : String} {value : Value}
    {ifUnset isGlobal : Bool} (hS : S (.assignment name value ifUnset isGlobal)) :
    N (assign call position name value ifUnset isGlobal) := by
  refine hN.lookUp name (fun s t h _ => by rw [h]) fun c _ => hN.ite ?_ (hN.pure ())
  refine hN.bind (evaluate_keeps hN.toEvaluating hcall position false value) fun v => ?_
  cases isGlobal with
  | true => exact hN.setGlobal hS v
  | false => exact hN.assign name v

omit hcall in
theorem share_keeps : ∀ (names : List String) (values : List Value),
    N (bindItem.share names values)
  | [], _ => hN.pure ()
  | name :: names, [] => hN.bind (hN.define name .null) fun _ => share_keeps names []
  | name :: names, v :: values => hN.bind (hN.define name v) fun _ => share_keeps names values

omit hcall in
/-- One name takes the item, several names share its entries. -/
theorem bindItem_keeps (names : List String) (item : Value) : N (bindItem names item) := by
  unfold bindItem
  split
  · exact hN.define _ item
  · exact share_keeps hN _ _

theorem report_keeps (position : Position) (level : DiagnosticLevel) (message : Value) :
    N (report call position level message) := by
  refine hN.bind (compute_keeps hN.toEvaluating hcall position message) fun text => ?_
  cases level with
  | warn => exact hN.warn position _
  | debug => exact hN.pure ()
  | error => exact hN.fail position _

end

/-! ## Functions -/

section
variable {N : ∀ {α : Type}, Compile α → Prop} (hN : Steps N)
include hN

/-- Rounds of a body go on until one of them returns. -/
theorem untilReturned_keeps {α β : Type} {run : α → Compile (Option β)} (h : ∀ a, N (run a))
    (items : List α) : N (untilReturned run items) := by
  induction items with
  | nil => exact hN.pure none
  | cons a rest ih =>
      refine hN.bind (h a) fun returned => ?_
      cases returned with
      | some b => exact hN.pure (some b)
      | none => exact ih

/-- Here the condition is evaluated in front of every round, and there is a limit to them. -/
theorem whileNotReturned_keeps {β : Type} {condition : Compile Bool}
    {run : Compile (Option β)} (hc : N condition) (hrun : N run) (rounds : Nat) :
    N (whileNotReturned condition run rounds) := by
  induction rounds with
  | zero =>
      refine hN.bind hc fun again => ?_
      split
      · exact hN.throw _
      · exact hN.pure none
  | succ rounds ih =>
      refine hN.bind hc fun again => ?_
      split
      · refine hN.bind hrun fun returned => ?_
        cases returned with
        | some b => exact hN.pure (some b)
        | none => exact ih
      · exact hN.pure none

end

section
variable {S : Statement → Prop} {N : ∀ {α : Type}, Compile α → Prop}

mutual

theorem runBody_keeps (hN : Executing S N) {call : Caller} (hcall : CallerKeeps S N call) :
    ∀ nodes : List Node, (∀ n ∈ nodes, n.All S) → N (runBody call nodes)
  | [], _ => hN.pure none
  | node :: rest, hnodes => by
      rw [runBody]
      obtain ⟨hnode, hrest⟩ := List.forall_mem_cons.mp hnodes
      refine hN.bind (runNode_keeps hN hcall node hnode) fun returned => ?_
      cases returned with
      | some value => exact hN.pure (some value)
      | none => exact runBody_keeps hN hcall rest hrest

theorem runNode_keeps (hN : Executing S N) {call : Caller} (hcall : CallerKeeps S N call) :
    ∀ node : Node, node.All S → N (runNode call node)
  | .mk position statement, .mk own inside =>
      runStatement_keeps hN hcall position statement own inside

/-- One case for each kind of statement that a function may run; all others are faults. -/
theorem runStatement_keeps (hN : Executing S N) {call : Caller} (hcall : CallerKeeps S N call)
    (position : Position) : ∀ statement : Statement, S statement →
      (∀ body ∈ statement.bodies, ∀ n ∈ body, n.All S) → N (runStatement call position statement)
  | .returnValue value, _, _ => by
      rw [runStatement]
      exact hN.bind (compute_keeps hN.toEvaluating hcall position value) fun v => hN.pure (some v)
  | .assignment name value ifUnset isGlobal, own, _ => by
      rw [runStatement]
      exact hN.bind (assign_keeps hN hcall position own) fun _ => hN.pure none
  | .diagnostic level message, _, _ => by
      rw [runStatement]
      exact hN.bind (report_keeps hN hcall position level message) fun _ => hN.pure none
  | .comment _, _, _ => hN.pure none
  | .branches alternatives, _, inside => by
      rw [runStatement]
      exact runBranches_keeps hN hcall position alternatives inside
  | .eachLoop names list body, _, inside => by
      rw [runStatement]
      have hbody := runBody_keeps hN hcall body (inside body List.mem_cons_self)
      refine hN.bind (eachItems_keeps hN.toEvaluating hcall position list) fun items => ?_
      refine untilReturned_keeps hN.toSteps (fun item => hN.inScope ?_) items
      exact hN.bind (bindItem_keeps hN names item) fun _ => hbody
  | .forLoop counter start stop isInclusive body, _, inside => by
      rw [runStatement]
      have hbody := runBody_keeps hN hcall body (inside body List.mem_cons_self)
      refine hN.bind (loopValues_keeps hN.toEvaluating hcall position start stop isInclusive)
        fun is => ?_
      refine untilReturned_keeps hN.toSteps (fun i => hN.inScope ?_) is
      exact hN.bind (hN.define counter i) fun _ => hbody
  | .whileLoop condition body, _, inside => by
      rw [runStatement]
      have hbody := runBody_keeps hN hcall body (inside body List.mem_cons_self)
      exact whileNotReturned_keeps hN.toSteps (holds_keeps hN.toEvaluating hcall position condition)
        (hN.inScope hbody) maxRounds
  -- none of these has a place in a function
  | .rule .., _, _ | .declaration .., _, _ | .media .., _, _ | .extend .., _, _ | .mixin .., _, _
  | .function .., _, _ | .includeMixin .., _, _ | .content, _, _ | .importFile .., _, _
  | .atRule .., _, _ => hN.fail position _

theorem runBranches_keeps (hN : Executing S N) {call : Caller} (hcall : CallerKeeps S N call)
    (position : Position) : ∀ alternatives : List (Option Value × List Node),
      (∀ body ∈ alternatives.map Prod.snd, ∀ n ∈ body, n.All S) →
        N (runBranches call position alternatives)
  | [], _ => hN.pure none
  | (none, body) :: _, inside => by
      rw [runBranches]
      exact hN.inScope (runBody_keeps hN hcall body (inside body List.mem_cons_self))
  | (some condition, body) :: rest, inside => by
      rw [runBranches]
      have hbody := runBody_keeps hN hcall body (inside body List.mem_cons_self)
      refine hN.bind (holds_keeps hN.toEvaluating hcall position condition) fun taken => ?_
      split
      · exact hN.inScope hbody
      · exact runBranches_keeps hN hcall position rest fun later hlater =>
          inside later (List.mem_cons_of_mem body hlater)

end

/-- Where no call may nest, a function only fails. -/
theorem invoke_zero_keeps (hN : Steps N) : CallerKeeps S N (invoke 0) := by
  intro definition _ arguments position
  refine hN.bind ?_ fun _ => hN.fail position _
  exact hN.map _ (hN.ofFault position _)

section
variable {M : ∀ {α : Type}, Compile α → Prop}
  (hN : Steps N) (hM : Executing S M)
  (hscope : ∀ {α : Type} name position {m : Compile α}, M m →
    N (Compile.calling name position (Compile.inScope m)))
include hN hM hscope

/-- What a function does in a scope of its own, one call deeper, keeps `M`. So the call keeps what is
kept around such a scope. -/
theorem invoke_succ_keeps {calls : Nat} (hcall : CallerKeeps S M (invoke calls)) :
    CallerKeeps S N (invoke (calls + 1)) := by
  intro definition hbody arguments position
  refine hN.bind (hN.ofFault position _) fun bound => ?_
  refine hN.bind (hscope _ _ ?_) fun returned => ?_
  · exact hM.bind (bindParameters_keeps hM hcall position bound) fun _ =>
      runBody_keeps hM hcall definition.body hbody
  · cases returned with
    | some value => exact hN.pure value
    | none => exact hN.fail position _

end

/-- **Calls keep what the steps keep**, however deep they may still nest. -/
theorem invoke_keeps (hN : Executing S N) (calls : Nat) : CallerKeeps S N (invoke calls) := by
  induction calls with
  | zero => exact invoke_zero_keeps hN.toSteps
  | succ calls ih =>
      exact invoke_succ_keeps hN.toSteps hN
        (fun name position _ h => hN.calling name position (hN.inScope h)) ih

/-- Calls keep what is kept around the scopes of functions, if in these the steps keep something
else. -/
theorem invoke_keeps_around {M : ∀ {α : Type}, Compile α → Prop} (hN : Steps N) (hM : Executing S M)
    (hscope : ∀ {α : Type} name position {m : Compile α}, M m →
      N (Compile.calling name position (Compile.inScope m)))
    (calls : Nat) : CallerKeeps S N (invoke calls) := by
  cases calls with
  | zero => exact invoke_zero_keeps hN
  | succ calls => exact invoke_succ_keeps hN hM hscope (invoke_keeps hM calls)

end

end Evaluation

end Scss
