import Scss.Proofs.Evaluating
import Scss.Proofs.Kinds
import Scss.Proofs.Naturality

/-!
# Evaluations that agree

A value is evaluated with the help of a `Caller`, and two callers make two evaluations of it. If the
callers do the same wherever a property of contexts holds that evaluation keeps, the evaluations do the
same there, and so do the bodies of functions (`Agree`). What is bound to variables may be known to be
of a kind; then what is evaluated is of that kind too.

Both halves are one induction, on values and then on the statements of functions. With one caller
twice, it says what an evaluation answers, and what it leaves behind. With two, it says that nothing
else of them matters than what they do in such contexts: this is how calls nested too deep to happen
are told from those that do.
-/

namespace Scss

namespace Compile

variable {α β : Type}

/-- In every context with the property `I`, two computations do the same; the context that they leave
has the property, and the result, if there is one, satisfies `Q`. -/
def Agree (I : Context → Prop) (Q : α → Prop) (m m' : Compile α) : Prop :=
  ∀ c, I c → m'.outcome c = m.outcome c ∧ I (m.outcome c).2 ∧ ∀ a, (m.outcome c).1 = .ok a → Q a

namespace Agree

variable {I : Context → Prop} {Q : α → Prop} {P : β → Prop} {m m' : Compile α}

protected theorem pure {a : α} (h : Q a) : Agree I Q (pure a) (pure a) :=
  fun _ hc => ⟨rfl, hc, fun _ hb => Except.ok.inj hb ▸ h⟩

protected theorem throw (failure : Failure) : Agree I Q (throw failure) (throw failure) :=
  fun _ hc => ⟨rfl, hc, fun _ h => nomatch h⟩

theorem fail (position : Position) (fault : EvaluationFault) :
    Agree I Q (Compile.fail position fault) (Compile.fail position fault) := Agree.throw _

theorem ofFault (position : Position) {r : Except EvaluationFault α} (h : Answers Q r) :
    Agree I Q (Compile.ofFault position r) (Compile.ofFault position r) := by
  cases r with
  | ok a => exact Agree.pure (h a rfl)
  | error fault => exact Agree.throw _

/-- What follows starts from the same answer, in the same context. -/
protected theorem bind {f f' : α → Compile β} (hm : Agree I Q m m')
    (hf : ∀ a, Q a → Agree I P (f a) (f' a)) : Agree I P (m >>= f) (m' >>= f') := by
  intro c hc
  obtain ⟨hsame, hleft, hresult⟩ := hm c hc
  match hmc : m.outcome c with
  | (.ok a, c') =>
      rw [hmc] at hsame hleft hresult
      rw [outcome_bind_ok hmc, outcome_bind_ok hsame]
      exact hf a (hresult a rfl) c' hleft
  | (.error failure, c') =>
      rw [hmc] at hsame hleft
      rw [outcome_bind_error hmc, outcome_bind_error hsame]
      exact ⟨rfl, hleft, fun _ h => nomatch h⟩

protected theorem ite {p : Prop} [Decidable p] {n n' : Compile α} (h : Agree I Q m m')
    (h' : Agree I Q n n') : Agree I Q (if p then m else n) (if p then m' else n') := by
  split
  · exact h
  · exact h'

protected theorem get : Agree I I get get := fun _ hc => ⟨rfl, hc, fun _ h => Except.ok.inj h ▸ hc⟩

/-- A change of the context that keeps the property. -/
protected theorem modify {change : Context → Context} (h : ∀ c, I c → I (change c)) :
    Agree I (fun _ => True) (modify change) (modify change) :=
  fun c hc => ⟨rfl, h c hc, fun _ _ => trivial⟩

/-- What is done to each of some pieces, which are made from the same pieces for both. -/
theorem mapM {γ δ : Type} {xs : List γ} {g g' : γ → δ} {f f' : δ → Compile β}
    (h : ∀ x ∈ xs, Agree I P (f (g x)) (f' (g' x))) :
    Agree I (fun ys => ∀ y ∈ ys, P y) ((xs.map g).mapM f) ((xs.map g').mapM f') := by
  induction xs with
  | nil => exact Agree.pure fun _ hy => absurd hy List.not_mem_nil
  | cons x xs ih =>
      rw [List.map_cons, List.map_cons, List.mapM_cons, List.mapM_cons]
      refine Agree.bind (h x List.mem_cons_self) fun y hy => ?_
      refine Agree.bind (ih fun z hz => h z (List.mem_cons_of_mem x hz)) fun ys hys => ?_
      exact Agree.pure (List.forall_mem_cons.mpr ⟨hy, hys⟩)

theorem forM {γ : Type} {xs : List γ} {f f' : γ → Compile Unit}
    (h : ∀ x ∈ xs, Agree I (fun _ => True) (f x) (f' x)) :
    Agree I (fun _ => True) (xs.forM f) (xs.forM f') := by
  induction xs with
  | nil => exact Agree.pure trivial
  | cons x xs ih =>
      show Agree I _ (f x >>= fun _ => xs.forM f) (f' x >>= fun _ => xs.forM f')
      refine Agree.bind (h x List.mem_cons_self) fun _ _ => ?_
      exact ih fun z hz => h z (List.mem_cons_of_mem x hz)

/-- Computations run elsewhere: in a changed context, and with a change at the end. There another
property may hold. -/
theorem within {J : Context → Prop} (inside : Context → Context)
    (outside : Context → Context → Context) {w w' : Compile α}
    (hw : ∀ c, w.outcome c = ((m.outcome (inside c)).1, outside c (m.outcome (inside c)).2))
    (hw' : ∀ c, w'.outcome c = ((m'.outcome (inside c)).1, outside c (m'.outcome (inside c)).2))
    (h : Agree J Q m m') (hinside : ∀ {c}, I c → J (inside c))
    (houtside : ∀ {c d}, I c → J d → I (outside c d)) : Agree I Q w w' := by
  intro c hc
  obtain ⟨hsame, hleft, hresult⟩ := h (inside c) (hinside hc)
  rw [hw, hw', hsame]
  exact ⟨rfl, houtside hc hleft, hresult⟩

/-- A block is pushed around the body, which runs under what holds then. -/
theorem passing {J : Context → Prop} (block : Option ContentBlock) (h : Agree J Q m m')
    (hpush : ∀ {c}, I c → J (c.pushContent block)) (hpop : ∀ {d}, J d → I d.popContent) :
    Agree I Q (Compile.passing block m) (Compile.passing block m') :=
  within (·.pushContent block) (fun _ d => d.popContent) (fun _ => rfl) (fun _ => rfl) h hpush
    fun _ => hpop

theorem settingAside {J : Context → Prop} (block : Option ContentBlock) (h : Agree J Q m m')
    (hpop : ∀ {c}, I c → J c.popContent) (hpush : ∀ {d}, J d → I (d.pushContent block)) :
    Agree I Q (Compile.settingAside block m) (Compile.settingAside block m') :=
  within (·.popContent) (fun _ d => d.pushContent block) (fun _ => rfl) (fun _ => rfl) h hpop
    fun _ => hpush

/-- Only some frames are seen by the body, and the hidden ones come back behind it. -/
theorem seeing {J : Context → Prop} (depth : Nat) (h : Agree J Q m m')
    (hhide : ∀ {c}, I c → J { c with scopes := (c.scopes.hideAbove depth).2 })
    (hrestore : ∀ {c d}, I c → J d →
      I { d with scopes := d.scopes.restore (c.scopes.hideAbove depth).1 }) :
    Agree I Q (Compile.seeing depth m) (Compile.seeing depth m') :=
  within (fun c => { c with scopes := (c.scopes.hideAbove depth).2 })
    (fun c d => { d with scopes := d.scopes.restore (c.scopes.hideAbove depth).1 })
    (fun _ => rfl) (fun _ => rfl) h hhide hrestore

/-- A call one level deeper. If calls are nested too deep already, nothing is asked of the bodies. -/
theorem calling {J : Context → Prop} (name : String) (position : Position) (h : Agree J Q m m')
    (henter : ∀ {c d}, I c → c.enterCall name position = .ok d → J d)
    (hexit : ∀ {d}, J d → I d.exitCall) :
    Agree I Q (Compile.calling name position m) (Compile.calling name position m') := by
  intro c hc
  rw [outcome_calling, outcome_calling]
  cases hentered : c.enterCall name position with
  | error failure => exact ⟨rfl, hc, fun _ h => nomatch h⟩
  | ok d =>
      obtain ⟨hsame, hleft, hresult⟩ := h d (henter hc hentered)
      dsimp only
      rw [hsame]
      exact ⟨rfl, hexit hleft, hresult⟩

/-- An imported stylesheet. If it cannot be entered, nothing is asked of the bodies. -/
theorem importing {J : Context → Prop} (uri base : String) (h : Agree J Q m m')
    (henter : ∀ {c d}, I c → c.enterImport uri base = .ok d → J d)
    (hexit : ∀ {d}, J d → I d.exitImport) :
    Agree I Q (Compile.importing uri base m) (Compile.importing uri base m') := by
  intro c hc
  rw [Compile.importing, Compile.importing, outcome_get_bind, outcome_get_bind]
  cases hentered : c.enterImport uri base with
  | error failure => exact ⟨rfl, hc, fun _ h => nomatch h⟩
  | ok d =>
      obtain ⟨hsame, hleft, hresult⟩ := h d (henter hc hentered)
      refine ⟨?_, hexit hleft, hresult⟩
      show ((m'.outcome d).1, (m'.outcome d).2.exitImport) = _
      rw [hsame]
      rfl

end Agree

/-- A property of contexts that evaluation keeps if all values in it are of a kind: it holds along the
changes made to variables, and inside of a scope as well as after it. All variables are bound to values
of the kind. -/
structure Keeping (V : Value → Prop) (I : Context → Prop) : Prop where
  kind : Value.Kind V
  value : ∀ {c name v}, I c → c.scopes.valueOf? name = some v → V v
  define : ∀ {c} name {v}, I c → V v → I { c with scopes := c.scopes.define name v }
  assign : ∀ {c} name {v}, I c → V v → I { c with scopes := c.scopes.assign name v }
  setGlobal : ∀ {c} name {v}, I c → V v → I { c with scopes := c.scopes.setGlobal name v }
  warn : ∀ {c} position message, I c → I (c.warn position message)
  entered : ∀ {c}, I c → I (entered c)
  left : ∀ {c}, I c → I (left c)

namespace Keeping

variable {V : Value → Prop} {I : Context → Prop} (hI : Keeping V I)
include hI

theorem scopes : Agree I (fun s => ∀ name v, s.valueOf? name = some v → V v) Compile.scopes
    Compile.scopes :=
  fun _ hc => ⟨rfl, hc, fun _ hs _ _ hv => hI.value hc (Except.ok.inj hs ▸ hv)⟩

/-- Binding a variable to a value of the kind. -/
theorem binds (name : String) {v : Value} (hv : V v) :
    Agree I (fun _ => True) (modifyScopes (·.define name v)) (modifyScopes (·.define name v)) :=
  Agree.modify fun _ hc => hI.define name hc hv

theorem inScope {Q : α → Prop} {m m' : Compile α} (h : Agree I Q m m') :
    Agree I Q (Compile.inScope m) (Compile.inScope m') :=
  Agree.within Compile.entered (fun _ => Compile.left) (outcome_inScope m) (outcome_inScope m') h
    hI.entered fun _ => hI.left

end Keeping

end Compile

namespace Evaluation

open Compile

/-! ## What is suspended is made from the parts -/

/-- A value and its evaluation by a caller. -/
def suspend (call : Caller) (position : Position) (arithmetic : Bool) (v : Value) : Suspended :=
  ⟨v, evaluate call position arithmetic v⟩

section
variable (call : Caller) (position : Position) (arithmetic : Bool)

theorem suspendItems_eq_map (items : List Value) : suspendItems call position arithmetic items =
    items.map (suspend call position arithmetic) := by
  induction items with
  | nil => rfl
  | cons v rest ih => rw [suspendItems, ih]; rfl

theorem suspendArguments_eq_map (arguments : List (Argument Value)) :
    suspendArguments call position arithmetic arguments =
      arguments.map (Argument.map (suspend call position arithmetic)) := by
  induction arguments with
  | nil => rfl
  | cons a rest ih => rw [suspendArguments, ih]; rfl

theorem suspendTokens_eq_map (tokens : List (ExprToken Value)) :
    suspendTokens call position arithmetic tokens =
      tokens.map (ExprToken.map (suspend call position arithmetic)) := by
  induction tokens with
  | nil => rfl
  | cons t rest ih => cases t <;> rw [suspendTokens, ih] <;> rfl

end

/-! ## The parts of a value -/

variable {V : Value → Prop} {I : Context → Prop}

/-- Wherever the property holds, two callers do the same for arguments of the kind, and answer values
of the kind. -/
def CallersAgree (V : Value → Prop) (I : Context → Prop) (call call' : Caller) : Prop :=
  ∀ definition {arguments} position, (∀ a ∈ arguments, V a.value) →
    Agree I V (call definition arguments position) (call' definition arguments position)

section
variable (hI : Keeping V I) {call call' : Caller} {position : Position} {arithmetic : Bool}

include hI in
/-- Operations agree when their leaves do: the operands are evaluated in the same order and give the
same. -/
theorem runTree_agrees {tree : OperationTree Value}
    (h : tree.Holds fun v =>
      Agree I V (evaluate call position arithmetic v) (evaluate call' position arithmetic v)) :
    Agree I V (runTree position (tree.map (suspend call position arithmetic)))
      (runTree position (tree.map (suspend call' position arithmetic))) := by
  induction tree with
  | operand v => exact h
  | fault f => exact Agree.fail position f
  | unary op inner ih =>
      exact Agree.bind (ih h) fun v _ => Agree.pure (hI.kind.applyUnary op v)
  | binary op left right ihl ihr =>
      refine Agree.bind (ihl h.1) fun l hl => ?_
      refine Agree.bind (ihr h.2) fun r hr => ?_
      exact Agree.ofFault position (hI.kind.applyBinary op hl hr)

/-- The tree of a group is read before anything is evaluated. -/
theorem runArithmetic_suspend (tokens : List (ExprToken Value)) :
    runArithmetic position (tokens.map (ExprToken.map (suspend call position arithmetic))) = (do
      let value ← runTree position ((OperationTree.read Value.text
        (tokens.filter fun t => !t.isBlank)).1.map (suspend call position arithmetic))
      match (OperationTree.read Value.text (tokens.filter fun t => !t.isBlank)).2 with
      | [] => return value
      | t :: _ =>
        fail position (.unexpectedInExpression (OperationTree.describe Value.text t))) := by
  have hfilter : (tokens.map (ExprToken.map (suspend call position arithmetic))).filter
      (fun t => !t.isBlank) = (tokens.filter fun t => !t.isBlank).map
        (ExprToken.map (suspend call position arithmetic)) := by
    simp only [List.filter_map, Function.comp_def, ExprToken.isBlank_map]
  have hread := OperationTree.read_map (suspend call position arithmetic)
    (fun s => s.source.text) (tokens.filter fun t => !t.isBlank)
  unfold runArithmetic
  dsimp only
  rw [hfilter, hread]
  refine congrArg _ (funext fun value => ?_)
  show _ = match (OperationTree.read ((fun s : Suspended => s.source.text) ∘
    suspend call position arithmetic) (tokens.filter fun t => !t.isBlank)).2 with
    | [] => pure value
    | t :: _ => fail position (.unexpectedInExpression (OperationTree.describe Value.text t))
  cases (OperationTree.read ((fun s : Suspended => s.source.text) ∘
    suspend call position arithmetic) (tokens.filter fun t => !t.isBlank)).2 with
  | nil => rfl
  | cons t rest => cases t <;> rfl

variable {tokens : List (ExprToken Value)}
  (h : ∀ t ∈ tokens, t.Holds fun v =>
    Agree I V (evaluate call position arithmetic v) (evaluate call' position arithmetic v))
include hI h

theorem runArithmetic_agrees :
    Agree I V (runArithmetic position (tokens.map (ExprToken.map (suspend call position arithmetic))))
      (runArithmetic position (tokens.map (ExprToken.map (suspend call' position arithmetic)))) := by
  rw [runArithmetic_suspend, runArithmetic_suspend]
  refine Agree.bind (runTree_agrees hI ?_) fun value hvalue => ?_
  · exact OperationTree.read_holds Value.text fun t ht => h t (List.mem_filter.mp ht).1
  · split
    · exact Agree.pure hvalue
    · exact Agree.fail position _

theorem runLiteral_agrees :
    Agree I V (runLiteral (tokens.map (ExprToken.map (suspend call position arithmetic))))
      (runLiteral (tokens.map (ExprToken.map (suspend call' position arithmetic)))) := by
  refine Agree.bind (Agree.mapM (P := ExprToken.Holds V) fun t ht => ?_) fun values hvalues => ?_
  · cases t with
    | operand v => exact Agree.bind (h _ ht) fun value hvalue => Agree.pure hvalue
    | operator op => exact Agree.pure trivial
    | blank => exact Agree.pure trivial
  · exact Agree.pure (hI.kind.ofTokens fun v hv => hvalues _ hv)

/-- Whether the expression is computed or written down is decided by its form, which is the same. -/
theorem runExpression_agrees (computed : Bool) :
    Agree I V
      (runExpression position computed
        (tokens.map (ExprToken.map (suspend call position arithmetic))))
      (runExpression position computed
        (tokens.map (ExprToken.map (suspend call' position arithmetic)))) := by
  unfold runExpression
  rw [spaceGroups_map, spaceGroups_map]
  refine Agree.bind (Agree.mapM (P := V) fun group hgroup => ?_) fun values hvalues => ?_
  · have hpieces := spaceGroups_holds h group hgroup
    cases computed with
    | true => exact runArithmetic_agrees hI hpieces
    | false => exact runLiteral_agrees hI hpieces
  · split
    · exact Agree.pure hI.kind.null
    · exact Agree.pure (hvalues _ List.mem_cons_self)
    · exact Agree.pure (hI.kind.list hvalues)

end

section
variable (hI : Keeping V I) {call call' : Caller} {position : Position} {arithmetic : Bool}

/-- The texts that embedded values are written as are joined. -/
theorem runText_agrees {parts : List (TextPart Value)}
    (h : ∀ v, .embedded v ∈ parts →
      Agree I V (evaluate call position true v) (evaluate call' position true v)) :
    Agree I (fun _ => True) (runText (suspendParts call position parts))
      (runText (suspendParts call' position parts)) := by
  induction parts with
  | nil => exact Agree.pure trivial
  | cons p rest ih =>
      have hrest := ih fun v hv => h v (List.mem_cons_of_mem p hv)
      cases p with
      | literal text => exact Agree.bind hrest fun _ _ => Agree.pure trivial
      | embedded v =>
          refine Agree.bind (h v List.mem_cons_self) fun value _ => ?_
          exact Agree.bind hrest fun _ _ => Agree.pure trivial

variable {arguments : List (Argument Value)}
  (h : ∀ a ∈ arguments,
    Agree I V (evaluate call position arithmetic a.value) (evaluate call' position arithmetic a.value))
include h

include hI in
/-- Splats are taken apart here: the entries are of the kind that the list is of. -/
theorem runArguments_agrees :
    Agree I (fun values => ∀ a ∈ values, V a.value)
      (runArguments (suspendArguments call position arithmetic arguments))
      (runArguments (suspendArguments call' position arithmetic arguments)) := by
  induction arguments with
  | nil => exact Agree.pure fun _ ha => absurd ha List.not_mem_nil
  | cons a rest ih =>
      refine Agree.bind (h a List.mem_cons_self) fun value hvalue => ?_
      refine Agree.bind (ih fun b hb => h b (List.mem_cons_of_mem a hb)) fun values hvalues => ?_
      refine Agree.pure fun b hb => ?_
      rcases List.mem_append.mp hb with hb | hb
      · split at hb
        · obtain ⟨item, hitem, rfl⟩ := List.mem_map.mp hb
          exact hI.kind.items hvalue item hitem
        · exact List.mem_singleton.mp hb ▸ hvalue
      · exact hvalues b hb

theorem runPlainArguments_agrees :
    Agree I (fun values => ∀ a ∈ values, V a.value)
      (runPlainArguments (suspendArguments call position arithmetic arguments))
      (runPlainArguments (suspendArguments call' position arithmetic arguments)) := by
  induction arguments with
  | nil => exact Agree.pure fun _ ha => absurd ha List.not_mem_nil
  | cons a rest ih =>
      refine Agree.bind (h a List.mem_cons_self) fun value hvalue => ?_
      refine Agree.bind (ih fun b hb => h b (List.mem_cons_of_mem a hb)) fun values hvalues => ?_
      exact Agree.pure (List.forall_mem_cons.mpr ⟨hvalue, hvalues⟩)

end

section
variable (hI : Keeping V I) {call call' : Caller} {position : Position}
include hI

/-- `if` answers one of its branches. -/
theorem chooseBranch_agrees {f f' : Value → Compile Value} {bound : BoundArguments Value}
    (hgiven : ∀ e ∈ bound.bindings, e.2.Holds fun v => Agree I V (f v) (f' v))
    (hdefault : ∀ e ∈ bound.bindings, e.2.DefaultIs V) :
    Agree I V (Builtin.chooseBranch (bound.map f)) (Builtin.chooseBranch (bound.map f')) := by
  have hcomputation : ∀ name, Agree I V (Builtin.computation (bound.map f) name)
      (Builtin.computation (bound.map f') name) := by
    intro name
    have hget : ∀ f : Value → Compile Value,
        (bound.map f).get? name = (bound.get? name).map (Binding.map f) :=
      fun f => Entries.get?_mapValues _ _ _
    unfold Builtin.computation
    rw [hget, hget]
    cases hfound : bound.get? name with
    | none => exact Agree.pure hI.kind.null
    | some binding =>
        have hbinding := Entries.mem_of_get? hfound
        cases binding with
        | given v => exact hgiven _ hbinding
        | default v => exact Agree.pure (hdefault _ hbinding)
  refine Agree.bind (hcomputation "condition") fun condition _ => ?_
  exact Agree.ite (hcomputation "if-true") (hcomputation "if-false")

variable {arguments : List (Argument Value)}
  (h : ∀ a ∈ arguments,
    Agree I V (evaluate call position true a.value) (evaluate call' position true a.value))
include h

/-- With `if`, one of two arguments is evaluated, and both callers choose the same. -/
theorem runBuiltin_agrees {b : Builtin} (hb : b.StaysWithin V) :
    Agree I V (runBuiltin position b (suspendArguments call position true arguments))
      (runBuiltin position b (suspendArguments call' position true arguments)) := by
  unfold runBuiltin
  split
  next f hf =>
    refine Agree.bind (runArguments_agrees hI h) fun values hvalues => ?_
    refine Agree.bind (Agree.ofFault position fun bound hbound =>
      Signature.bind_have hI.kind hb.defaults hvalues hbound) fun bound hbound => ?_
    exact Agree.ofFault position (Answers.mapError (hb.computed f hf bound hbound))
  next _ =>
    have hcomputations : ∀ call : Caller, (suspendArguments call position true arguments).map
        (fun a => (⟨a.name, a.value.run, a.splat⟩ : Argument (Compile Value))) =
          arguments.map (Argument.map (evaluate call position true)) := by
      intro call
      rw [suspendArguments_eq_map, List.map_map]
      rfl
    dsimp only
    rw [hcomputations, hcomputations, Signature.bind_map, Signature.bind_map]
    cases hbound : b.signature.bind b.name arguments with
    | error fault => exact Agree.fail position fault
    | ok bound =>
        have hdefault := Signature.bind_defaults hb.defaults hbound
        exact chooseBranch_agrees hI (Signature.bind_holds h hbound).1 hdefault

/-- A call runs the same function for both callers, as the context is the same. -/
theorem runCall_agrees (hcall : CallersAgree V I call call') (name : String)
    (hplain : ∀ a ∈ arguments,
      Agree I V (evaluate call position false a.value) (evaluate call' position false a.value)) :
    Agree I V
      (runCall call position name (suspendArguments call position true arguments)
        (suspendArguments call position false arguments))
      (runCall call' position name (suspendArguments call' position true arguments)
        (suspendArguments call' position false arguments)) := by
  refine Agree.bind hI.scopes fun s _ => ?_
  split
  next definition _ =>
    exact Agree.bind (runArguments_agrees hI h) fun values hvalues =>
      hcall definition position hvalues
  · split
    next b hb => exact runBuiltin_agrees hI h (Builtin.staysWithin_of_find? hI.kind hb)
    · refine Agree.bind (runPlainArguments_agrees hplain) fun values hvalues => ?_
      exact Agree.pure (hI.kind.call hvalues)

end

/-! ## Values -/

/-- **Evaluations agree** if their callers do, and they answer a value of the kind. -/
theorem evaluate_agrees (hI : Keeping V I) {call call' : Caller} (hcall : CallersAgree V I call call')
    (position : Position) (arithmetic : Bool) (v : Value) :
    Agree I V (evaluate call position arithmetic v) (evaluate call' position arithmetic v) := by
  -- what is inside may be evaluated in the other mode, so the induction is for both
  induction v using Value.induction generalizing arithmetic with
  | null => exact Agree.pure hI.kind.null
  | number n => exact Agree.pure (hI.kind.number n)
  | color c => exact Agree.pure (hI.kind.color c)
  | quoted text quote => exact Agree.pure (hI.kind.quoted text quote)
  | word text => exact Agree.pure (hI.kind.word text)
  | var name =>
      refine Agree.bind hI.scopes fun s hs => ?_
      split
      next value hvalue => exact Agree.pure (hs name value hvalue)
      · exact Agree.fail position _
  | call name arguments ih =>
      rw [evaluate, evaluate]
      exact runCall_agrees hI (fun a ha => ih a ha true) hcall name fun a ha => ih a ha false
  | list items separator ih =>
      rw [evaluate, evaluate, suspendItems_eq_map, suspendItems_eq_map]
      refine Agree.bind (Agree.mapM fun v hv => ih v hv arithmetic) fun values hvalues => ?_
      exact Agree.pure (hI.kind.list hvalues)
  | expression tokens ih =>
      rw [evaluate, evaluate, suspendTokens_eq_map, suspendTokens_eq_map]
      refine runExpression_agrees hI (fun t ht => ?_) _
      cases t with
      | operand v => exact ih v ht _
      | operator op => trivial
      | blank => trivial
  | paren inner ih =>
      rw [evaluate, evaluate]
      exact ih true
  | interpolated parts quote ih =>
      rw [evaluate, evaluate]
      refine Agree.bind (runText_agrees fun v hv => ih v hv true) fun text _ => ?_
      cases quote with
      | some q => exact Agree.pure (hI.kind.quoted text q)
      | none => exact Agree.pure (hI.kind.word text)

/-! ## Names, conditions and rounds -/

section
variable (hI : Keeping V I) {call call' : Caller} (hcall : CallersAgree V I call call')
include hI hcall

theorem compute_agrees (position : Position) (v : Value) :
    Agree I V (compute call position v) (compute call' position v) :=
  evaluate_agrees hI hcall position true v

theorem holds_agrees (position : Position) (condition : Value) :
    Agree I (fun _ => True) (holds call position condition) (holds call' position condition) :=
  Agree.bind (compute_agrees hI hcall position condition) fun _ _ => Agree.pure trivial

theorem interpolate_agrees (position : Position) (parts : Interpolation) :
    Agree I (fun _ => True) (interpolate call position parts) (interpolate call' position parts) :=
  runText_agrees fun v _ => evaluate_agrees hI hcall position true v

/-- A default is evaluated by the caller, in a context where the earlier parameters are bound
already. -/
theorem bindParameters_agrees (position : Position) {bound : BoundArguments Value}
    (hgiven : ∀ e ∈ bound.bindings, e.2.Holds V) (hrest : ∀ v ∈ bound.rest, V v) :
    Agree I (fun _ => True) (bindParameters call position bound)
      (bindParameters call' position bound) := by
  refine Agree.bind (Agree.forM fun e he => ?_) fun _ _ => ?_
  · obtain ⟨name, binding⟩ := e
    cases binding with
    | given v => exact hI.binds name (hgiven _ he)
    | default v =>
        exact Agree.bind (compute_agrees hI hcall position v) fun value hvalue =>
          hI.binds name hvalue
  · split
    · exact hI.binds _ (hI.kind.list hrest)
    · exact Agree.pure trivial

theorem assign_agrees (position : Position) (name : String) (value : Value)
    (ifUnset isGlobal : Bool) :
    Agree I (fun _ => True) (assign call position name value ifUnset isGlobal)
      (assign call' position name value ifUnset isGlobal) := by
  refine Agree.bind hI.scopes fun s _ => Agree.ite ?_ (Agree.pure trivial)
  refine Agree.bind (evaluate_agrees hI hcall position false value) fun v hv => ?_
  cases isGlobal with
  | true => exact Agree.modify fun c hc => hI.setGlobal name hc hv
  | false => exact Agree.modify fun c hc => hI.assign name hc hv

omit hcall in
theorem share_agrees : ∀ (names : List String) {values : List Value}, (∀ v ∈ values, V v) →
    Agree I (fun _ => True) (bindItem.share names values) (bindItem.share names values)
  | [], _, _ => Agree.pure trivial
  | name :: names, [], h =>
      Agree.bind (hI.binds name hI.kind.null) fun _ _ => share_agrees names h
  | name :: names, v :: _, h =>
      Agree.bind (hI.binds name (h v List.mem_cons_self)) fun _ _ =>
        share_agrees names fun w hw => h w (List.mem_cons_of_mem v hw)

omit hcall in
theorem bindItem_agrees (names : List String) {item : Value} (hitem : V item) :
    Agree I (fun _ => True) (bindItem names item) (bindItem names item) := by
  unfold bindItem
  split
  · exact hI.binds _ hitem
  · exact share_agrees hI _ (hI.kind.items hitem)

theorem eachItems_agrees (position : Position) (list : Value) :
    Agree I (fun items => ∀ v ∈ items, V v) (eachItems call position list)
      (eachItems call' position list) :=
  Agree.bind (evaluate_agrees hI hcall position false list) fun _ hvalue =>
    Agree.pure (hI.kind.items hvalue)

theorem loopBound_agrees (position : Position) (v : Value) :
    Agree I (fun _ => True) (loopBound call position v) (loopBound call' position v) := by
  refine Agree.bind (compute_agrees hI hcall position v) fun value _ => ?_
  split
  · exact Agree.ite (Agree.pure trivial) (Agree.fail position _)
  · exact Agree.fail position _

/-- The values between two bounds are numbers, which any kind of value has to allow. -/
theorem loopValues_agrees (position : Position) (start stop : Value) (isInclusive : Bool) :
    Agree I (fun values => ∀ v ∈ values, V v) (loopValues call position start stop isInclusive)
      (loopValues call' position start stop isInclusive) := by
  have hindex : ∀ n, Agree I (fun _ => True) (loopIndex position n) (loopIndex position n) :=
    fun n => Agree.ite (Agree.pure trivial) (Agree.fail position _)
  refine Agree.bind (loopBound_agrees hI hcall position start) fun first _ => ?_
  refine Agree.bind (loopBound_agrees hI hcall position stop) fun last _ => ?_
  refine Agree.bind (hindex first) fun i _ => Agree.bind (hindex last) fun j _ => ?_
  refine Agree.ite (Agree.throw _) (Agree.pure fun v hv => ?_)
  obtain ⟨k, -, rfl⟩ := List.mem_map.mp hv
  exact hI.kind.number _

theorem report_agrees (position : Position) (level : DiagnosticLevel) (message : Value) :
    Agree I (fun _ => True) (report call position level message)
      (report call' position level message) := by
  refine Agree.bind (compute_agrees hI hcall position message) fun text _ => ?_
  cases level with
  | warn => exact Agree.modify fun c hc => hI.warn position _ hc
  | debug => exact Agree.pure trivial
  | error => exact Agree.fail position _

end

/-! ## Functions -/

/-- What is returned, if anything is, is of a kind. -/
def Returns (V : Value → Prop) (returned : Option Value) : Prop := ∀ v, returned = some v → V v

theorem returns_none : Returns V none := fun _ h => nomatch h

theorem returns_some {v : Value} (h : V v) : Returns V (some v) := fun _ hw => Option.some.inj hw ▸ h

theorem untilReturned_agrees {run run' : Value → Compile (Option Value)} {items : List Value}
    (h : ∀ v ∈ items, Agree I (Returns V) (run v) (run' v)) :
    Agree I (Returns V) (untilReturned run items) (untilReturned run' items) := by
  induction items with
  | nil => exact Agree.pure returns_none
  | cons v rest ih =>
      refine Agree.bind (h v List.mem_cons_self) fun returned hreturned => ?_
      cases returned with
      | some b => exact Agree.pure hreturned
      | none => exact ih fun w hw => h w (List.mem_cons_of_mem v hw)

theorem whileNotReturned_agrees {condition condition' : Compile Bool}
    {run run' : Compile (Option Value)} (hc : Agree I (fun _ => True) condition condition')
    (hrun : Agree I (Returns V) run run') (rounds : Nat) :
    Agree I (Returns V) (whileNotReturned condition run rounds)
      (whileNotReturned condition' run' rounds) := by
  induction rounds with
  | zero =>
      exact Agree.bind hc fun again _ => Agree.ite (Agree.throw _) (Agree.pure returns_none)
  | succ rounds ih =>
      refine Agree.bind hc fun again _ => Agree.ite ?_ (Agree.pure returns_none)
      refine Agree.bind hrun fun returned hreturned => ?_
      cases returned with
      | some b => exact Agree.pure hreturned
      | none => exact ih

mutual

theorem runBody_agrees (hI : Keeping V I) {call call' : Caller}
    (hcall : CallersAgree V I call call') :
    ∀ nodes : List Node, Agree I (Returns V) (runBody call nodes) (runBody call' nodes)
  | [] => Agree.pure returns_none
  | node :: rest => by
      rw [runBody, runBody]
      refine Agree.bind (runNode_agrees hI hcall node) fun returned hreturned => ?_
      cases returned with
      | some value => exact Agree.pure hreturned
      | none => exact runBody_agrees hI hcall rest

theorem runNode_agrees (hI : Keeping V I) {call call' : Caller}
    (hcall : CallersAgree V I call call') :
    ∀ node : Node, Agree I (Returns V) (runNode call node) (runNode call' node)
  | .mk position statement => runStatement_agrees hI hcall position statement

/-- One case for each statement that a function may run. -/
theorem runStatement_agrees (hI : Keeping V I) {call call' : Caller}
    (hcall : CallersAgree V I call call') (position : Position) :
    ∀ statement : Statement, Agree I (Returns V) (runStatement call position statement)
      (runStatement call' position statement)
  | .returnValue value => by
      rw [runStatement, runStatement]
      exact Agree.bind (compute_agrees hI hcall position value) fun v hv =>
        Agree.pure (returns_some hv)
  | .assignment name value ifUnset isGlobal => by
      rw [runStatement, runStatement]
      exact Agree.bind (assign_agrees hI hcall position name value ifUnset isGlobal) fun _ _ =>
        Agree.pure returns_none
  | .diagnostic level message => by
      rw [runStatement, runStatement]
      exact Agree.bind (report_agrees hI hcall position level message) fun _ _ =>
        Agree.pure returns_none
  | .comment _ => Agree.pure returns_none
  | .branches alternatives => by
      rw [runStatement, runStatement]
      exact runBranches_agrees hI hcall position alternatives
  | .eachLoop names list body => by
      rw [runStatement, runStatement]
      refine Agree.bind (eachItems_agrees hI hcall position list) fun items hitems => ?_
      refine untilReturned_agrees fun item hitem => hI.inScope ?_
      exact Agree.bind (bindItem_agrees hI names (hitems item hitem)) fun _ _ =>
        runBody_agrees hI hcall body
  | .forLoop counter start stop isInclusive body => by
      rw [runStatement, runStatement]
      refine Agree.bind (loopValues_agrees hI hcall position start stop isInclusive)
        fun _ hvalues => ?_
      refine untilReturned_agrees fun i hi => hI.inScope ?_
      exact Agree.bind (hI.binds counter (hvalues i hi)) fun _ _ => runBody_agrees hI hcall body
  | .whileLoop condition body => by
      rw [runStatement, runStatement]
      exact whileNotReturned_agrees (holds_agrees hI hcall position condition)
        (hI.inScope (runBody_agrees hI hcall body)) maxRounds
  -- none of these has a place in a function
  | .rule .. | .declaration .. | .media .. | .extend .. | .mixin .. | .function ..
  | .includeMixin .. | .content | .importFile .. | .atRule .. => Agree.fail position _

theorem runBranches_agrees (hI : Keeping V I) {call call' : Caller}
    (hcall : CallersAgree V I call call') (position : Position) :
    ∀ alternatives : List (Option Value × List Node), Agree I (Returns V)
      (runBranches call position alternatives) (runBranches call' position alternatives)
  | [] => Agree.pure returns_none
  | (none, body) :: _ => by
      rw [runBranches, runBranches]
      exact hI.inScope (runBody_agrees hI hcall body)
  | (some condition, body) :: rest => by
      rw [runBranches, runBranches]
      refine Agree.bind (holds_agrees hI hcall position condition) fun taken _ => Agree.ite ?_ ?_
      · exact hI.inScope (runBody_agrees hI hcall body)
      · exact runBranches_agrees hI hcall position rest

end

/-! ## Calls of functions -/

/-- A call of a function whose own calls are made by a caller. -/
def callThrough (call : Caller) : Caller := fun definition arguments position => do
  let bound ← ofFault position (definition.signature.bind definition.name arguments)
  let returned ← calling definition.name position do
    inScope do
      bindParameters call position bound
      runBody call definition.body
  match returned with
  | some value => return value
  | none => fail position (.noReturn definition.name)

/-- Functions are called through themselves, one level deeper. -/
theorem invoke_succ (calls : Nat) : invoke (calls + 1) = callThrough (invoke calls) := rfl

/-- **Calls agree** if the calls in them do, one level deeper. -/
theorem callThrough_agrees {J : Context → Prop} (hJ : Keeping V J) {call call' : Caller}
    (hcall : CallersAgree V J call call')
    (henter : ∀ {name position c d}, I c → c.enterCall name position = .ok d → J d)
    (hexit : ∀ {d}, J d → I d.exitCall) :
    CallersAgree V I (callThrough call) (callThrough call') := by
  intro definition arguments position harguments
  refine Agree.bind (Agree.ofFault (Q := fun bound => (∀ e ∈ bound.bindings, e.2.Holds V) ∧
    ∀ v ∈ bound.rest, V v) position fun bound hbound =>
      Signature.bind_holds harguments hbound) fun bound hbound => ?_
  refine Agree.bind (Q := Returns V) ?_ fun returned hreturned => ?_
  · refine Agree.calling definition.name position (hJ.inScope ?_) henter hexit
    exact Agree.bind (bindParameters_agrees hJ hcall position hbound.1 hbound.2) fun _ _ =>
      runBody_agrees hJ hcall definition.body
  · cases returned with
    | some value => exact Agree.pure (hreturned value rfl)
    | none => exact Agree.fail position _

/-- Where no more calls may nest, a function is not run. -/
theorem invoke_zero_agrees : CallersAgree V I (invoke 0) (invoke 0) := fun _ _ position _ =>
  Agree.bind (Agree.bind (Agree.ofFault (Q := fun _ => True) position fun _ _ => trivial)
    fun _ _ => Agree.pure trivial) fun _ (_ : True) => Agree.fail position _

end Evaluation

end Scss
