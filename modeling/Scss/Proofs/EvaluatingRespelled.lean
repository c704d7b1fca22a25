import Scss.Compiler
import Scss.Proofs.Agreement
import Scss.Proofs.Echoing

/-!
# Evaluating values in another spelling

A value names variables and functions, and arguments. All of these are looked up by their keys, so that
two spellings of a value evaluate to the same where two spellings of the same things are known
(`evaluate_same`). The one place where a name could be seen is a call that is left to CSS, which keeps
the names of its arguments; in such a call they are spelled the same.

The operators of an expression are read before anything is evaluated, and the messages about what does
not fit quote the values. So the trees that are read agree but for these messages
(`OperationTree.read_rel`), and messages end the evaluation.

From values it goes on to the statements of functions, and by induction on the calls that may still nest
to the functions themselves (`invoke_echoes`).
-/

namespace Scss

/-! ## Expressions -/

/-- Two tokens of one kind, with related operands. -/
inductive ExprToken.Rel {α β : Type} (R : α → β → Prop) : ExprToken α → ExprToken β → Prop
  | operand {a : α} {b : β} (h : R a b) : Rel R (.operand a) (.operand b)
  | operator (op : Operator) : Rel R (.operator op) (.operator op)
  | blank : Rel R .blank .blank

namespace OperationTree

variable {α β : Type} {R : α → β → Prop}

/-- Two trees of one shape with related operands. The messages of faults may differ. -/
inductive Rel (R : α → β → Prop) : OperationTree α → OperationTree β → Prop
  | operand {a : α} {b : β} (h : R a b) : Rel R (.operand a) (.operand b)
  | fault (f f' : EvaluationFault) : Rel R (.fault f) (.fault f')
  | unary (op : Operator) {t : OperationTree α} {t' : OperationTree β} (h : Rel R t t') :
      Rel R (.unary op t) (.unary op t')
  | binary (op : Operator) {t u : OperationTree α} {t' u' : OperationTree β} (h : Rel R t t')
      (h' : Rel R u u') : Rel R (.binary op t u) (.binary op t' u')

variable (text : α → String) (text' : β → String)

/-- Signs and their operand are read from the shape of the tokens. What is left over is related too. -/
theorem readUnary_rel {tokens : List (ExprToken α)} {tokens' : List (ExprToken β)}
    (h : List.Forall₂ (ExprToken.Rel R) tokens tokens') :
    Rel R (readUnary text tokens).1 (readUnary text' tokens').1 ∧
      List.Forall₂ (ExprToken.Rel R) (readUnary text tokens).2 (readUnary text' tokens').2 := by
  induction h with
  | nil => exact ⟨.fault _ _, .nil⟩
  | cons ht hrest ih =>
      cases ht with
      | operand h => exact ⟨.operand h, hrest⟩
      | blank => exact ⟨.fault _ _, .cons .blank hrest⟩
      | operator op =>
          rw [readUnary, readUnary]
          split
          · exact ⟨.unary op ih.1, ih.2⟩
          · exact ⟨.fault _ _, .cons (.operator op) hrest⟩

/-- How far a tree is extended is decided by the precedence of operators, which both have. -/
theorem extend_rel (fuel : Nat) : ∀ {least : Nat} {left : OperationTree α} {left' : OperationTree β}
    {tokens : List (ExprToken α)} {tokens' : List (ExprToken β)}, Rel R left left' →
      List.Forall₂ (ExprToken.Rel R) tokens tokens' →
      Rel R (extend text least fuel left tokens).1 (extend text' least fuel left' tokens').1 ∧
        List.Forall₂ (ExprToken.Rel R) (extend text least fuel left tokens).2
          (extend text' least fuel left' tokens').2 := by
  induction fuel with
  | zero => intro least left left' tokens tokens' hleft h; simp only [extend]; exact ⟨hleft, h⟩
  | succ fuel ih =>
      intro least left left' tokens tokens' hleft h
      cases h with
      | nil => exact ⟨hleft, .nil⟩
      | cons ht hrest =>
          cases ht with
          | operand h => exact ⟨hleft, .cons (.operand h) hrest⟩
          | blank => exact ⟨hleft, .cons .blank hrest⟩
          | operator op =>
              rw [extend, extend]
              split
              · exact ⟨hleft, .cons (.operator op) hrest⟩
              · obtain ⟨hnext, hbehind⟩ := readUnary_rel text text' hrest
                obtain ⟨hright, hlater⟩ := @ih (op.precedence + 1) _ _ _ _ hnext hbehind
                exact ih (.binary op hleft hright) hlater

/-- The trees that are read have one shape, and so have the tokens that are left behind them. -/
theorem read_rel {tokens : List (ExprToken α)} {tokens' : List (ExprToken β)}
    (h : List.Forall₂ (ExprToken.Rel R) tokens tokens') :
    Rel R (read text tokens).1 (read text' tokens').1 ∧
      List.Forall₂ (ExprToken.Rel R) (read text tokens).2 (read text' tokens').2 := by
  obtain ⟨hleft, hrest⟩ := readUnary_rel text text' h
  rw [read, read, h.length_eq]
  exact extend_rel text text' _ hleft hrest

end OperationTree

namespace Evaluation

open Compile

variable {functions : List String}

/-- The second computation does what the first does, in the other spelling of what is known. -/
abbrev Same {α : Type} (functions : List String) (m m' : Compile α) : Prop :=
  Echoes (Context.Matches functions) Eq m m'

/-- Two suspended evaluations that do the same. -/
def Suspended.Same (functions : List String) (s s' : Suspended) : Prop :=
  Evaluation.Same functions s.run s'.run

section
variable {position : Position}

/-- Operands are computed from left to right in both trees; where one holds a fault, so does the
other. -/
theorem runTree_same {t t' : OperationTree Suspended} (h : t.Rel (Suspended.Same functions) t') :
    Same functions (runTree position t) (runTree position t') := by
  induction h with
  | operand h => exact h
  | fault f f' => exact Echoes.fail
  | unary op _ ih => exact Echoes.step ih fun v => Echoes.pure rfl
  | binary op _ _ ihl ihr =>
      exact Echoes.step ihl fun l => Echoes.step ihr fun r => Echoes.ofFault_refl position _

variable {group group' : List (ExprToken Suspended)}
  (h : List.Forall₂ (ExprToken.Rel (Suspended.Same functions)) group group')
include h

/-- What is kept as it is written holds the same operands in the end. -/
theorem runLiteral_same : Same functions (runLiteral group) (runLiteral group') := by
  refine Echoes.bind (P := Eq) (Echoes.mapM (P := Eq) h fun t t' ht => ?_) fun ts ts' hts => ?_
  · cases ht with
    | operand h => exact Echoes.step h fun v => Echoes.pure rfl
    | operator op => exact Echoes.pure rfl
    | blank => exact Echoes.pure rfl
  · rw [List.forall₂_eq_eq_eq] at hts
    exact Echoes.pure (congrArg Value.ofTokens hts)

/-- A group is computed alike, and fails alike where tokens are left over. -/
theorem runArithmetic_same :
    Same functions (runArithmetic position group) (runArithmetic position group') := by
  have hfilter : List.Forall₂ (ExprToken.Rel (Suspended.Same functions))
      (group.filter fun t => !t.isBlank) (group'.filter fun t => !t.isBlank) :=
    List.rel_filter (fun t t' ht => by cases ht <;> rfl) h
  have hread := OperationTree.read_rel (fun s : Suspended => s.source.text)
    (fun s : Suspended => s.source.text) hfilter
  unfold runArithmetic
  dsimp only
  generalize OperationTree.read _ (group.filter _) = r at hread ⊢
  generalize OperationTree.read _ (group'.filter _) = r' at hread ⊢
  obtain ⟨tree, rest⟩ := r
  obtain ⟨tree', rest'⟩ := r'
  obtain ⟨htree, hrest⟩ := hread
  refine Echoes.step (runTree_same htree) fun value => ?_
  cases hrest with
  | nil => exact Echoes.pure rfl
  | cons _ _ => exact Echoes.fail

omit h in
/-- Groups are made by the places where tokens stand. -/
theorem runExpression_same {α : Type} {tokens : List (ExprToken α)} {f f' : α → Suspended}
    (h : ∀ a, .operand a ∈ tokens → Suspended.Same functions (f a) (f' a)) (arithmetic : Bool) :
    Same functions (runExpression position arithmetic (tokens.map (ExprToken.map f)))
      (runExpression position arithmetic (tokens.map (ExprToken.map f'))) := by
  have hgroups : List.Forall₂ (List.Forall₂ (ExprToken.Rel (Suspended.Same functions)))
      (spaceGroups (tokens.map (ExprToken.map f))) (spaceGroups (tokens.map (ExprToken.map f'))) := by
    rw [spaceGroups_map, spaceGroups_map, List.forall₂_map_left_iff, List.forall₂_map_right_iff,
      List.forall₂_same]
    intro group hgroup
    rw [List.forall₂_map_left_iff, List.forall₂_map_right_iff, List.forall₂_same]
    intro t ht
    have hholds := spaceGroups_holds (P := fun a => Suspended.Same functions (f a) (f' a))
      (fun t ht => by cases t with | operand a => exact h a ht | _ => trivial) group hgroup t ht
    cases t with
    | operand a => exact .operand hholds
    | operator op => exact .operator op
    | blank => exact .blank
  unfold runExpression
  refine Echoes.bind (Echoes.mapM (P := Eq) hgroups fun group group' hgroup => ?_)
    fun values values' hvalues => ?_
  · cases arithmetic with
    | true => exact runArithmetic_same hgroup
    | false => exact runLiteral_same hgroup
  · rw [List.forall₂_eq_eq_eq] at hvalues
    subst hvalues
    split <;> exact Echoes.pure rfl

end

/-! ## Texts and arguments -/

section
variable {position : Position}

/-- A text is put together of the same literals and the same values. -/
theorem runText_same {α : Type} {parts : List (TextPart α)} {f f' : α → Suspended}
    (h : ∀ a, .embedded a ∈ parts → Suspended.Same functions (f a) (f' a)) :
    Same functions (runText (parts.map (TextPart.map f))) (runText (parts.map (TextPart.map f'))) := by
  induction parts with
  | nil => exact Echoes.pure rfl
  | cons p rest ih =>
      have hrest := ih fun a ha => h a (List.mem_cons_of_mem p ha)
      cases p with
      | literal text => exact Echoes.step hrest fun _ => Echoes.pure rfl
      | embedded a =>
          refine Echoes.step (h a List.mem_cons_self) fun value => ?_
          exact Echoes.step hrest fun _ => Echoes.pure rfl

variable {N : String → String → Prop} {arguments arguments' : List (Argument Suspended)}
  (h : List.Forall₂ (Argument.Rel N (Suspended.Same functions)) arguments arguments')
include h

/-- Arguments get the same values and keep related names. What a splat stands for has no names. -/
theorem runArguments_same : Echoes (Context.Matches functions) (List.Forall₂ (Argument.Rel N Eq))
    (runArguments arguments) (runArguments arguments') := by
  induction h with
  | nil => exact Echoes.pure .nil
  | @cons a a' rest rest' ha _ ih =>
      obtain ⟨name, s, splat⟩ := a
      obtain ⟨name', s', splat'⟩ := a'
      obtain ⟨hname, hvalue, hsplat⟩ := ha
      obtain rfl : splat = splat' := hsplat
      refine Echoes.step hvalue fun value => ?_
      refine Echoes.bind ih fun values values' hvalues => Echoes.pure (List.rel_append ?_ hvalues)
      split
      · exact List.forall₂_map_left_iff.mpr (List.forall₂_map_right_iff.mpr
          (List.forall₂_same.mpr fun v _ => ⟨.none, rfl, rfl⟩))
      · exact .cons ⟨hname, rfl, rfl⟩ .nil

theorem runPlainArguments_same : Echoes (Context.Matches functions)
    (List.Forall₂ (Argument.Rel N Eq)) (runPlainArguments arguments)
      (runPlainArguments arguments') := by
  induction h with
  | nil => exact Echoes.pure .nil
  | @cons a a' rest rest' ha _ ih =>
      refine Echoes.step ha.value fun value => ?_
      exact Echoes.bind ih fun values values' hvalues =>
        Echoes.pure (.cons ⟨ha.name, rfl, ha.splat⟩ hvalues)

end

/-! ## Calls -/

/-- What a function of the stylesheet does in two spellings. One without a body does nothing. -/
structure CallerEchoes (functions : List String) (call : Caller) : Prop where
  defined : ∀ {d d' : Definition}, d.Matches functions d' →
    ∀ {arguments arguments' : List (Argument Value)},
      List.Forall₂ (Argument.Rel SameName Eq) arguments arguments' → ∀ position,
        Same functions (call d arguments position) (call d' arguments' position)
  bodiless : ∀ {d : Definition}, d.body = [] → ∀ arguments position,
    Fails (call d arguments position)

section
variable {position : Position}

/-- A built-in function finds its arguments by the keys of their names. -/
theorem runBuiltin_same (b : Builtin) {arguments arguments' : List (Argument Suspended)}
    (h : List.Forall₂ (Argument.Rel SameName (Suspended.Same functions)) arguments arguments') :
    Same functions (runBuiltin position b arguments) (runBuiltin position b arguments') := by
  have hsignature : b.signature.Rel Eq Eq b.signature :=
    ⟨List.forall₂_same.mpr fun _ _ => ⟨rfl, optionRel_refl (fun _ => rfl) _⟩,
      optionRel_refl SameName.refl _⟩
  unfold runBuiltin
  split
  next f _ =>
    -- what is computed at once is given values, and these are the same
    refine Echoes.bind (runArguments_same h) fun values values' hvalues => ?_
    refine Echoes.step (Echoes.ofFault fun bound hbound => ?_) fun bound =>
      Echoes.ofFault_refl position _
    obtain ⟨bound', hbound', hrel⟩ := Signature.bind_rel biUnique_eq (fun h => h ▸ SameName.refl _)
      hsignature hvalues hbound
    exact ⟨bound', hbound', hrel.eq ((Signature.restName_of_bind hbound).trans
      (Signature.restName_of_bind hbound').symm)⟩
  · -- what chooses a branch is given computations, and runs two of them
    have hcomputations : List.Forall₂ (Argument.Rel SameName (Same functions))
        (arguments.map fun a => (⟨a.name, a.value.run, a.splat⟩ : Argument (Compile Value)))
        (arguments'.map fun a => ⟨a.name, a.value.run, a.splat⟩) :=
      List.forall₂_map_left_iff.mpr (List.forall₂_map_right_iff.mpr
        (h.imp fun a a' ha => ⟨ha.name, ha.value, ha.splat⟩))
    refine Echoes.bind (Echoes.ofFault fun bound hbound => Signature.bind_rel biUnique_eq
      (fun h => h ▸ SameName.refl _) hsignature hcomputations hbound) fun bound bound' hbound => ?_
    have hcomputation : ∀ name, Same functions (Builtin.computation bound name)
        (Builtin.computation bound' name) := by
      intro name
      have hfound := Entries.Rel.get? biUnique_eq (k := name) rfl hbound.bindings
      unfold Builtin.computation BoundArguments.get?
      generalize bound.bindings.get? name = o at hfound ⊢
      generalize bound'.bindings.get? name = o' at hfound ⊢
      cases hfound with
      | none => exact Echoes.pure rfl
      | some hbinding =>
          cases hbinding with
          | given h => exact h
          | default h => exact Echoes.pure h
    refine Echoes.step (hcomputation "condition") fun condition => ?_
    exact Echoes.ite (hcomputation "if-true") (hcomputation "if-false")

/-- A call runs two spellings of one function, or both calls are left to CSS. Then the names of the
arguments are spelled the same, as the function is none of those whose arguments are always bound. -/
theorem runCall_same {call : Caller} (hcall : CallerEchoes functions call) {callee : String}
    {computed computed' plain plain' : List (Argument Suspended)}
    (hcomputed : List.Forall₂ (Argument.Rel (SameArgumentName functions callee)
      (Suspended.Same functions)) computed computed')
    (hplain : List.Forall₂ (Argument.Rel (SameArgumentName functions callee)
      (Suspended.Same functions)) plain plain') :
    Same functions (runCall call position callee computed plain)
      (runCall call position callee computed' plain') := by
  have hnamed : List.Forall₂ (Argument.Rel SameName (Suspended.Same functions)) computed computed' :=
    hcomputed.imp fun a a' h =>
      ⟨optionRel_mono (fun _ _ => SameArgumentName.sameName) h.name, h.value, h.splat⟩
  refine Echoes.readingScopes fun c c' hc => ?_
  have hfound := hc.scopes.function? callee
  have hunbound : c.scopes.function? callee = none → Builtin.find? callee = none →
      ¬ BindsArguments functions callee := by
    rintro hnone hbuiltin (hsome | ⟨f, hf, hname⟩)
    · rw [hbuiltin] at hsome
      cases hsome
    · exact hc.scopes.of_function?_eq_none hnone f hf hname
  generalize c.scopes.function? callee = o at hfound hunbound
  generalize c'.scopes.function? callee = o' at hfound
  obtain ⟨d, rfl, hd⟩ | hfound := hfound
  · -- a call that is guarded fails, and then there is nothing to show
    exact Echoes.of_fails (Fails.bind fun arguments => hcall.bodiless hd arguments position)
  · cases hfound with
    | some hd =>
        exact Echoes.bind (runArguments_same hnamed) fun _ _ h => hcall.defined hd h position
    | none =>
        dsimp only
        cases hbuiltin : Builtin.find? callee with
        | some b => exact runBuiltin_same b hnamed
        | none =>
            -- the call is left to CSS: the names of its arguments are written out
            have hsame : ∀ a a', Argument.Rel (SameArgumentName functions callee)
                (Suspended.Same functions) a a' → Argument.Rel Eq (Suspended.Same functions) a a' :=
              fun a a' h => ⟨optionRel_mono (fun _ _ hname => hname.resolve_right fun hname =>
                hunbound rfl hbuiltin hname.1) h.name, h.value, h.splat⟩
            refine Echoes.bind (runPlainArguments_same (hplain.imp hsame)) fun values values' h => ?_
            exact Echoes.pure (congrArg _ (Argument.eq_of_rel h))

end

/-! ## Values -/

theorem suspendParts_eq_map (call : Caller) (position : Position) (parts : List (TextPart Value)) :
    suspendParts call position parts = parts.map (TextPart.map (suspend call position true)) := by
  induction parts with
  | nil => rfl
  | cons p rest ih => cases p <;> rw [suspendParts, ih] <;> rfl

theorem suspendArguments_same {call : Caller} {position : Position} {arithmetic : Bool}
    {N : String → String → Prop} {arguments arguments' : List (Argument Value)}
    (h : List.Forall₂ (Argument.Rel N fun v w => Same functions (evaluate call position arithmetic v)
      (evaluate call position arithmetic w)) arguments arguments') :
    List.Forall₂ (Argument.Rel N (Suspended.Same functions))
      (suspendArguments call position arithmetic arguments)
      (suspendArguments call position arithmetic arguments') := by
  rw [suspendArguments_eq_map, suspendArguments_eq_map, List.forall₂_map_left_iff,
    List.forall₂_map_right_iff]
  exact h.imp fun a a' ha => ⟨ha.name, ha.value, ha.splat⟩

section
variable {call : Caller} (hcall : CallerEchoes functions call)
include hcall

/-- **Two spellings of a value evaluate to the same.** -/
theorem evaluate_same {v w : Value} (h : v.Respelled functions w) (position : Position)
    (arithmetic : Bool) : Same functions (evaluate call position arithmetic v)
      (evaluate call position arithmetic w) := by
  induction h generalizing arithmetic with
  | null | number _ | color _ | quoted _ _ | word _ => exact Echoes.pure rfl
  | var hname =>
      refine Echoes.readingScopes fun c c' hc => ?_
      rw [hc.scopes.valueOf?_eq hname]
      split
      · exact Echoes.pure rfl
      · exact Echoes.fail
  | call arguments names _ splats ih =>
      -- whether the call is computed or written out is not known yet, so both modes are needed
      have harguments : ∀ arithmetic, List.Forall₂ (Argument.Rel (SameArgumentName functions _)
          fun v w => Same functions (evaluate call position arithmetic v)
            (evaluate call position arithmetic w))
          (arguments.map Prod.fst) (arguments.map Prod.snd) := fun arithmetic =>
        List.forall₂_map_left_iff.mpr (List.forall₂_map_right_iff.mpr (List.forall₂_same.mpr
          fun p hp => ⟨names p hp, ih p hp arithmetic, splats p hp⟩))
      rw [evaluate, evaluate]
      exact runCall_same hcall (suspendArguments_same (harguments true))
        (suspendArguments_same (harguments false))
  | list items separator _ ih =>
      have hitems : List.Forall₂ (Suspended.Same functions)
          ((items.map Prod.fst).map (suspend call position arithmetic))
          ((items.map Prod.snd).map (suspend call position arithmetic)) := by
        simp only [List.forall₂_map_left_iff, List.forall₂_map_right_iff, List.forall₂_same]
        exact fun p hp => ih p hp arithmetic
      rw [evaluate, evaluate, suspendItems_eq_map, suspendItems_eq_map]
      refine Echoes.bind (Echoes.mapM (P := Eq) hitems fun _ _ h => h) fun values values' h => ?_
      rw [List.forall₂_eq_eq_eq] at h
      exact Echoes.pure (congrArg (Value.list · separator) h)
  | expression tokens h ih =>
      have harithmetic := (Value.Respelled.expression tokens h).isArithmetic_eq
      rw [evaluate, evaluate, suspendTokens_eq_map, suspendTokens_eq_map, harithmetic]
      generalize (arithmetic || (Value.expression _).isArithmetic) = a
      have hoperand : ∀ p, .operand p ∈ tokens → Suspended.Same functions
          (suspend call position a p.1) (suspend call position a p.2) := fun p hp => ih p hp a
      simp only [List.map_map, Function.comp_def, ExprToken.map_map]
      exact runExpression_same hoperand a
  | paren _ ih =>
      rw [evaluate, evaluate]
      exact ih true
  | interpolated parts quote _ ih =>
      rw [evaluate, evaluate, suspendParts_eq_map, suspendParts_eq_map]
      simp only [List.map_map, Function.comp_def, TextPart.map_map]
      refine Echoes.step (runText_same fun p hp => ih p hp true) fun text => ?_
      split <;> exact Echoes.pure rfl

theorem compute_same {v w : Value} (h : v.Respelled functions w) (position : Position) :
    Same functions (compute call position v) (compute call position w) :=
  evaluate_same hcall h position true

theorem holds_same {v w : Value} (h : v.Respelled functions w) (position : Position) :
    Same functions (holds call position v) (holds call position w) :=
  Echoes.step (compute_same hcall h position) fun _ => Echoes.pure rfl

theorem interpolate_same {i j : Interpolation} (h : i.Respelled functions j) (position : Position) :
    Same functions (interpolate call position i) (interpolate call position j) := by
  rw [interpolate, interpolate, suspendParts_eq_map, suspendParts_eq_map]
  cases h with
  | interpolated parts _ h =>
      simp only [List.map_map, Function.comp_def, TextPart.map_map]
      exact runText_same fun p hp => evaluate_same hcall (h p hp) position true

/-- Arguments that a mixin is included with. -/
theorem passed_same {N : String → String → Prop} {arguments arguments' : List (Argument Value)}
    (h : List.Forall₂ (Argument.Rel N (Value.Respelled functions)) arguments arguments')
    (position : Position) : Echoes (Context.Matches functions) (List.Forall₂ (Argument.Rel N Eq))
      (runArguments (suspendArguments call position true arguments))
      (runArguments (suspendArguments call position true arguments')) :=
  runArguments_same (suspendArguments_same (h.imp fun _ _ ha =>
    ⟨ha.name, evaluate_same hcall ha.value position true, ha.splat⟩))

end

/-! ## Names, conditions and rounds -/

theorem define_same {x y : String} (hname : SameName x y) (v : Value) :
    Same functions (modifyScopes (·.define x v)) (modifyScopes (·.define y v)) :=
  Echoes.modify fun hc => hc.withScopes (hc.scopes.define hname v)

theorem inScope_same {α : Type} {m m' : Compile α} (h : Same functions m m') :
    Same functions (inScope m) (inScope m') :=
  Echoes.within entered entered (fun _ => left) (fun _ => left) (outcome_inScope m)
    (outcome_inScope m') h (fun hc => hc.entered) fun _ hd => hd.left

theorem warn_same (position : Position) (message : String) :
    Same functions (warn position message) (warn position message) :=
  Echoes.modify fun hc => hc.warn position message

section
variable {call : Caller} (hcall : CallerEchoes functions call)

include hcall in
/-- Parameters are bound to the same values. A default sees the parameters in front of it, which are
bound in both by then. -/
theorem bindParameters_same {N : String → String → Prop} (hsame : ∀ {x y}, N x y → SameName x y)
    {bound bound' : BoundArguments Value} (h : bound.Rel N Eq (Value.Respelled functions) bound')
    (position : Position) :
    Same functions (bindParameters call position bound) (bindParameters call position bound') := by
  refine Echoes.step (Echoes.forM h.bindings fun e e' he => ?_) fun _ => ?_
  · obtain ⟨name, binding⟩ := e
    obtain ⟨name', binding'⟩ := e'
    obtain ⟨hname, hbinding⟩ := he
    cases hbinding with
    | given hv => exact hv ▸ define_same (hsame hname) _
    | default hv =>
        exact Echoes.step (compute_same hcall hv position) fun v => define_same (hsame hname) v
  · obtain ⟨bindings, restName, rest⟩ := bound
    obtain ⟨bindings', restName', rest'⟩ := bound'
    obtain ⟨-, hrest, hvalues⟩ := h
    rw [List.forall₂_eq_eq_eq] at hvalues
    obtain rfl : rest = rest' := hvalues
    cases hrest with
    | none => exact Echoes.pure rfl
    | some hname => exact define_same hname _

include hcall in
/-- Whether a variable is to be left alone is decided by its value, and that is found by its key. -/
theorem assign_same {x y : String} (hname : SameName x y) {v w : Value}
    (h : v.Respelled functions w) (position : Position) (ifUnset isGlobal : Bool) :
    Same functions (assign call position x v ifUnset isGlobal)
      (assign call position y w ifUnset isGlobal) := by
  refine Echoes.readingScopes fun c c' hc => ?_
  rw [hc.scopes.valueOf?_eq hname]
  refine Echoes.ite (Echoes.step (evaluate_same hcall h position false) fun value => ?_)
    (Echoes.pure rfl)
  cases isGlobal with
  | true => exact Echoes.modify fun hc => hc.withScopes (hc.scopes.setGlobal hname value)
  | false => exact Echoes.modify fun hc => hc.withScopes (hc.scopes.assign hname value)

/-- Variables share the items of a list in order, however they are spelled. -/
theorem share_same {names names' : List String} (hnames : List.Forall₂ SameName names names')
    (values : List Value) :
    Same functions (bindItem.share names values) (bindItem.share names' values) := by
  induction hnames generalizing values with
  | nil => cases values <;> exact Echoes.pure rfl
  | cons hname _ ih =>
      cases values with
      | nil => exact Echoes.step (define_same hname .null) fun _ => ih []
      | cons v values => exact Echoes.step (define_same hname v) fun _ => ih values

theorem bindItem_same {names names' : List String} (hnames : List.Forall₂ SameName names names')
    (item : Value) : Same functions (bindItem names item) (bindItem names' item) := by
  have hshare := @share_same functions _ _ hnames item.items
  cases hnames with
  | nil => exact hshare
  | cons hname hrest =>
      cases hrest with
      | nil => exact define_same hname item
      | cons _ _ => exact hshare

include hcall

theorem eachItems_same {v w : Value} (h : v.Respelled functions w) (position : Position) :
    Same functions (eachItems call position v) (eachItems call position w) :=
  Echoes.step (evaluate_same hcall h position false) fun _ => Echoes.pure rfl

theorem loopBound_same {v w : Value} (h : v.Respelled functions w) (position : Position) :
    Same functions (loopBound call position v) (loopBound call position w) := by
  refine Echoes.step (compute_same hcall h position) fun value => ?_
  split
  · exact Echoes.ite (Echoes.pure rfl) Echoes.fail
  · exact Echoes.fail

theorem loopValues_same {start start' stop stop' : Value} (hstart : start.Respelled functions start')
    (hstop : stop.Respelled functions stop') (position : Position) (isInclusive : Bool) :
    Same functions (loopValues call position start stop isInclusive)
      (loopValues call position start' stop' isInclusive) := by
  have hindex : ∀ n, Same functions (loopIndex position n) (loopIndex position n) :=
    fun n => Echoes.ite (Echoes.pure rfl) Echoes.fail
  refine Echoes.step (loopBound_same hcall hstart position) fun first => ?_
  refine Echoes.step (loopBound_same hcall hstop position) fun last => ?_
  refine Echoes.step (hindex first) fun i => Echoes.step (hindex last) fun j => ?_
  exact Echoes.ite Echoes.throw (Echoes.pure rfl)

theorem report_same {v w : Value} (h : v.Respelled functions w) (position : Position)
    (level : DiagnosticLevel) :
    Same functions (report call position level v) (report call position level w) := by
  refine Echoes.step (compute_same hcall h position) fun text => ?_
  cases level with
  | warn => exact warn_same position _
  | debug => exact Echoes.pure rfl
  | error => exact Echoes.fail

end

/-! ## Functions -/

/-- The rounds are run up to the same one, the first that returns something. -/
theorem untilReturned_same {α β : Type} {run run' : α → Compile (Option β)}
    (h : ∀ a, Same functions (run a) (run' a)) (items : List α) :
    Same functions (untilReturned run items) (untilReturned run' items) := by
  induction items with
  | nil => exact Echoes.pure rfl
  | cons a rest ih =>
      refine Echoes.step (h a) fun returned => ?_
      cases returned with
      | some b => exact Echoes.pure rfl
      | none => exact ih

theorem whileNotReturned_same {β : Type} {condition condition' : Compile Bool}
    {run run' : Compile (Option β)} (hc : Same functions condition condition')
    (h : Same functions run run') (rounds : Nat) :
    Same functions (whileNotReturned condition run rounds)
      (whileNotReturned condition' run' rounds) := by
  induction rounds with
  | zero => exact Echoes.step hc fun again => Echoes.ite Echoes.throw (Echoes.pure rfl)
  | succ rounds ih =>
      refine Echoes.step hc fun again => Echoes.ite (Echoes.step h fun returned => ?_)
        (Echoes.pure rfl)
      cases returned with
      | some b => exact Echoes.pure rfl
      | none => exact ih

section
variable {call : Caller} (hcall : CallerEchoes functions call)

theorem runBody_of_nodes {nodes nodes' : List Node}
    (h : List.Forall₂ (fun n n' => Same functions (runNode call n) (runNode call n')) nodes nodes') :
    Same functions (runBody call nodes) (runBody call nodes') := by
  induction h with
  | nil => exact Echoes.pure rfl
  | cons hn _ ih =>
      rw [runBody, runBody]
      refine Echoes.step hn fun returned => ?_
      cases returned with
      | some b => exact Echoes.pure rfl
      | none => exact ih

include hcall

/-- A condition holds in both or in neither, so that both run the same branch. -/
theorem runBranches_of_bodies {position : Position}
    {alternatives alternatives' : List (Option Value × List Node)}
    (h : List.Forall₂ (fun a a' => Option.Rel (Value.Respelled functions) a.1 a'.1) alternatives
      alternatives')
    (hbodies : List.Forall₂ (fun body body' => Same functions (runBody call body)
      (runBody call body')) (alternatives.map Prod.snd) (alternatives'.map Prod.snd)) :
    Same functions (runBranches call position alternatives)
      (runBranches call position alternatives') := by
  induction h with
  | nil => exact Echoes.pure rfl
  | @cons a a' rest rest' ha _ ih =>
      obtain ⟨condition, body⟩ := a
      obtain ⟨condition', body'⟩ := a'
      obtain ⟨hbody, hrest⟩ := List.forall₂_cons.mp hbodies
      cases ha with
      | none =>
          rw [runBranches, runBranches]
          exact inScope_same hbody
      | some hv =>
          rw [runBranches, runBranches]
          refine Echoes.step (holds_same hcall hv position) fun taken => ?_
          exact Echoes.ite (inScope_same hbody) (ih hrest)

/-- **Two spellings of a statement in a function do the same**, if its bodies do. -/
theorem runNode_same {n n' : Node} (h : Node.Paired (Statement.Matches functions) n n') :
    Same functions (runNode call n) (runNode call n') := by
  refine h.induction (P := fun n n' => Same functions (runNode call n) (runNode call n'))
    fun position s s' own inside => ?_
  have hbodies : List.Forall₂ (fun body body' => Same functions (runBody call body)
      (runBody call body')) s.bodies s'.bodies :=
    inside.imp fun body body' h => runBody_of_nodes (h.imp fun n n' h => h.2)
  clear inside h
  rw [runNode, runNode]
  cases own.1 with
  | returnValue hv =>
      rw [runStatement, runStatement]
      exact Echoes.step (compute_same hcall hv position) fun _ => Echoes.pure rfl
  | assignment ifUnset isGlobal hname hv =>
      rw [runStatement, runStatement]
      exact Echoes.step (assign_same hcall hname hv position _ _) fun _ => Echoes.pure rfl
  | diagnostic level hv =>
      rw [runStatement, runStatement]
      exact Echoes.step (report_same hcall hv position _) fun _ => Echoes.pure rfl
  | comment text => exact Echoes.pure rfl
  | branches h =>
      rw [runStatement, runStatement]
      exact runBranches_of_bodies hcall h hbodies
  | eachLoop hnames hlist body body' =>
      rw [runStatement, runStatement]
      refine Echoes.step (eachItems_same hcall hlist position) fun items => ?_
      refine untilReturned_same (fun item => inScope_same ?_) items
      exact Echoes.step (bindItem_same hnames item) fun _ => (List.forall₂_cons.mp hbodies).1
  | forLoop isInclusive hcounter hstart hstop body body' =>
      rw [runStatement, runStatement]
      refine Echoes.step (loopValues_same hcall hstart hstop position _) fun values => ?_
      refine untilReturned_same (fun i => inScope_same ?_) values
      exact Echoes.step (define_same hcounter i) fun _ => (List.forall₂_cons.mp hbodies).1
  | whileLoop hcondition body body' =>
      rw [runStatement, runStatement]
      exact whileNotReturned_same (holds_same hcall hcondition position)
        (inScope_same (List.forall₂_cons.mp hbodies).1) maxRounds
  -- these have no place in the body of a function, in either spelling
  | rule _ _ _ | declaration _ _ _ | media _ _ _ | extend _ _ | mixin _ _ _ _ | function _ _ _ _
  | includeMixin _ _ _ | content | importFile _ _ | atRule _ _ _ => exact Echoes.fail

theorem runBody_same {nodes nodes' : List Node} (h : NodesMatch functions nodes nodes') :
    Same functions (runBody call nodes) (runBody call nodes') :=
  runBody_of_nodes (h.imp fun _ _ hn => runNode_same hcall hn)

end

/-- A call is entered in both or in neither: the guard counts calls and does not look at their
names. -/
theorem calling_same {α : Type} {name name' : String} {position : Position} {m m' : Compile α}
    (h : Same functions m m') :
    Same functions (calling name position m) (calling name' position m') := by
  refine Echoes.reading fun c c' hc => ?_
  cases hentered : c.enterCall name position with
  | error failure => exact Echoes.throw
  | ok e =>
      obtain ⟨e', hentered', he⟩ := hc.enterCall name' hentered
      rw [hentered']
      exact Echoes.within (fun _ => e) (fun _ => e') (fun _ => Context.exitCall)
        (fun _ => Context.exitCall) (fun _ => rfl) (fun _ => rfl) h (fun _ => he)
        fun _ hd => hd.exitCall

/-- A function without a body answers nothing. -/
theorem invoke_bodiless (calls : Nat) {d : Definition} (hbody : d.body = [])
    (arguments : List (Argument Value)) (position : Position) :
    Fails (invoke calls d arguments position) := by
  cases calls with
  | zero => exact Fails.bind fun _ => Fails.fail position _
  | succ calls =>
      intro c v e hout
      obtain ⟨bound, c₁, -, hout⟩ := bind_eq_ok hout
      obtain ⟨returned, c₂, hcalled, hout⟩ := bind_eq_ok hout
      rw [outcome_calling] at hcalled
      split at hcalled
      · cases hcalled
      next entered _ =>
        rw [outcome_inScope, outcome_bind] at hcalled
        split at hcalled
        · rw [hbody, runBody, outcome_pure] at hcalled
          obtain rfl := Except.ok.inj (congrArg Prod.fst hcalled)
          cases hout
        · cases hcalled

/-- **Two spellings of a function do the same**, however deep calls may still nest. -/
theorem invoke_echoes (calls : Nat) : CallerEchoes functions (invoke calls) := by
  induction calls with
  | zero =>
      exact ⟨fun _ _ _ _ position => Echoes.of_fails (Fails.bind fun _ => Fails.fail position _),
        invoke_bodiless 0⟩
  | succ calls ih =>
      refine ⟨fun {d d'} hd arguments arguments' ha position => ?_, invoke_bodiless (calls + 1)⟩
      obtain ⟨N, hN, hsame, hsignature⟩ := hd.signature
      rw [invoke, invoke]
      refine Echoes.bind (Echoes.ofFault fun bound hbound =>
        Signature.bind_rel hN hsame hsignature ha hbound) fun bound bound' hbound => ?_
      have hrun : Same functions
          (do bindParameters (invoke calls) position bound; runBody (invoke calls) d.body)
          (do bindParameters (invoke calls) position bound'; runBody (invoke calls) d'.body) :=
        Echoes.step (bindParameters_same ih hsame hbound position) fun _ => runBody_same ih hd.body
      refine Echoes.step (calling_same (inScope_same hrun)) fun returned => ?_
      cases returned with
      | some value => exact Echoes.pure rfl
      | none => exact Echoes.fail

end Evaluation

end Scss
