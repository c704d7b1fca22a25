import Scss.Flatten
import Scss.Proofs.Evaluating

/-!
# Values that do not depend on the context

A literal value holds no variables and calls no functions that the stylesheet defines. Its operators
and the built-in functions in it are still computed. What comes out, a value or a failure, is the same
wherever the same functions are defined, and nothing changes in the context.

More generally, evaluation looks at nothing in the context but what the variables are bound to, and
whether the functions are defined. So a value evaluates to the same in some contexts if these agree on
its own variables and define none of its functions. `Uniform` says of one computation that it does the
same in some contexts. Steps done one after another keep that, so for the parts of a value it follows as
it does for the scoping relations.
-/

namespace Scss

open Compile Evaluation

/-- Whether the same functions of a stylesheet can be called in two contexts. -/
def Context.SameFunctions (c d : Context) : Prop :=
  ∀ name, d.scopes.function? name = c.scopes.function? name

/-- In all of some contexts the computation gives the same, and it changes nothing. -/
def Compile.Uniform {α : Type} (D : Context → Prop) (m : Compile α) : Prop :=
  ∃ r, ∀ d, D d → m.outcome d = (r, d)

/-- Wherever the same functions can be called, the computation gives the same and changes nothing. -/
def Compile.Steady {α : Type} (c : Context) (m : Compile α) : Prop :=
  ∃ r, ∀ d, c.SameFunctions d → m.outcome d = (r, d)

theorem Compile.uniform_steps (D : Context → Prop) : Steps (Uniform D) where
  pure a := ⟨.ok a, fun _ _ => rfl⟩
  throw failure := ⟨.error failure, fun _ _ => rfl⟩
  bind {α β m f} hm hf := by
    obtain ⟨r, hr⟩ := hm
    cases r with
    | error failure => exact ⟨.error failure, fun d hd => outcome_bind_error (hr d hd)⟩
    | ok a =>
        obtain ⟨r', hr'⟩ := hf a
        refine ⟨r', fun d hd => ?_⟩
        rw [outcome_bind_ok (hr d hd)]
        exact hr' d hd

namespace Value

/-- A value without variables, in which no function is called that the stylesheet defines. -/
inductive IsLiteral (c : Context) : Value → Prop where
  | null : IsLiteral c .null
  | number {n : Number} : IsLiteral c (.number n)
  | color {color : Color} : IsLiteral c (.color color)
  | quoted {text : String} {quote : Char} : IsLiteral c (.quoted text quote)
  | word {text : String} : IsLiteral c (.word text)
  | interpolated {parts : List (TextPart Value)} {quote : Option Char}
      (h : ∀ v, .embedded v ∈ parts → IsLiteral c v) : IsLiteral c (.interpolated parts quote)
  | paren {inner : Value} (h : IsLiteral c inner) : IsLiteral c (.paren inner)
  | list {items : List Value} {separator : ListSeparator} (h : ∀ v ∈ items, IsLiteral c v) :
      IsLiteral c (.list items separator)
  | call {name : String} {arguments : List (Argument Value)}
      (hname : c.scopes.function? name = none) (h : ∀ a ∈ arguments, IsLiteral c a.value) :
      IsLiteral c (.call name arguments)
  | expression {tokens : List (ExprToken Value)} (h : ∀ v, .operand v ∈ tokens → IsLiteral c v) :
      IsLiteral c (.expression tokens)

/-- In all of some contexts, the value itself is bound to the same if it is a variable, and is the call
of no function of the stylesheet. -/
def IsUniformPart (D : Context → Prop) : Value → Prop
  | .variable name => ∃ r, ∀ d, D d → d.scopes.valueOf? name = r
  | .call name _ => ∀ d, D d → d.scopes.function? name = none
  | _ => True

theorem IsLiteral.all_isUniformPart {c : Context} {v : Value} (h : v.IsLiteral c) :
    v.All (IsUniformPart c.SameFunctions) := by
  induction h with
  | null | number | color | quoted | word => exact .mk trivial fun _ hw => absurd hw List.not_mem_nil
  | interpolated _ ih => exact .mk trivial fun w hw => ih w (TextPart.mem_embedded.mp hw)
  | paren _ ih => exact .mk trivial (List.forall_mem_singleton.mpr ih)
  | list _ ih => exact .mk trivial ih
  | call hname _ ih => exact .mk (fun d hd => (hd _).trans hname) (List.forall_mem_map.mpr ih)
  | expression _ ih => exact .mk trivial fun w hw => ih w (ExprToken.mem_operands.mp hw)

/-- What a value evaluates to in a context, or the value itself if it cannot be evaluated there. -/
def settled (c : Context) (position : Position) (v : Value) : Value :=
  match ((evaluate (invoke (Flatten.callsLeft c)) position false v).outcome c).1 with
  | .ok w => w
  | .error _ => v

end Value

namespace Evaluation

variable {D : Context → Prop} {c : Context}

/-- A call of a function that the stylesheet does not define. -/
theorem runCall_uniform (call : Caller) (position : Position) {name : String}
    (hname : ∀ d, D d → d.scopes.function? name = none) {computed plain : List (Argument Suspended)}
    (hcomputed : ∀ a ∈ computed, a.value.Keeps (Uniform D))
    (hplain : ∀ a ∈ plain, a.value.Keeps (Uniform D)) :
    Uniform D (runCall call position name computed plain) := by
  cases hfind : Builtin.find? name with
  | some b =>
      obtain ⟨r, hr⟩ := runBuiltin_keeps (uniform_steps D) hcomputed position b
      refine ⟨r, fun d hd => ?_⟩
      rw [runCall, outcome_scopes_bind, hname d hd, hfind]
      exact hr d hd
  | none =>
      have hpassed : Uniform D (do return Value.call name (← runPlainArguments plain)) :=
        (uniform_steps D).bind (runPlainArguments_keeps (uniform_steps D) hplain) fun passed =>
          (uniform_steps D).pure _
      obtain ⟨r, hr⟩ := hpassed
      refine ⟨r, fun d hd => ?_⟩
      rw [runCall, outcome_scopes_bind, hname d hd, hfind]
      exact hr d hd

/-- **A value evaluates to the same** where its variables are bound to the same and its functions are
not defined, and that changes nothing. -/
theorem evaluate_uniform (call : Caller) (position : Position) {v : Value}
    (h : v.All (Value.IsUniformPart D)) :
    ∀ arithmetic, Uniform D (evaluate call position arithmetic v) := by
  have hsteps := uniform_steps D
  induction h with
  | @mk v own _ ih =>
      intro arithmetic
      cases v with
      | null | number | color | quoted | word => exact hsteps.pure _
      | «variable» name =>
          -- what a variable is bound to, if anything, is the same in all of these contexts
          obtain ⟨r, hr⟩ := own
          cases r with
          | some w => exact ⟨.ok w, fun d hd => by rw [evaluate, outcome_scopes_bind, hr d hd]; rfl⟩
          | none => exact ⟨_, fun d hd => by rw [evaluate, outcome_scopes_bind, hr d hd]; rfl⟩
      | interpolated parts quote =>
          rw [evaluate]
          refine hsteps.bind (runText_keeps hsteps ?_) fun text => ?_
          · exact suspendParts_holds fun v hv => ih v (TextPart.mem_embedded.mpr hv) true
          · split <;> exact hsteps.pure _
      | paren inner =>
          rw [evaluate]
          exact ih inner List.mem_cons_self true
      | list items separator =>
          rw [evaluate]
          refine hsteps.bind (hsteps.mapM ?_) fun values => hsteps.pure _
          exact suspendItems_holds fun v hv => ih v hv arithmetic
      | call name arguments =>
          rw [evaluate]
          refine runCall_uniform call position own ?_ ?_
          · exact suspendArguments_holds fun a ha => ih a.value (List.mem_map_of_mem ha) true
          · exact suspendArguments_holds fun a ha => ih a.value (List.mem_map_of_mem ha) false
      | expression tokens =>
          rw [evaluate]
          exact runExpression_keeps hsteps position _
            (suspendTokens_holds fun v hv => ih v (ExprToken.mem_operands.mpr hv) _)

/-- **A literal value evaluates to the same** wherever the same functions can be called, and changes
nothing. -/
theorem evaluate_steady (call : Caller) (position : Position) {v : Value} (h : v.IsLiteral c)
    (arithmetic : Bool) : Steady c (evaluate call position arithmetic v) :=
  evaluate_uniform call position h.all_isUniformPart arithmetic

/-- What a literal value settles to is all that its evaluation can give. -/
theorem evaluate_literal {position : Position} {v w : Value} (h : v.IsLiteral c) {d d' : Context}
    (hd : c.SameFunctions d)
    (hw : (evaluate (invoke (Flatten.callsLeft c)) position false v).outcome d = (.ok w, d')) :
    w = v.settled c position ∧ d' = d := by
  obtain ⟨r, hr⟩ := evaluate_steady (invoke (Flatten.callsLeft c)) position h false
  rw [hr d hd] at hw
  obtain ⟨rfl, rfl⟩ := Prod.mk.inj hw
  rw [Value.settled, hr c fun _ => rfl]
  exact ⟨rfl, rfl⟩

/-- A text without expressions is the same everywhere. -/
theorem interpolate_plain (call : Caller) (position : Position) {parts : Interpolation}
    (h : Interpolation.isPlain parts = true) (d : Context) :
    (interpolate call position parts).outcome d = (.ok (Interpolation.text parts), d) := by
  induction parts with
  | nil => rfl
  | cons part rest ih =>
      obtain ⟨hpart, hrest⟩ := List.all_cons.symm.trans h |> Bool.and_eq_true_iff.mp
      cases part with
      | embedded v => cases hpart
      | literal text => exact outcome_bind_ok (ih hrest)

end Evaluation

end Scss
