import Scss.Signature
import Scss.Value.Text

/-!
# Built-in functions

A built-in function declares a signature. Most compute a result from the values of all their
arguments; `if` is given its arguments unevaluated and evaluates the branch that it chooses.
-/

namespace Scss

/-- What a built-in function does with its arguments. -/
inductive Builtin.Body where
  | compute (f : BoundArguments Value → Except ArgumentFault Value)
  | choose

structure Builtin where
  name : String
  signature : Signature
  body : Builtin.Body

namespace Builtin

/-- A signature of required parameters. -/
def required (names : List String) : Signature := ⟨names.map fun n => ⟨n, none⟩, none⟩

/-- A signature with parameters behind the others that have a default. -/
def withDefaults (s : Signature) (defaults : List (String × Value)) : Signature :=
  { s with parameters := s.parameters ++ defaults.map fun (n, v) => ⟨n, some v⟩ }

/-- A function that computes its result. -/
def computing (name : String) (signature : Signature)
    (f : BoundArguments Value → Except ArgumentFault Value) : Builtin :=
  ⟨name, signature, .compute f⟩

/-- The argument for a parameter, as a color. -/
def colorArgument (b : BoundArguments Value) (name : String) : Except ArgumentFault Color :=
  let value := b.value name
  match value with
  | .color c => .ok c
  | .word text =>
    match Color.named? text with
    | some c => .ok c
    | none => .error (.wrongType name value.text "color")
  | _ => .error (.wrongType name value.text "color")

/-- The argument for a parameter, as a number. -/
def numberArgument (b : BoundArguments Value) (name : String) : Except ArgumentFault Number :=
  match b.value name with
  | .number n => .ok n
  | value => .error (.wrongType name value.text "number")

/-- The computation bound to a parameter; null if there is none. -/
def computation {m : Type → Type} [Monad m] (b : BoundArguments (m Value)) (name : String) :
    m Value :=
  match b.get? name with
  | some (.given a) => a
  | some (.default v) => pure v
  | none => pure .null

/-- Evaluates a condition, and then one of two branches. -/
def chooseBranch {m : Type → Type} [Monad m] (b : BoundArguments (m Value)) : m Value := do
  let condition ← computation b "condition"
  if condition.isTruthy then computation b "if-true" else computation b "if-false"

end Builtin

end Scss
