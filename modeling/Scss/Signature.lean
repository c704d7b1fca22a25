import Scss.Entries
import Scss.Failure
import Scss.Text.Name
import Scss.Value.Basic

/-!
# Signatures

Functions, mixins and built-in functions declare their parameters in the same way, and arguments
are bound to them by the same rules: by position first, then by name, then by default. Binding is
generic in what an argument holds, so that it can be done before arguments are evaluated.
-/

namespace Scss

structure Parameter where
  name : String
  default : Option Value
  deriving Repr

/-- The parameters of a function, and the name of the list of all arguments beyond them. -/
structure Signature where
  parameters : List Parameter
  rest : Option String
  deriving Repr

/-- How a parameter came by its value. A default is evaluated where the parameters are visible. -/
inductive Binding (α : Type) where
  | given (value : α)
  | default (value : Value)
  deriving Repr

structure BoundArguments (α : Type) where
  bindings : Entries (Binding α)
  restName : Option String
  rest : List α
  deriving Repr

namespace Signature

variable {α : Type}

/-! ## Sorting arguments -/

/-- The values passed for parameters, by key, and those beyond the parameters. `free` are the
parameters that no argument by position has taken, `given` the values so far, and `passed` counts
all arguments. -/
def collect (s : Signature) (passed : Nat) (free : List Parameter) (named : Bool)
    (given : Entries α) :
    List (Argument α) → Except BindingFault (Entries α × List α)
  | [] => .ok (given, [])
  | ⟨some name, value, _⟩ :: arguments =>
    let key := Text.nameKey name
    if !s.parameters.any fun p => Text.nameKey p.name == key then .error (.noParameter name)
    else if given.has key then .error (.passedTwice name)
    else collect s passed free true (given.put key value) arguments
  | ⟨none, value, _⟩ :: arguments =>
    if named then .error .positionalAfterNamed
    else match free with
      | p :: free => collect s passed free named (given.put (Text.nameKey p.name) value) arguments
      | [] =>
        if s.rest.isSome then do
          let (given, rest) ← collect s passed [] named given arguments
          .ok (given, value :: rest)
        else .error (.tooMany s.parameters.length passed)

/-- The parameters with the values passed for them, or else their defaults. -/
def fill (given : Entries α) (bindings : Entries (Binding α)) :
    List Parameter → Except BindingFault (Entries (Binding α))
  | [] => .ok bindings
  | p :: parameters =>
    let key := Text.nameKey p.name
    match given.get? key, p.default with
    | some value, _ => fill (given.remove key) (bindings.put p.name (.given value)) parameters
    | none, some value => fill given (bindings.put p.name (.default value)) parameters
    | none, none => .error (.missing p.name)

/-- Arguments bound to the parameters of `callee`. Splats are expanded before. -/
def bind (s : Signature) (callee : String) (arguments : List (Argument α)) :
    Except EvaluationFault (BoundArguments α) :=
  let bound : Except BindingFault (BoundArguments α) := do
    let (given, rest) ← collect s arguments.length s.parameters false [] arguments
    let bindings ← fill given [] s.parameters
    .ok ⟨bindings, s.rest, rest⟩
  bound.mapError (.binding callee)

end Signature

/-- What is bound to a parameter. -/
def BoundArguments.get? {α : Type} (b : BoundArguments α) (name : String) : Option (Binding α) :=
  b.bindings.get? name

/-- The value bound to a parameter, null if there is none. -/
def BoundArguments.value (b : BoundArguments Value) (name : String) : Value :=
  match b.get? name with
  | some (.given v) | some (.default v) => v
  | none => .null

end Scss
