import Scss.Builtin
import Scss.Context
import Scss.Value.Operation
import Scss.Value.Precedence

/-!
# Evaluating values

Evaluation replaces variables, calls and interpolations. Operators are computed where arithmetic is
asked for, by the surroundings or by the expression itself, and are otherwise kept as CSS.

The parts of a value first become computations; each form then says in which order it runs them and
how it puts the results together. So evaluation is a recursion on the value alone, and `if` can
choose the branch that it runs. Calls of functions are handled by a parameter, `call`, which knows
how deep calls may still nest; `invoke` ties the knot.
-/

namespace Scss.Evaluation

open Compile

/-- What runs a function for some arguments. -/
abbrev Caller := Definition → List (Argument Value) → Position → Compile Value

/-- A value and its evaluation. -/
structure Suspended where
  source : Value
  run : Compile Value

/-! ## Expressions -/

/-- The groups of tokens that blanks part: a blank between two operands does, and one in front of a
sign that touches the next operand. `group` is the group being read, `operandLast` whether its last
token besides blanks is an operand, `spaced` whether blanks follow that. -/
def groupsFrom {α : Type} (operandLast spaced : Bool) (group : List (ExprToken α)) :
    List (ExprToken α) → List (List (ExprToken α))
  | [] => [group]
  | .blank :: rest => groupsFrom operandLast true (group ++ [.blank]) rest
  | .operand a :: rest =>
    if operandLast && spaced then group :: groupsFrom true false [.operand a] rest
    else groupsFrom true false (group ++ [.operand a]) rest
  | .operator op :: rest =>
    let attached := match rest with
      | .operand _ :: _ => true
      | _ => false
    if operandLast && spaced && attached && (op == .minus || op == .plus) then
      group :: groupsFrom false false [.operator op] rest
    else groupsFrom false false (group ++ [.operator op]) rest

/-- The groups that hold more than blanks. -/
def spaceGroups {α : Type} (tokens : List (ExprToken α)) : List (List (ExprToken α)) :=
  (groupsFrom false false [] tokens).filter fun g => g.any fun t => !t.isBlank

/-- Computes a tree of operators, from left to right. -/
def runTree (position : Position) : OperationTree Suspended → Compile Value
  | .operand a => a.run
  | .fault f => fail position f
  | .unary op inner => do return Value.applyUnary op (← runTree position inner)
  | .binary op left right => do
    let l ← runTree position left
    let r ← runTree position right
    ofFault position (Value.applyBinary op l r)

/-- Computes the operators of a group. -/
def runArithmetic (position : Position) (group : List (ExprToken Suspended)) : Compile Value := do
  let text (s : Suspended) : String := s.source.text
  let (tree, rest) := OperationTree.read text (group.filter fun t => !t.isBlank)
  let value ← runTree position tree
  match rest with
  | [] => return value
  | t :: _ => fail position (.unexpectedInExpression (OperationTree.describe text t))

/-- Evaluates the operands of a group and keeps its operators. -/
def runLiteral (group : List (ExprToken Suspended)) : Compile Value := do
  let tokens ← group.mapM fun
    | .operand a => do return ExprToken.operand (← a.run)
    | .operator op => return .operator op
    | .blank => return .blank
  return Value.ofTokens tokens

/-- Evaluates an expression; several groups make a list. -/
def runExpression (position : Position) (arithmetic : Bool) (tokens : List (ExprToken Suspended)) :
    Compile Value := do
  let run := if arithmetic then runArithmetic position else runLiteral
  match ← (spaceGroups tokens).mapM run with
  | [] => return .null
  | [value] => return value
  | values => return .list values .space

/-! ## Text -/

/-- The text of an interpolation; an embedded string loses its quotes. -/
def runText : List (TextPart Suspended) → Compile String
  | [] => return ""
  | .literal text :: rest => do return text ++ (← runText rest)
  | .embedded a :: rest => do
    let value ← a.run
    return value.unquoted ++ (← runText rest)

/-! ## Calls -/

/-- Evaluates arguments; a splat is replaced by its items. -/
def runArguments : List (Argument Suspended) → Compile (List (Argument Value))
  | [] => return []
  | ⟨name, a, splat⟩ :: rest => do
    let value ← a.run
    let front := if splat then value.items.map Argument.positional else [⟨name, value, false⟩]
    return front ++ (← runArguments rest)

/-- Evaluates the arguments of a function that is left to CSS. -/
def runPlainArguments : List (Argument Suspended) → Compile (List (Argument Value))
  | [] => return []
  | ⟨name, a, splat⟩ :: rest => do
    let value ← a.run
    return ⟨name, value, splat⟩ :: (← runPlainArguments rest)

/-- Runs a built-in function on arguments that are not evaluated yet. -/
def runBuiltin (position : Position) (b : Builtin) (arguments : List (Argument Suspended)) :
    Compile Value := do
  match b.body with
  | .compute f =>
    let evaluated ← runArguments arguments
    let bound ← ofFault position (b.signature.bind b.name evaluated)
    ofFault position ((f bound).mapError (EvaluationFault.argument b.name))
  | .choose =>
    let computations := arguments.map fun a => (⟨a.name, a.value.run, a.splat⟩ : Argument _)
    let bound ← ofFault position (b.signature.bind b.name computations)
    Builtin.chooseBranch bound

/-- Runs a call: of a function of the stylesheet, of a built-in function, or else the call stays.
`computed` are its arguments to be evaluated with arithmetic, `plain` without. -/
def runCall (call : Caller) (position : Position) (name : String)
    (computed plain : List (Argument Suspended)) : Compile Value := do
  match (← scopes).function? name with
  | some definition => call definition (← runArguments computed) position
  | none =>
    match Builtin.find? name with
    | some b => runBuiltin position b computed
    | none => return .call name (← runPlainArguments plain)

/-! ## Values -/

mutual

/-- Evaluates a value that stands at a position. -/
def evaluate (call : Caller) (position : Position) (arithmetic : Bool) : Value → Compile Value
  | .null => return .null
  | .number n => return .number n
  | .color c => return .color c
  | .quoted text quote => return .quoted text quote
  | .word text => return .word text
  | .variable name => do
    match (← scopes).valueOf? name with
    | some value => return value
    | none => fail position (.undefinedVariable name)
  | .interpolated parts quote => do
    let text ← runText (suspendParts call position parts)
    match quote with
    | some q => return .quoted text q
    | none => return .word text
  | .paren inner => evaluate call position true inner
  | .list items separator => do
    return .list (← (suspendItems call position arithmetic items).mapM Suspended.run) separator
  | .call name arguments =>
    runCall call position name (suspendArguments call position true arguments)
      (suspendArguments call position false arguments)
  | .expression tokens =>
    let arithmetic := arithmetic || (Value.expression tokens).isArithmetic
    runExpression position arithmetic (suspendTokens call position arithmetic tokens)

def suspendItems (call : Caller) (position : Position) (arithmetic : Bool) :
    List Value → List Suspended
  | [] => []
  | v :: rest =>
    ⟨v, evaluate call position arithmetic v⟩ :: suspendItems call position arithmetic rest

def suspendParts (call : Caller) (position : Position) :
    List (TextPart Value) → List (TextPart Suspended)
  | [] => []
  | .literal text :: rest => .literal text :: suspendParts call position rest
  | .embedded v :: rest =>
    .embedded ⟨v, evaluate call position true v⟩ :: suspendParts call position rest

def suspendArguments (call : Caller) (position : Position) (arithmetic : Bool) :
    List (Argument Value) → List (Argument Suspended)
  | [] => []
  | ⟨name, v, splat⟩ :: rest =>
    ⟨name, ⟨v, evaluate call position arithmetic v⟩, splat⟩ ::
      suspendArguments call position arithmetic rest

def suspendTokens (call : Caller) (position : Position) (arithmetic : Bool) :
    List (ExprToken Value) → List (ExprToken Suspended)
  | [] => []
  | .operand v :: rest =>
    .operand ⟨v, evaluate call position arithmetic v⟩ :: suspendTokens call position arithmetic rest
  | .operator op :: rest => .operator op :: suspendTokens call position arithmetic rest
  | .blank :: rest => .blank :: suspendTokens call position arithmetic rest

end

/-- Evaluates a value, computing all its operators. -/
def compute (call : Caller) (position : Position) (v : Value) : Compile Value :=
  evaluate call position true v

/-- Whether a condition holds. -/
def holds (call : Caller) (position : Position) (condition : Value) : Compile Bool := do
  return (← compute call position condition).isTruthy

def interpolate (call : Caller) (position : Position) (parts : Interpolation) : Compile String :=
  runText (suspendParts call position parts)

/-! ## Binding names -/

/-- Binds parameters in the current scope. A default is evaluated here, so that it can mention the
parameters before it. -/
def bindParameters (call : Caller) (position : Position) (bound : BoundArguments Value) :
    Compile Unit := do
  bound.bindings.forM fun (name, binding) => do
    let value ← match binding with
      | .given v => pure v
      | .default v => compute call position v
    modifyScopes (·.define name value)
  if let some rest := bound.restName then
    modifyScopes (·.define rest (.list bound.rest .comma))

/-- Assigns to a variable, unless it is to be left alone because it has a value. -/
def assign (call : Caller) (position : Position) (name : String) (value : Value)
    (ifUnset isGlobal : Bool) : Compile Unit := do
  let bound := ((← scopes).valueOf? name).any fun v => !v.isNull
  if !(ifUnset && bound) then
    let value ← evaluate call position false value
    modifyScopes fun s => if isGlobal then s.setGlobal name value else s.assign name value

/-- Binds the variables of an `@each` to an item: several variables share its items. -/
def bindItem (names : List String) (item : Value) : Compile Unit :=
  match names with
  | [name] => modifyScopes (·.define name item)
  | names => share names item.items
where
  share : List String → List Value → Compile Unit
    | [], _ => return
    | name :: names, [] => do
      modifyScopes (·.define name .null)
      share names []
    | name :: names, v :: values => do
      modifyScopes (·.define name v)
      share names values

/-! ## Control directives -/

def eachItems (call : Caller) (position : Position) (list : Value) : Compile (List Value) := do
  return (← evaluate call position false list).items

/-- A bound of a `@for`, which must be a whole number. -/
def loopBound (call : Caller) (position : Position) (v : Value) : Compile Number := do
  match ← compute call position v with
  | .number n =>
    if n.isWhole then return n else fail position (.boundNotInteger (Value.number n).text)
  | other => fail position (.boundNotInteger other.text)

/-- The whole number that a bound stands for, if it is small enough to be counted to. -/
def loopIndex (position : Position) (n : Number) : Compile Int := do
  let whole := Decimal.roundWhole .nearest n.value
  if whole.isFinite && whole.abs ≤ 1e15 then return Decimal.wholePart whole
  else fail position (.boundOutOfRange (Decimal.display n.value))

/-- The numbers that a `@for` counts through, up or down. -/
def loopValues (call : Caller) (position : Position) (start stop : Value) (isInclusive : Bool) :
    Compile (List Value) := do
  let first ← loopBound call position start
  let last ← loopBound call position stop
  let i ← loopIndex position first
  let j ← loopIndex position last
  let unit := if first.isUnitless then last.unit else first.unit
  let span := (j - i).natAbs
  let count := if isInclusive then span + 1 else span
  if maxRounds < count then
    throw (.limitExceeded .forRounds maxRounds)
  let step : Int := if i ≤ j then 1 else -1
  return (List.range count).map fun (k : Nat) => .number ⟨Float.ofInt (i + step * k), unit⟩

/-- Reports a message. -/
def report (call : Caller) (position : Position) (level : DiagnosticLevel) (message : Value) :
    Compile Unit := do
  let text := (← compute call position message).unquoted
  match level with
  | .warn => warn position ("WARNING: " ++ text)
  | .debug => return
  | .error => fail position (.raised text)

/-! ## Functions -/

/-- Runs computations until one of them returns something. -/
def untilReturned {α β : Type} (run : α → Compile (Option β)) : List α → Compile (Option β)
  | [] => return none
  | a :: rest => do
    match ← run a with
    | some b => return some b
    | none => untilReturned run rest

/-- Repeats a computation while a condition holds and nothing is returned, for so many rounds at most. -/
def whileNotReturned {β : Type} (condition : Compile Bool) (run : Compile (Option β)) :
    Nat → Compile (Option β)
  | 0 => do
    if ← condition then throw (.limitExceeded .whileRounds maxRounds) else return none
  | rounds + 1 => do
    if ← condition then
      match ← run with
      | some b => return some b
      | none => whileNotReturned condition run rounds
    else
      return none

mutual

/-- Runs the body of a function, up to the first `@return`. -/
def runBody (call : Caller) : List Node → Compile (Option Value)
  | [] => return none
  | node :: rest => do
    match ← runNode call node with
    | some value => return some value
    | none => runBody call rest

def runNode (call : Caller) : Node → Compile (Option Value)
  | .mk position statement => runStatement call position statement

def runStatement (call : Caller) (position : Position) : Statement → Compile (Option Value)
  | .returnValue value => do return some (← compute call position value)
  | .assignment name value ifUnset isGlobal => do
    assign call position name value ifUnset isGlobal
    return none
  | .diagnostic level message => do
    report call position level message
    return none
  | .comment _ => return none
  | .branches alternatives => runBranches call position alternatives
  | .eachLoop names list body => do
    let round (item : Value) : Compile (Option Value) := inScope do
      bindItem names item
      runBody call body
    untilReturned round (← eachItems call position list)
  | .forLoop counter start stop isInclusive body => do
    let round (i : Value) : Compile (Option Value) := inScope do
      modifyScopes (·.define counter i)
      runBody call body
    untilReturned round (← loopValues call position start stop isInclusive)
  | .whileLoop condition body =>
    whileNotReturned (holds call position condition) (inScope (runBody call body)) maxRounds
  | _ => fail position .notInFunction

/-- Runs the first branch whose condition holds. -/
def runBranches (call : Caller) (position : Position) :
    List (Option Value × List Node) → Compile (Option Value)
  | [] => return none
  | (none, body) :: _ => inScope (runBody call body)
  | (some condition, body) :: rest => do
    if ← holds call position condition then inScope (runBody call body)
    else runBranches call position rest

end

/-- Runs a function where so many calls may still nest. -/
def invoke : Nat → Caller
  | 0, definition, arguments, position => do
    discard (ofFault position (definition.signature.bind definition.name arguments))
    fail position (.callDepth maxCallDepth definition.name)
  | calls + 1, definition, arguments, position => do
    let bound ← ofFault position (definition.signature.bind definition.name arguments)
    let returned ← calling definition.name position do
      inScope do
        bindParameters (invoke calls) position bound
        runBody (invoke calls) definition.body
    match returned with
    | some value => return value
    | none => fail position (.noReturn definition.name)

end Scss.Evaluation
