import Scss.Failure
import Scss.Value.Equality
import Scss.Value.Text

/-!
# Operators on values

What each operator computes from its operands. Numbers keep their unit where units agree, colors are
computed channel by channel, and whatever else is added, subtracted or divided becomes text.
-/

namespace Scss.Value

/-- A sign or `not` in front of a value; a sign in front of anything but a number is written out. -/
def applyUnary : Operator → Value → Value
  | .not, v => boolean (!v.isTruthy)
  | .minus, number n => number { n with value := -n.value }
  | .plus, number n => number n
  | op, v => word (op.symbol ++ v.text)

private def undefinedOperation (op : Operator) (left right : Value) : EvaluationFault :=
  .undefinedOperation left.text op.symbol right.text

/-- The unit of a sum: that of either side, if they do not differ. -/
def sharedUnit (m n : Number) : Except EvaluationFault String :=
  if m.isComparable n then .ok (if m.isUnitless then n.unit else m.unit)
  else .error (.incompatibleUnits m.unit n.unit)

/-- The unit of a quotient: equal units cancel. -/
def quotientUnit (m n : Number) : Except EvaluationFault String :=
  if m.unit == n.unit then .ok ""
  else if n.isUnitless then .ok m.unit
  else .error (.incompatibleUnits m.unit n.unit)

/-- An operator between two numbers. -/
def combineNumbers (op : Operator) (m n : Number) : Except EvaluationFault Value :=
  let computed (x : Float) (unit : Except EvaluationFault String) : Except EvaluationFault Value :=
    unit.map fun u => number ⟨x, u⟩
  let compared (b : Bool) : Except EvaluationFault Value := (sharedUnit m n).map fun _ => boolean b
  match op with
  | .plus => computed (m.value + n.value) (sharedUnit m n)
  | .minus => computed (m.value - n.value) (sharedUnit m n)
  | .modulo =>
    if n.value == 0 then .error .moduloByZero
    else computed (Decimal.remainder m.value n.value) (sharedUnit m n)
  | .times =>
    if !m.isUnitless && !n.isUnitless then .error (.incompatibleUnits m.unit n.unit)
    else computed (m.value * n.value) (sharedUnit m n)
  | .divide =>
    if n.value == 0 then .error .divisionByZero
    else computed (m.value / n.value) (quotientUnit m n)
  | .less => compared (m.value < n.value)
  | .greater => compared (n.value < m.value)
  | .atMost => compared (m.value ≤ n.value)
  | .atLeast => compared (n.value ≤ m.value)
  | _ => .error (undefinedOperation op (number m) (number n))

/-- An operator between two colors, channel by channel. -/
def combineColors (op : Operator) (c d : Color) : Except EvaluationFault Value :=
  let combined := match op with
    | .plus => c.zipChannels? d (· + ·)
    | .minus => c.zipChannels? d (· - ·)
    | .times => c.zipChannels? d (· * ·)
    | .divide =>
      if d.red == 0 || d.green == 0 || d.blue == 0 then none else c.zipChannels? d (· / ·)
    | _ => none
  match combined with
  | some e => .ok (color e)
  | none => .error (undefinedOperation op (color c) (color d))

/-- An operator between a color and a number, which counts for every channel. -/
def combineColorNumber (op : Operator) (c : Color) (n : Number) : Except EvaluationFault Value :=
  let v := n.value
  match op with
  | .plus => .ok (color (c.mapChannels (· + v)))
  | .minus => .ok (color (c.mapChannels (· - v)))
  | .times => .ok (color (c.mapChannels (· * v)))
  | .divide =>
    if v == 0 then .error (undefinedOperation op (color c) (number n))
    else .ok (color (c.mapChannels (· / v)))
  | _ => .error (undefinedOperation op (color c) (number n))

/-- Two values written one behind the other. The left one decides whether the result is quoted,
unless it is no text. -/
def concatenate (left right : Value) : Value :=
  let text := left.unquoted ++ right.unquoted
  match left, right with
  | quoted _ quote, _ => quoted text quote
  | word _, _ => word text
  | _, quoted _ quote => quoted text quote
  | _, _ => word text

/-- An operator between values of which at least one is no number and no color. -/
def combineTexts (op : Operator) (left right : Value) : Except EvaluationFault Value :=
  match op with
  | .less | .greater | .atMost | .atLeast => .error (.notComparable left.text right.text)
  | .plus => .ok (concatenate left right)
  | .minus | .divide => .ok (word (left.text ++ op.symbol ++ right.unquoted))
  | _ => .error (undefinedOperation op left right)

/-- An operator between two values. -/
def applyBinary (op : Operator) (left right : Value) : Except EvaluationFault Value :=
  match op with
  | .and => .ok (if left.isTruthy then right else left)
  | .or => .ok (if left.isTruthy then left else right)
  | .equal => .ok (boolean (left.equals right))
  | .notEqual => .ok (boolean (!left.equals right))
  | _ =>
    match left, right with
    | number m, number n => combineNumbers op m n
    | color c, color d => combineColors op c d
    | color c, number n => combineColorNumber op c n
    | number n, color c =>
      match op with
      | .plus => .ok (color (c.mapChannels (· + n.value)))
      | .times => .ok (color (c.mapChannels (· * n.value)))
      | _ => combineTexts op left right
    | _, _ => combineTexts op left right

end Scss.Value
