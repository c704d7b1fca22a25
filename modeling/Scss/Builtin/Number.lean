import Scss.Builtin.Basic

/-!
# Functions of numbers
-/

namespace Scss.Builtin

/-- The arguments beyond the parameters, which must all be numbers. -/
private def numbers : List Value → Except ArgumentFault (List Number)
  | [] => .ok []
  | .number n :: rest => do return n :: (← numbers rest)
  | v :: _ => .error (.notNumbers v.text)

/-- The number that none of the others is better than; the first one wins. It keeps its unit. -/
private def best (better : Float → Float → Bool) (b : BoundArguments Value) :
    Except ArgumentFault Value := do
  match ← numbers b.rest with
  | [] => throw .noArguments
  | first :: others =>
    return .number (others.foldl (fun kept n => if better n.value kept.value then n else kept) first)

/-- A function of one number that keeps its unit. -/
private def ofNumber (name : String) (f : Float → Float) : Builtin :=
  computing name (required ["number"]) fun b => do
    let n ← numberArgument b "number"
    return .number { n with value := f n.value }

private def percentage (b : BoundArguments Value) : Except ArgumentFault Value := do
  let n ← numberArgument b "number"
  if n.isUnitless then
    return .number ⟨n.value * 100, "%"⟩
  else
    throw (.notUnitless (b.value "number").text)

private def unit (b : BoundArguments Value) : Except ArgumentFault Value := do
  return .quoted (← numberArgument b "number").unit '"'

private def unitless (b : BoundArguments Value) : Except ArgumentFault Value := do
  return Value.boolean (← numberArgument b "number").isUnitless

private def comparable (b : BoundArguments Value) : Except ArgumentFault Value :=
  match b.value "number1", b.value "number2" with
  | .number m, .number n => .ok (Value.boolean (m.isComparable n))
  | _, _ => .ok (Value.boolean false)

def numberFunctions : List Builtin :=
  [computing "min" ⟨[], some "numbers"⟩ (best fun x y => x < y),
    computing "max" ⟨[], some "numbers"⟩ (best fun x y => y < x),
    ofNumber "abs" Float.abs,
    ofNumber "ceil" (Decimal.roundWhole .above),
    ofNumber "floor" (Decimal.roundWhole .below),
    ofNumber "round" (Decimal.roundWhole .nearest),
    computing "percentage" (required ["number"]) percentage,
    computing "unit" (required ["number"]) unit,
    computing "unitless" (required ["number"]) unitless,
    computing "comparable" (required ["number1", "number2"]) comparable]

end Scss.Builtin
