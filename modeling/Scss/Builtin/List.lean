import Scss.Builtin.Basic
import Scss.Value.Equality

/-!
# Functions of lists

Any value serves as a list: null as the empty one, another value as a list of itself. The
separator of a result is the one asked for, or that of the arguments if it is settled.
-/

namespace Scss.Builtin

/-- The separator asked for, if any. -/
private def requestedSeparator (b : BoundArguments Value) :
    Except ArgumentFault (Option ListSeparator) :=
  let value := b.value "separator"
  match value.text? with
  | some "auto" => .ok none
  | some name =>
    match ListSeparator.ofName? name with
    | some separator => .ok (some separator)
    | none => .error (.notSeparator value.text)
  | none => .error (.separatorNotText value.text)

private def append (b : BoundArguments Value) : Except ArgumentFault Value := do
  let list := b.value "list"
  let requested ← requestedSeparator b
  let separator := (requested.or list.separator.decided?).getD .space
  return .list (list.items ++ [b.value "val"]) separator

private def join (b : BoundArguments Value) : Except ArgumentFault Value := do
  let first := b.value "list1"
  let second := b.value "list2"
  let requested ← requestedSeparator b
  let separator :=
    ((requested.or first.separator.decided?).or second.separator.decided?).getD .space
  return .list (first.items ++ second.items) separator

private def nth (b : BoundArguments Value) : Except ArgumentFault Value := do
  let list := b.value "list"
  let n ← numberArgument b "n"
  if !n.isWhole then
    throw (.notIndex (b.value "n").text)
  let index := Decimal.wholePart (Decimal.roundWhole .nearest n.value)
  if index < 1 then
    throw (.outOfRange index list.text)
  match list.items[(index - 1).toNat]? with
  | some item => return item
  | none => throw (.outOfRange index list.text)

private def length (b : BoundArguments Value) : Except ArgumentFault Value :=
  .ok (Value.unitless (Float.ofNat (b.value "list").items.length))

private def index (b : BoundArguments Value) : Except ArgumentFault Value :=
  let value := b.value "value"
  match (b.value "list").items.findIdx? fun item => item.equals value with
  | some i => .ok (Value.unitless (Float.ofNat (i + 1)))
  | none => .ok .null

def listFunctions : List Builtin :=
  let auto : List (String × Value) := [("separator", .word "auto")]
  [computing "append" (withDefaults (required ["list", "val"]) auto) append,
    computing "join" (withDefaults (required ["list1", "list2"]) auto) join,
    computing "nth" (required ["list", "n"]) nth,
    computing "length" (required ["list"]) length,
    computing "index" (required ["list", "value"]) index]

end Scss.Builtin
