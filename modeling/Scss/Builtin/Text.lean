import Scss.Builtin.Basic

/-!
# Functions of text and types
-/

namespace Scss.Builtin

private def quote (b : BoundArguments Value) : Except ArgumentFault Value :=
  match b.value "string" with
  | .quoted text quote => .ok (.quoted text quote)
  | v => .ok (.quoted v.text '"')

private def unquote (b : BoundArguments Value) : Except ArgumentFault Value :=
  match b.value "string" with
  | .quoted text _ => .ok (.word text)
  | v => .ok v

private def typeOf (b : BoundArguments Value) : Except ArgumentFault Value :=
  .ok (.word (b.value "value").typeName)

def textFunctions : List Builtin :=
  [computing "quote" (required ["string"]) quote,
    computing "unquote" (required ["string"]) unquote,
    computing "type-of" (required ["value"]) typeOf,
    ⟨"if", required ["condition", "if-true", "if-false"], .choose⟩]

end Scss.Builtin
