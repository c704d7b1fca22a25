import Scss.Text.Name
import Scss.UrlPath
import Scss.Value.Basic

/-!
# Urls in values

A url of an imported stylesheet is rebased: every `url(...)` in a list or among the operands of an
expression, but not one that is an argument of another function.
-/

namespace Scss.Value

/-- Whether the value is nothing but a url. -/
def isUrl : Value → Bool
  | call name _ => Text.sameIgnoringCase name "url"
  | _ => false

/-- The path of a url rebased, if it is given as plain text. -/
def rebasePath? (base : String) : Value → Option Value
  | quoted text quote => some (quoted (UrlPath.rebase base text) quote)
  | word text => some (word (UrlPath.rebase base text))
  | interpolated parts quote => (Interpolation.plain? parts).map fun text =>
      interpolated (Interpolation.literal (UrlPath.rebase base text)) quote
  | _ => none

mutual

def rebaseUrls (base : String) : Value → Value
  | call name [argument] =>
    if Text.sameIgnoringCase name "url" then
      match rebasePath? base argument.value with
      | some path => call name [.positional path]
      | none => call name [argument]
    else call name [argument]
  | list items separator => list (rebaseItems base items) separator
  | expression tokens => expression (rebaseTokens base tokens)
  | v => v

def rebaseItems (base : String) : List Value → List Value
  | [] => []
  | v :: rest => v.rebaseUrls base :: rebaseItems base rest

def rebaseTokens (base : String) : List (ExprToken Value) → List (ExprToken Value)
  | [] => []
  | .operand v :: rest => .operand (v.rebaseUrls base) :: rebaseTokens base rest
  | t :: rest => t :: rebaseTokens base rest

end

end Scss.Value
