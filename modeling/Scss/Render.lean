import Scss.Stylesheet
import Scss.Text.Blank
import Scss.Value.Text

/-!
# Writing CSS

Statements at the top level are parted by an empty line, nested ones are indented by tabs. A
declaration without a value is not written, and neither is a block in which nothing is written.
-/

namespace Scss

def SelectorSource.text : SelectorSource → String
  | parsed selectors => Selector.listText selectors
  | interpolated _ => ""

namespace Render

def indent (depth : Nat) : String := String.ofList (List.replicate depth '\t')

/-- A block around lines that are already indented; nothing without lines. -/
def block (depth : Nat) (header : String) (lines : List String) : String :=
  if lines.isEmpty then ""
  else
    indent depth ++ header ++ " \x7b\n" ++ String.intercalate "\n" lines ++ "\n" ++ indent depth ++
      "\x7d"

def declaration (depth : Nat) (name : Interpolation) (value : Value) (important : Bool) : String :=
  let text := Text.trim value.text
  if text.isEmpty then ""
  else
    indent depth ++ Interpolation.text name ++ ": " ++ text ++
      (if important then " !important" else "") ++ ";"

def atRuleHeader (name : String) (prelude : Interpolation) : String :=
  let text := Text.trim (Interpolation.text prelude)
  if text.isEmpty then "@" ++ name else "@" ++ name ++ " " ++ text

def mediaHeader (query : Interpolation) : String :=
  "@media " ++ Text.trim (Interpolation.text query)

def importFile (target : Value) (media : Option Interpolation) : String :=
  "@import " ++ target.text ++ (media.elim "" fun m => " " ++ Interpolation.text m) ++ ";"

mutual

/-- The text of a statement, empty if nothing is written for it. -/
def node (depth : Nat) : Node → String
  | .mk _ statement => statementText depth statement

def statementText (depth : Nat) : Statement → String
  | .rule selectors body => block depth selectors.text (nodes (depth + 1) body)
  | .declaration name value important => declaration depth name value important
  | .media query body => block depth (mediaHeader query) (nodes (depth + 1) body)
  | .atRule name prelude none => indent depth ++ atRuleHeader name prelude ++ ";"
  | .atRule name prelude (some body) =>
    block depth (atRuleHeader name prelude) (nodes (depth + 1) body)
  | .importFile target media => indent depth ++ importFile target media
  | .comment text => indent depth ++ text
  | _ => ""

/-- The texts of the statements for which something is written. -/
def nodes (depth : Nat) : List Node → List String
  | [] => []
  | n :: rest =>
    let text := node depth n
    if text.isEmpty then nodes depth rest else text :: nodes depth rest

end

end Render

/-- The text of a stylesheet as CSS. -/
def Stylesheet.css (s : Stylesheet) : String :=
  let charset := (s.charset.map fun c => "@charset \"" ++ c ++ "\";").toList
  let parts := charset ++ Render.nodes 0 s.body
  if parts.isEmpty then "" else String.intercalate "\n\n" parts ++ "\n"

end Scss
