import Scss.Value.Basic

/-!
# The text of a value

A value is written as CSS. Null items of a list are left out, and a comma list inside another kind
of list is put in parentheses.
-/

namespace Scss

def Value.isCommaList : Value → Bool
  | .list items .comma => 1 < items.length
  | _ => false

mutual

def Value.text : Value → String
  | .null => ""
  | .number n => n.text
  | .color c => c.text
  | .quoted text quote => quote.toString ++ text ++ quote.toString
  | .word text => text
  | .variable name => "$" ++ name
  | .call name arguments => name ++ "(" ++ argumentsText arguments ++ ")"
  | .list items separator => itemsText separator false items
  | .expression tokens => tokensText tokens
  | .paren inner => "(" ++ inner.text ++ ")"
  | .interpolated parts quote =>
    match quote with
    | some q => q.toString ++ Interpolation.text parts ++ q.toString
    | none => Interpolation.text parts

def argumentsText : List (Argument Value) → String
  | [] => ""
  | ⟨name, value, splat⟩ :: rest =>
    let label := name.elim "" fun n => "$" ++ n ++ ": "
    let dots := if splat then "..." else ""
    let joint := if rest.isEmpty then "" else ", "
    label ++ value.text ++ dots ++ joint ++ argumentsText rest

/-- The items of a list; `joined` tells whether one has been written before them. -/
def itemsText (separator : ListSeparator) (joined : Bool) : List Value → String
  | [] => ""
  | item :: rest =>
    if item.isNull then itemsText separator joined rest
    else
      let written :=
        if item.isCommaList && separator != .comma then "(" ++ item.text ++ ")" else item.text
      (if joined then separator.joint else "") ++ written ++ itemsText separator true rest

def tokensText : List (ExprToken Value) → String
  | [] => ""
  | .operand value :: rest => value.text ++ tokensText rest
  | .operator op :: rest => op.symbol ++ tokensText rest
  | .blank :: rest => " " ++ tokensText rest

def Interpolation.text : List (TextPart Value) → String
  | [] => ""
  | .literal text :: rest => text ++ Interpolation.text rest
  | .embedded value :: rest => "#\x7b" ++ value.text ++ "\x7d" ++ Interpolation.text rest

end

/-- The text of a value, a string without its quotes. -/
def Value.unquoted : Value → String
  | .quoted text _ => text
  | v => v.text

theorem Interpolation.text_eq_of_plain? {parts : Interpolation} {t : String}
    (h : Interpolation.plain? parts = some t) : Interpolation.text parts = t := by
  induction parts generalizing t with
  | nil => simpa [Interpolation.plain?, Interpolation.text] using h
  | cons part rest ih =>
    cases part with
    | embedded v => simp [Interpolation.plain?] at h
    | literal s =>
      rw [Interpolation.plain?, Option.map_eq_some_iff] at h
      obtain ⟨u, hu, rfl⟩ := h
      rw [Interpolation.text, ih hu]

end Scss
