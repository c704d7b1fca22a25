import Scss.Color

/-!
# Values

The value of a property, a variable or an argument. Variables, expressions, parentheses and
interpolations are read from a stylesheet and gone once it is evaluated; the other forms are both
read and computed. The pieces that hold values, such as arguments, are generic in what they hold,
so that they can also hold values that are still to be computed.
-/

namespace Scss

structure Number where
  value : Float
  /-- The unit, empty if there is none. -/
  unit : String
  deriving Repr

inductive ListSeparator where
  | space
  | comma
  /-- The separator of a list that is too short to show one. -/
  | undecided
  deriving DecidableEq, Repr

inductive Operator where
  | plus | minus | times | divide | modulo
  | equal | notEqual | less | greater | atMost | atLeast
  | and | or | not
  deriving DecidableEq, Repr

/-- An argument of a call. A splat stands for the items of a list. -/
structure Argument (α : Type) where
  name : Option String
  value : α
  splat : Bool
  deriving Repr

/-- A piece of an expression. Blanks count: they separate the items of a list. -/
inductive ExprToken (α : Type) where
  | operand (value : α)
  | operator (op : Operator)
  | blank
  deriving Repr

/-- A piece of text with expressions in it. -/
inductive TextPart (α : Type) where
  | literal (text : String)
  | embedded (value : α)
  deriving Repr

inductive Value where
  | null
  | number (n : Number)
  | color (c : Color)
  /-- A string; its text is kept as it stands between the quotes. -/
  | quoted (text : String) (quote : Char)
  /-- A word, or a string without quotes. -/
  | word (text : String)
  | variable (name : String)
  | call (name : String) (arguments : List (Argument Value))
  | list (items : List Value) (separator : ListSeparator)
  | expression (tokens : List (ExprToken Value))
  | paren (inner : Value)
  | interpolated (parts : List (TextPart Value)) (quote : Option Char)
  deriving Repr, Inhabited

/-- Text with expressions in it. -/
abbrev Interpolation := List (TextPart Value)

/-! ## Numbers and units -/

namespace Number

def isUnitless (n : Number) : Bool := n.unit.isEmpty

/-- Whether the number is whole, up to an error of arithmetic. -/
def isWhole (n : Number) : Bool :=
  (n.value - Decimal.roundWhole .nearest n.value).abs < 1e-9

/-- Numbers compare if their units agree or one has none. -/
def isComparable (m n : Number) : Bool := m.unit == n.unit || m.isUnitless || n.isUnitless

def text (n : Number) : String := Decimal.format n.value ++ n.unit

end Number

/-! ## Operators and separators -/

namespace Operator

def symbol : Operator → String
  | plus => "+" | minus => "-" | times => "*" | divide => "/" | modulo => "%"
  | equal => "==" | notEqual => "!="
  | less => "<" | greater => ">" | atMost => "<=" | atLeast => ">="
  | and => "and" | or => "or" | not => "not"

/-- How tightly an operator binds its two operands. -/
def precedence : Operator → Nat
  | or => 1
  | and => 2
  | equal | notEqual => 3
  | less | greater | atMost | atLeast => 4
  | plus | minus => 5
  | times | divide | modulo => 6
  | not => 7

def canBeUnary : Operator → Bool
  | plus | minus | not => true
  | _ => false

end Operator

namespace ListSeparator

def ofName? : String → Option ListSeparator
  | "space" => some space
  | "comma" => some comma
  | _ => none

/-- What is written between two items. -/
def joint : ListSeparator → String
  | comma => ", "
  | space | undecided => " "

/-- The separator, if it is settled. -/
def decided? : ListSeparator → Option ListSeparator
  | undecided => none
  | s => some s

end ListSeparator

def Argument.positional {α : Type} (value : α) : Argument α := ⟨none, value, false⟩

def ExprToken.isBlank {α : Type} : ExprToken α → Bool
  | blank => true
  | _ => false

def TextPart.isLiteral {α : Type} : TextPart α → Bool
  | literal _ => true
  | embedded _ => false

/-- Text without expressions. -/
def Interpolation.literal (text : String) : Interpolation := [.literal text]

def Interpolation.isPlain (parts : Interpolation) : Bool := parts.all TextPart.isLiteral

/-- The text of a plain interpolation. -/
def Interpolation.plain? : Interpolation → Option String
  | [] => some ""
  | .literal text :: rest => (plain? rest).map (text ++ ·)
  | .embedded _ :: _ => none

/-! ## Views of a value -/

namespace Value

def unitless (x : Float) : Value := .number ⟨x, ""⟩

def boolean (b : Bool) : Value := .word (if b then "true" else "false")

/-- An expression without the blanks at its ends. Nothing is null, and one operand is itself. -/
def ofTokens (tokens : List (ExprToken Value)) : Value :=
  let inner := ((tokens.reverse.dropWhile ExprToken.isBlank).reverse).dropWhile ExprToken.isBlank
  match inner with
  | [] => .null
  | [.operand v] => v
  | _ => .expression inner

def isNull : Value → Bool
  | null => true
  | _ => false

/-- Whether a condition holds of the value. -/
def isTruthy : Value → Bool
  | null => false
  | word text => text != "false"
  | _ => true

def isVariable : Value → Bool
  | .variable _ => true
  | _ => false

/-- The items of a list; null has none, and any other value is its only item. -/
def items : Value → List Value
  | list items _ => items
  | null => []
  | v => [v]

def separator : Value → ListSeparator
  | list _ separator => separator
  | _ => .undecided

/-- The text of a word or string. -/
def text? : Value → Option String
  | quoted text _ | word text => some text
  | _ => none

/-- The name of the type, as `type-of` gives it. -/
def typeName : Value → String
  | null => "null"
  | number _ => "number"
  | color _ => "color"
  | word text =>
    if text == "true" || text == "false" then "bool"
    else if (Color.named? text).isSome then "color"
    else "string"
  | quoted .. | interpolated .. | call .. => "string"
  | list .. => "list"
  | .variable _ | expression _ | paren _ => "expression"

mutual

/-- Whether an expression is still embedded in text somewhere in the value. -/
def hasInterpolation : Value → Bool
  | interpolated parts _ => !Interpolation.isPlain parts
  | list items _ => hasInterpolationItems items
  | call _ arguments => hasInterpolationArguments arguments
  | paren inner => inner.hasInterpolation
  | expression tokens => hasInterpolationTokens tokens
  | _ => false

def hasInterpolationItems : List Value → Bool
  | [] => false
  | v :: rest => v.hasInterpolation || hasInterpolationItems rest

def hasInterpolationArguments : List (Argument Value) → Bool
  | [] => false
  | ⟨_, v, _⟩ :: rest => v.hasInterpolation || hasInterpolationArguments rest

def hasInterpolationTokens : List (ExprToken Value) → Bool
  | [] => false
  | .operand v :: rest => v.hasInterpolation || hasInterpolationTokens rest
  | _ :: rest => hasInterpolationTokens rest

end

/-! ## Arithmetic or plain CSS

An operator can be meant to be computed or to be written, as the slash of `10px/2`. This is decided
before variables are replaced: a slash is computed only next to a variable, any other operator
unless it stands next to interpolated text, and a parenthesis always asks for computing. -/

/-- Whether an operator between these neighbours is meant to be computed. -/
def operatorCounts (op : Operator) : Option Value → Option Value → Bool
  | some left, some right =>
    !(left.hasInterpolation || right.hasInterpolation) &&
      (op != .divide || left.isVariable || right.isVariable)
  | none, some right => op.canBeUnary && !right.hasInterpolation
  | _, none => false

/-- Whether some operator of an expression without blanks is meant to be computed; `previous` is the
operand just in front. -/
def someOperatorCounts (previous : Option Value) : List (ExprToken Value) → Bool
  | [] => false
  | .operator op :: rest =>
    let next := match rest with
      | .operand v :: _ => some v
      | _ => none
    operatorCounts op previous next || someOperatorCounts none rest
  | .operand v :: rest => someOperatorCounts (some v) rest
  | .blank :: rest => someOperatorCounts none rest

mutual

/-- Whether the value asks for its operators to be computed. -/
def isArithmetic : Value → Bool
  | expression tokens =>
    someOperandIsArithmetic tokens ||
      someOperatorCounts none (tokens.filter fun t => !t.isBlank)
  | paren _ => true
  | _ => false

def someOperandIsArithmetic : List (ExprToken Value) → Bool
  | [] => false
  | .operand v :: rest => v.isArithmetic || someOperandIsArithmetic rest
  | _ :: rest => someOperandIsArithmetic rest

end

end Value

end Scss
