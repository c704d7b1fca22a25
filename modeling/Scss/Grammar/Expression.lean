import Scss.Grammar.Cursor
import Scss.Text.Split
import Scss.Token.Lexer
import Scss.Value.Basic

/-!
# Reading values

A value is a comma list of space expressions; a space expression is a row of operands and operators,
in which blanks are kept because they part the items of a list. The expressions in `#{...}` that
a string or a raw function holds are read from that text in turn.

Every function is given fuel, which bounds how deep the reading can nest. A step either moves over a
token, or goes into text that is shorter than its token, or is one of a few that lead there, so
fuel proportional to the length of the text suffices.
-/

namespace Scss.Grammar

open Scss.Parser

/-- Fuel for a text of so many characters. -/
def fuelFor (length : Nat) : Nat := 8 * length + 16

/-! ## Deciding by the token -/

/-- Whether a token ends an expression; `stops` are words that end it here. -/
def endsExpression (stops : List String) : Token.Kind → Bool
  | .mark .comma | .mark .semicolon | .mark .openBrace | .mark .closeBrace | .mark .closeParen
  | .mark .closeBracket | .mark .colon | .mark .dot | .flag _ | .finish => true
  | .word name => stops.contains name
  | _ => false

/-- The operator that a token is. -/
def operatorOf? : Token.Kind → Option Operator
  | .mark .plus => some .plus
  | .mark .minus => some .minus
  | .mark .star => some .times
  | .mark .slash => some .divide
  | .mark .percent => some .modulo
  | .mark .equal => some .equal
  | .mark .notEqual => some .notEqual
  | .mark .less => some .less
  | .mark .lessEqual => some .atMost
  | .mark .greater => some .greater
  | .mark .greaterEqual => some .atLeast
  | .word "and" => some .and
  | .word "or" => some .or
  | .word "not" => some .not
  | _ => none

/-- The text in front of the brace that closes an interpolation, and the text behind it. Braces in
strings do not count. -/
def cutAtBrace? (quote : Option Char) (depth : Nat) :
    List Char → Option (List Char × List Char)
  | [] => none
  | c :: rest =>
    let go (quote : Option Char) (depth : Nat) : Option (List Char × List Char) :=
      (cutAtBrace? quote depth rest).map fun (inner, behind) => (c :: inner, behind)
    match quote with
    | some q => go (if c = q then none else some q) depth
    | none =>
      if c = '"' ∨ c = '\'' then go (some c) depth
      else if c = '\x7b' then go none (depth + 1)
      else if c = '\x7d' then
        match depth with
        | 0 => some ([], rest)
        | depth + 1 => go none depth
      else go none depth

/-! ## Text with expressions -/

/-- The parts with touching literals joined and empty ones left out. -/
def joinLiterals : Interpolation → Interpolation
  | [] => []
  | .embedded v :: rest => .embedded v :: joinLiterals rest
  | .literal text :: rest =>
    match joinLiterals rest with
    | .literal more :: parts => .literal (text ++ more) :: parts
    | parts => if text.isEmpty then parts else .literal text :: parts

def trimFirst : Interpolation → Interpolation
  | .literal text :: rest => .literal (Text.trimStart text) :: rest
  | parts => parts

def trimLast : Interpolation → Interpolation
  | [] => []
  | [.literal text] => [.literal (Text.trimEnd text)]
  | part :: rest => part :: trimLast rest

/-- Pieces of text put together, without the blanks around them. -/
def ofPieces (pieces : Interpolation) : Interpolation :=
  (trimLast (trimFirst (joinLiterals pieces))).filter fun
    | .literal text => !text.isEmpty
    | .embedded _ => true

/-! ## The grammar -/

mutual

/-- A comma list, or the one expression that is not followed by a comma. -/
def valueList : Nat → Parser Value
  | 0 => exhausted
  | fuel + 1 => do
    let first ← spaceExpression fuel []
    discard skipBlanks
    if ← isAt .comma then
      return .list (first :: (← moreItems fuel)) .comma
    else
      return first

/-- The items behind a comma. A comma at the end is allowed. -/
def moreItems : Nat → Parser (List Value)
  | 0 => exhausted
  | fuel + 1 => do
    if ← isAt .comma then
      discard advance
      discard skipBlanks
      if endsExpression [] (← peek) then
        return []
      let item ← spaceExpression fuel []
      discard skipBlanks
      return item :: (← moreItems fuel)
    else
      return []

/-- Operands and operators up to a token or word that ends them. -/
def spaceExpression (fuel : Nat) (stops : List String) : Parser Value :=
  match fuel with
  | 0 => exhausted
  | fuel + 1 => do
    let tokens ← expressionTokens fuel stops true
    if tokens.isEmpty then
      failExpected (← token) "an expression"
    else
      return Value.ofTokens tokens

def expressionTokens (fuel : Nat) (stops : List String) (isFirst : Bool) :
    Parser (List (ExprToken Value)) :=
  match fuel with
  | 0 => exhausted
  | fuel + 1 => do
    let spaced ← skipBlanks
    let blanks := if spaced && !isFirst then [.blank] else []
    let kind ← peek
    if endsExpression stops kind then
      return blanks
    match operatorOf? kind with
    | some op =>
      discard advance
      return blanks ++ .operator op :: (← expressionTokens fuel stops false)
    | none =>
      let operand ← primary fuel
      return blanks ++ .operand operand :: (← expressionTokens fuel stops false)

/-- One operand. -/
def primary : Nat → Parser Value
  | 0 => exhausted
  | fuel + 1 => do
    if ← isAt .interpolation then
      return ← interpolatedWord fuel []
    let t ← advance
    match t.kind with
    | .number value unit => return .number ⟨value, unit⟩
    | .hash name => return ((Color.ofHex? name).map Value.color).getD (.word ("#" ++ name))
    | .quoted text quote =>
      if Text.hasInterpolation text then
        return .interpolated (← textParts fuel t.position text.toList) (some quote)
      else
        return .quoted text quote
    | .variable name => return .variable name
    | .rawCall name argument =>
      let value ← if Text.hasInterpolation argument then
          pure (Value.interpolated (← textParts fuel t.position argument.toList) none)
        else
          pure (Value.word argument)
      return .call name [.positional value]
    | .word name => wordOrCall fuel name
    | .mark .openParen =>
      discard skipBlanks
      if ← isAt .closeParen then
        discard advance
        return .list [] .space
      let inner ← valueList fuel
      discard skipBlanks
      expect .closeParen "')'"
      return .paren inner
    | .mark .ampersand => return .word "&"
    | .stray c => return .word c.toString
    | kind => failAt t (.unexpectedIn kind.describe "expression")

/-- What a word is: the name of a function if a parenthesis touches it, the beginning of a longer
word if an interpolation does. -/
def wordOrCall (fuel : Nat) (name : String) : Parser Value :=
  match fuel with
  | 0 => exhausted
  | fuel + 1 => do
    let touching := (← get).isAdjacent
    if touching && (← isAt .openParen) then
      discard advance
      return .call name (← arguments fuel)
    else if touching && (← isAt .interpolation) then
      interpolatedWord fuel [.literal name]
    else if name == "null" then
      return .null
    else
      return .word name

/-- A word glued together from words and interpolations that touch. -/
def interpolatedWord (fuel : Nat) (parts : Interpolation) : Parser Value :=
  match fuel with
  | 0 => exhausted
  | fuel + 1 => do
    if !parts.isEmpty && !(← get).isAdjacent then
      return .interpolated parts none
    match ← peek with
    | .mark .interpolation =>
      let inner ← embedded fuel
      interpolatedWord fuel (parts ++ [.embedded inner])
    | .word _ | .number .. | .hash _ =>
      let t ← advance
      interpolatedWord fuel (parts ++ [.literal t.text])
    | _ => return .interpolated parts none

/-- The arguments of a call, up to and including the closing parenthesis. -/
def arguments : Nat → Parser (List (Argument Value))
  | 0 => exhausted
  | fuel + 1 => do
    discard skipBlanks
    if ← isAt .closeParen then
      discard advance
      return []
    let name ← argumentName
    let value ← spaceExpression fuel []
    let splat ← takeEllipsis
    discard skipBlanks
    let separator ← advance
    match separator.kind with
    | .mark .comma => return ⟨name, value, splat⟩ :: (← arguments fuel)
    | .mark .closeParen => return [⟨name, value, splat⟩]
    | _ => failExpected separator "',' or ')' in arguments"
where
  argumentName : Parser (Option String) := do
    match ← peek with
    | .variable name =>
      if (← get).colonFollows then
        discard advance
        discard skipBlanks
        discard advance
        discard skipBlanks
        return some name
      else
        return none
    | _ => return none

/-- An interpolation, from its opening mark to its closing brace. -/
def embedded : Nat → Parser Value
  | 0 => exhausted
  | fuel + 1 => do
    discard advance
    discard skipBlanks
    let value ← valueList fuel
    discard skipBlanks
    expect .closeBrace "'\x7d' to close interpolation"
    return value

/-- The literal and embedded parts of the text of a token that stands at `origin`. -/
def textParts (fuel : Nat) (origin : Position) (text : List Char) : Parser Interpolation :=
  match fuel with
  | 0 => exhausted
  | fuel + 1 =>
    match Text.cutAtInterpolation? text with
    | none => return if text.isEmpty then [] else [.literal (String.ofList text)]
    | some (before, behind) =>
      match cutAtBrace? none 0 behind with
      | none => throw (.parse origin (.unterminated "interpolation"))
      | some (inner, behind) => do
        let value ← wholeValue fuel inner origin
        let parts ← textParts fuel origin behind
        let front := if before.isEmpty then [] else [.literal (String.ofList before)]
        return front ++ .embedded value :: parts

/-- A value that takes up a whole text, whose first character stands at `origin`. -/
def wholeValue (fuel : Nat) (text : List Char) (origin : Position) : Parser Value :=
  match fuel with
  | 0 => exhausted
  | fuel + 1 => do
    let outer ← get
    set (Cursor.ofTokens origin (← Token.read (String.ofList text) origin))
    discard skipBlanks
    let value ← valueList fuel
    discard skipBlanks
    match ← peek with
    | .finish =>
      set outer
      return value
    | kind => fail (.unexpectedIn kind.describe "value")

end

/-- Text up to a token outside brackets that `stop` picks, in pieces. Where `substitute` is set, a
variable counts as an expression. `depth` counts the brackets that are open. -/
def piecesUntil (stop : Token.Kind → Bool) (substitute : Bool) : Nat → Nat → Parser Interpolation
  | 0, _ => exhausted
  | fuel + 1, depth => do
    let t ← token
    if depth == 0 && stop t.kind then
      return []
    match t.kind with
    | .finish => return []
    | .mark .interpolation =>
      let inner ← embedded fuel
      return .embedded inner :: (← piecesUntil stop substitute fuel depth)
    | .quoted text quote =>
      let parts ← textParts fuel t.position text.toList
      discard advance
      let q := TextPart.literal quote.toString
      return q :: parts ++ q :: (← piecesUntil stop substitute fuel depth)
    | .rawCall name argument =>
      let parts ← textParts fuel t.position argument.toList
      discard advance
      return .literal (name ++ "(") :: parts ++
        .literal ")" :: (← piecesUntil stop substitute fuel depth)
    | .blank =>
      discard advance
      return .literal " " :: (← piecesUntil stop substitute fuel depth)
    | .comment _ =>
      discard advance
      piecesUntil stop substitute fuel depth
    | kind =>
      discard advance
      let piece : TextPart Value := match kind, substitute with
        | .variable name, true => .embedded (.variable name)
        | _, _ => .literal t.text
      let depth := match kind with
        | .mark .openParen | .mark .openBracket => depth + 1
        | .mark .closeParen | .mark .closeBracket => depth - 1
        | _ => depth
      return piece :: (← piecesUntil stop substitute fuel depth)

/-- Text up to a token outside brackets that `stop` picks, without the blanks around it. -/
def interpolationUntil (fuel : Nat) (stop : Token.Kind → Bool) (substitute : Bool) :
    Parser Interpolation := do
  return ofPieces (← piecesUntil stop substitute fuel 0)

/-- The value that a text stands for, its first character standing at `origin`. -/
def readValue (text : String) (origin : Position) : Except Failure Value := do
  let (value, _) ← (wholeValue (fuelFor text.length) text.toList origin).run
    (Cursor.ofTokens origin [])
  return value

end Scss.Grammar
