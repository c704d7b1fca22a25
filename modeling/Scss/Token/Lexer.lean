import Scss.Failure
import Scss.Text.Blank
import Scss.Text.Name
import Scss.Token

/-!
# Reading tokens

`Token.scan` reads the token at the front of a text: it is given the first character and the
characters behind it, and answers how many of those belong to the token. `Token.read` repeats it
until the text is used up. Between two tokens stands nothing, or a comment that runs from `//` to
the end of its line.
-/

namespace Scss.Token

open Scss.Text

/-! ## Spans: the characters of a lexeme, and whether it was closed -/

/-- What was read of a lexeme that needs a closing mark, without that mark. -/
structure Span where
  text : List Char
  closed : Bool

def Span.add (s : Span) (front : List Char) : Span := { s with text := front ++ s.text }

/-- A comment behind its opening mark. -/
def spanComment : List Char → Span
  | [] => ⟨[], false⟩
  | '*' :: '/' :: _ => ⟨[], true⟩
  | c :: rest => (spanComment rest).add [c]

/-- A string behind its opening quote. It cannot run over the end of a line, but a backslash carries
any character into it. -/
def spanQuoted (quote : Char) : List Char → Span
  | [] => ⟨[], false⟩
  | '\\' :: [] => ⟨['\\'], false⟩
  | '\\' :: c :: rest => (spanQuoted quote rest).add ['\\', c]
  | c :: rest =>
    if c = quote then ⟨[], true⟩
    else if c = '\n' then ⟨[], false⟩
    else (spanQuoted quote rest).add [c]

/-- Raw arguments behind their opening parenthesis, up to the matching one. Inside a string
parentheses do not count and a backslash protects the next character. -/
def spanArguments : Option Char → Nat → List Char → Span
  | _, _, [] => ⟨[], false⟩
  | some _, _, '\\' :: [] => ⟨['\\'], false⟩
  | some quote, depth, '\\' :: c :: rest => (spanArguments (some quote) depth rest).add ['\\', c]
  | some quote, depth, c :: rest =>
    (spanArguments (if c = quote then none else some quote) depth rest).add [c]
  | none, depth, c :: rest =>
    if c = '"' ∨ c = '\'' then (spanArguments (some c) depth rest).add [c]
    else if c = '(' then (spanArguments none (depth + 1) rest).add [c]
    else if c = ')' then
      match depth with
      | 0 => ⟨[], true⟩
      | depth + 1 => (spanArguments none depth rest).add [c]
    else (spanArguments none depth rest).add [c]

/-- Digits with at most one point, which must have a digit behind it. -/
def spanNumeral : Bool → List Char → List Char
  | _, [] => []
  | pointSeen, c :: rest =>
    if c.isDigit then c :: spanNumeral pointSeen rest
    else if c = '.' ∧ !pointSeen ∧ rest.head?.any Char.isDigit then c :: spanNumeral true rest
    else []

/-- The number a numeral is written for. -/
def numeralValue (numeral : List Char) : Float :=
  let whole := numeral.takeWhile (· != '.')
  let decimals := (numeral.dropWhile (· != '.')).drop 1
  let digits := (whole ++ decimals).foldl (fun n c => 10 * n + (c.toNat - '0'.toNat)) 0
  Float.ofScientific digits true decimals.length

/-- The unit behind a numeral: a percent sign, a name, or none. -/
def spanUnit (rest : List Char) : List Char :=
  match rest with
  | '%' :: _ => ['%']
  | c :: _ => if isNameStart c then (spanName rest).1 else []
  | [] => []

/-! ## One token -/

/-- What stands at the front of a text. Each case holds the characters behind the first one that
were used. -/
inductive Scan where
  | token (kind : Kind) (more : List Char)
  /-- A comment that leaves no token. -/
  | skip (more : List Char)
  | fail (fault : SyntaxFault) (more : List Char)

/-- Functions whose argument is kept as text. -/
def rawFunctions : List String :=
  ["url", "calc", "var", "env", "expression", "-webkit-calc", "-moz-calc"]

/-- Whether a numeral begins here. -/
def startsNumeral : List Char → Bool
  | '.' :: c :: _ => c.isDigit
  | c :: _ => c.isDigit
  | [] => false

/-- A number whose numeral begins with `front` and goes on in `rest`. -/
def scanNumber (front rest : List Char) (negative : Bool) : Scan :=
  let more := spanNumeral (front.contains '.') rest
  let unit := spanUnit (rest.drop more.length)
  let value := numeralValue (front ++ more)
  .token (.number (if negative then -value else value) (String.ofList unit)) (more ++ unit)

/-- A word, or a function with a raw argument. A quoted `url` is an ordinary function. -/
def scanWord (first : Char) (rest : List Char) : Scan :=
  let escaped := if first = '\\' then rest.take 1 else []
  let more := escaped ++ (spanName (rest.drop escaped.length)).1
  let name := String.ofList (first :: more)
  let plain := Scan.token (.word name) more
  match rest.drop more.length with
  | '(' :: behind =>
    if rawFunctions.contains name.toLower then
      let quotedUrl := sameIgnoringCase name "url" &&
        (dropBlanks behind).head?.any fun c => c == '"' || c == '\''
      if quotedUrl then plain
      else
        let s := spanArguments none 0 behind
        if s.closed then
          .token (.rawCall name (String.ofList s.text)) (more ++ '(' :: s.text ++ [')'])
        else .fail (.unterminated "function arguments") (more ++ '(' :: s.text)
    else plain
  | _ => plain

/-- A mark, spelled with `more` behind its first character. -/
private def scanMark (m : Mark) (more : List Char) : Scan := .token (.mark m) more

/-- The token that begins with `first`. A dash begins a negative number only if `signed` allows it. -/
def scan (signed : Bool) (first : Char) (rest : List Char) : Scan :=
  if isBlank first then .token .blank (rest.takeWhile isBlank)
  else match first, rest with
  | '/', '/' :: _ => .skip (rest.takeWhile (· != '\n'))
  | '/', '*' :: behind =>
    let s := spanComment behind
    if s.closed then
      .token (.comment (String.ofList ('/' :: '*' :: s.text ++ ['*', '/'])))
        ('*' :: s.text ++ ['*', '/'])
    else .fail (.unterminated "comment") ('*' :: s.text)
  | '\x7b', _ => scanMark .openBrace []
  | '\x7d', _ => scanMark .closeBrace []
  | '(', _ => scanMark .openParen []
  | ')', _ => scanMark .closeParen []
  | '[', _ => scanMark .openBracket []
  | ']', _ => scanMark .closeBracket []
  | ':', _ => scanMark .colon []
  | ';', _ => scanMark .semicolon []
  | ',', _ => scanMark .comma []
  | '&', _ => scanMark .ampersand []
  | '~', _ => scanMark .tilde []
  | '+', _ => scanMark .plus []
  | '*', _ => scanMark .star []
  | '/', _ => scanMark .slash []
  | '%', _ => scanMark .percent []
  | '=', '=' :: _ => scanMark .equal ['=']
  | '!', '=' :: _ => scanMark .notEqual ['=']
  | '<', '=' :: _ => scanMark .lessEqual ['=']
  | '<', _ => scanMark .less []
  | '>', '=' :: _ => scanMark .greaterEqual ['=']
  | '>', _ => scanMark .greater []
  | '!', _ =>
    let blanks := rest.takeWhile isBlank
    let name := (spanName (rest.drop blanks.length)).1
    if name.isEmpty then .token (.stray '!') blanks
    else .token (.flag (String.ofList name).toLower) (blanks ++ name)
  | '"', _ | '\'', _ =>
    let s := spanQuoted first rest
    if s.closed then .token (.quoted (String.ofList s.text) first) (s.text ++ [first])
    else .fail (.unterminated "string") s.text
  | '#', '\x7b' :: _ => scanMark .interpolation ['\x7b']
  | '#', _ =>
    let name := (spanName rest).1
    if name.isEmpty then .token (.stray '#') [] else .token (.hash (String.ofList name)) name
  | '$', _ =>
    let name := (spanName rest).1
    if name.isEmpty then .fail (.expected "a variable name after '$'") []
    else .token (.variable (String.ofList name)) name
  | '@', _ =>
    let name := (spanName rest).1
    if name.isEmpty then .fail (.expected "a directive name after '@'") []
    else .token (.atWord (String.ofList name)) name
  | '-', _ =>
    if signed && startsNumeral rest then scanNumber [] rest true
    else if rest.head?.any fun c => isNameStart c || c == '-' then scanWord '-' rest
    else scanMark .minus []
  | '.', _ => if rest.head?.any Char.isDigit then scanNumber ['.'] rest false else scanMark .dot []
  | '\\', _ => scanWord '\\' rest
  | c, _ =>
    if c.isDigit then scanNumber [c] rest false
    else if isNameStart c then scanWord c rest
    else .token (.stray c) []

/-! ## All tokens -/

/-- The tokens of a text. `taken` characters in front belong to the token before them; `place` and
`offset` say where the first one behind those stands. -/
def readFrom (signed : Bool) (place : Position) (offset taken : Nat) :
    List Char → Except Failure (List Token)
  | [] => .ok [⟨.finish, place, offset, offset, ""⟩]
  | first :: rest =>
    match taken with
    | taken + 1 => readFrom signed place offset taken rest
    | 0 =>
      match scan signed first rest with
      | .token kind more => do
        let stop := offset + more.length + 1
        let token : Token := ⟨kind, place, offset, stop, String.ofList (first :: more)⟩
        let tokens ← readFrom (!kind.endsOperand) (place.after (first :: more)) stop more.length rest
        .ok (token :: tokens)
      | .skip more =>
        readFrom signed (place.after (first :: more)) (offset + more.length + 1) more.length rest
      | .fail fault more => .error (.parse (place.after (first :: more)) fault)

/-- The tokens of a text that begins at a position; a line or column of zero counts as one. The last
token is `finish`. -/
def read (text : String) (origin : Position) : Except Failure (List Token) :=
  readFrom true { origin with line := max origin.line 1, column := max origin.column 1 } 0 0
    text.toList

end Scss.Token
