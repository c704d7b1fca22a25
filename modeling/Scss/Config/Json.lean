import Scss.Config.Datum

/-!
# Configuration in JSON

The grammar is that of RFC 8259. Each reader answers what it has read and the rest of the text.
An escaped character outside the basic plane is written as a surrogate pair; half a pair is
accepted, but makes no text.
-/

namespace Scss.Config.Json

def isSpace (c : Char) : Bool := c == ' ' || c == '\n' || c == '\t' || c == '\r'

def skipSpace (text : List Char) : List Char := text.dropWhile isSpace

/-! ## Strings -/

/-- What a character stands for behind a backslash. -/
def escape? : Char → Option Char
  | '"' => some '"'
  | '\\' => some '\\'
  | '/' => some '/'
  | 'b' => some '\x08'
  | 'f' => some '\x0c'
  | 'n' => some '\n'
  | 'r' => some '\r'
  | 't' => some '\t'
  | _ => none

/-- A string behind its opening quote, as numbers of characters and surrogates. -/
def units : List Char → Option (List Nat × List Char)
  | [] => none
  | '"' :: rest => some ([], rest)
  | '\\' :: 'u' :: a :: b :: c :: d :: rest => do
    let unit ← hexNumber? [a, b, c, d]
    let (more, rest) ← units rest
    return (unit :: more, rest)
  | '\\' :: c :: rest => do
    let escaped ← escape? c
    let (more, rest) ← units rest
    return (escaped.toNat :: more, rest)
  | c :: rest => do
    if c.toNat < 0x20 ∨ c = '\\' then none
    let (more, rest) ← units rest
    return (c.toNat :: more, rest)

/-- The characters of numbers, surrogates taken in pairs. -/
def ofUnits : List Nat → Option (List Char)
  | [] => some []
  | high :: low :: rest =>
    if 0xD800 ≤ high ∧ high < 0xDC00 ∧ 0xDC00 ≤ low ∧ low < 0xE000 then do
      return (← scalar? (0x10000 + (high - 0xD800) * 0x400 + (low - 0xDC00))) :: (← ofUnits rest)
    else do return (← scalar? high) :: (← ofUnits (low :: rest))
  | [unit] => do return [← scalar? unit]

/-- A string behind its opening quote; no text if it has half of a surrogate pair. -/
def string (text : List Char) : Option (Option String × List Char) := do
  let (us, rest) ← units text
  return ((ofUnits us).map String.ofList, rest)

/-! ## Numbers -/

/-- One or more digits. -/
def digits (text : List Char) : Option (List Char) :=
  if text.head?.any Char.isDigit then some (text.dropWhile Char.isDigit) else none

def whole : List Char → Option (List Char)
  | '0' :: rest => if rest.head?.any Char.isDigit then none else some rest
  | text => digits text

def fraction : List Char → Option (List Char)
  | '.' :: rest => digits rest
  | text => some text

def exponent : List Char → Option (List Char)
  | e :: rest =>
    if e = 'e' ∨ e = 'E' then
      match rest with
      | '+' :: rest | '-' :: rest => digits rest
      | _ => digits rest
    else some (e :: rest)
  | [] => some []

/-- What stands behind a number. -/
def number (text : List Char) : Option (List Char) := do
  exponent (← fraction (← whole (if text.head? = some '-' then text.drop 1 else text)))

/-! ## Values -/

mutual

def value : (fuel : Nat) → List Char → Option (Datum × List Char)
  | 0, _ => none
  | fuel + 1, text =>
    match skipSpace text with
    | '"' :: rest => do
      let (content, rest) ← string rest
      return (content.elim .other .text, rest)
    | '[' :: rest => do
      match skipSpace rest with
      | ']' :: rest => return (.list [], rest)
      | rest =>
        let (found, rest) ← items fuel rest
        return (.list found, rest)
    | '\x7b' :: rest => do
      match skipSpace rest with
      | '\x7d' :: rest => return (.table [], rest)
      | rest =>
        let (found, rest) ← entries fuel rest
        return (.table found, rest)
    | 'n' :: 'u' :: 'l' :: 'l' :: rest => some (.null, rest)
    | 't' :: 'r' :: 'u' :: 'e' :: rest => some (.other, rest)
    | 'f' :: 'a' :: 'l' :: 's' :: 'e' :: rest => some (.other, rest)
    | text => do return (.other, ← number text)

/-- The items of a list up to its end. -/
def items : (fuel : Nat) → List Char → Option (List Datum × List Char)
  | 0, _ => none
  | fuel + 1, text => do
    let (first, rest) ← value fuel text
    match skipSpace rest with
    | ']' :: rest => return ([first], rest)
    | ',' :: rest =>
      let (more, rest) ← items fuel rest
      return (first :: more, rest)
    | _ => none

/-- The entries of a table up to its end. -/
def entries : (fuel : Nat) → List Char → Option (List (Option String × Datum) × List Char)
  | 0, _ => none
  | fuel + 1, text => do
    let '"' :: rest := skipSpace text | none
    let (key, rest) ← string rest
    let ':' :: rest := skipSpace rest | none
    let (content, rest) ← value fuel rest
    match skipSpace rest with
    | '\x7d' :: rest => return ([(key, content)], rest)
    | ',' :: rest =>
      let (more, rest) ← entries fuel rest
      return ((key, content) :: more, rest)
    | _ => none

end

/-- The value that a text is JSON of. Every reader but the last takes a character before it calls
another, so twice the length is enough fuel. -/
def read (text : String) : Option Datum := do
  let (content, rest) ← value (2 * text.length + 1) text.toList
  if (skipSpace rest).isEmpty then return content else none

end Scss.Config.Json
