import Scss.Config.Datum
import Scss.Text.Split

/-!
# Configuration in TOML

A document is a sequence of lines: entries, and headers that say which table the entries behind
them belong to. Reading takes a line at a time; `Table.insert` and its like then keep the rule that
every table is defined in one place: by one header, or by the dotted keys of one table.
-/

namespace Scss.Config.Toml

/-! ## Tables under construction -/

/-- How a table came to be. -/
inductive Origin where
  /-- It has its own header. -/
  | header
  /-- It is on the way to a table with a header. -/
  | implied
  /-- It is on the way to an entry with a dotted key. -/
  | dotted
  deriving DecidableEq, Repr

inductive Item where
  | value (content : Datum)
  | table (origin : Origin) (entries : List (String × Item))
  /-- Tables that share one header, the last one first. -/
  | tables (all : List (List (String × Item)))

instance : Inhabited Item := ⟨.table .header []⟩

abbrev Table := List (String × Item)

mutual

def Item.datum : Item → Datum
  | .value content => content
  | .table _ entries => .table (data entries)
  | .tables all => .list (listed all).reverse

def data : List (String × Item) → List (Option String × Datum)
  | [] => []
  | (key, item) :: rest => (some key, item.datum) :: data rest

def listed : List (List (String × Item)) → List Datum
  | [] => []
  | entries :: rest => .table (data entries) :: listed rest

end

/-- Changes the table that a path leads to; tables missing on the way arise from `origin`. A dotted
key passes only through tables that have no header. -/
def changeAt (origin : Origin) (change : Origin → Table → Option Table) :
    List String → Origin → Table → Option Table
  | [], from_, entries => change from_ entries
  | key :: path, _, entries =>
    match Entries.get? key entries with
    | none => do
      let made ← changeAt origin change path origin []
      return Entries.put key (.table origin made) entries
    | some (.value _) => none
    | some (.table from_ inner) => do
      if origin = .dotted ∧ from_ = .header then none
      let changed ← changeAt origin change path from_ inner
      return Entries.put key (.table from_ changed) entries
    | some (.tables []) => none
    | some (.tables (last :: outer)) => do
      let changed ← changeAt origin change path .header last
      return Entries.put key (.tables (changed :: outer)) entries

/-- Adds an entry under a dotted key. Its table is the one at hand or one that only dotted keys
lead to. -/
def insert (key : List String) (content : Datum) (entries : Table) : Option Table :=
  match key.reverse with
  | [] => none
  | name :: outer =>
    changeAt .dotted (fun origin found =>
      if (!outer.isEmpty && origin != .dotted) || Entries.has name found then none
      else some (found ++ [(name, .value content)])) outer.reverse .header entries

/-- Opens the table of a header. Only a table on the way to another may be there already. -/
def openTable (header : List String) (entries : Table) : Option Table :=
  match header.reverse with
  | [] => none
  | name :: outer =>
    changeAt .implied (fun _ found =>
      match Entries.get? name found with
      | none => some (found ++ [(name, .table .header [])])
      | some (.table .implied inner) => some (Entries.put name (.table .header inner) found)
      | some _ => none) outer.reverse .header entries

/-- Begins one more table under the header of many. -/
def openTables (header : List String) (entries : Table) : Option Table :=
  match header.reverse with
  | [] => none
  | name :: outer =>
    changeAt .implied (fun _ found =>
      match Entries.get? name found with
      | none => some (found ++ [(name, .tables [[]])])
      | some (.tables all) => some (Entries.put name (.tables ([] :: all)) found)
      | some _ => none) outer.reverse .header entries

/-- Adds an entry to the table of a header. -/
def insertUnder (header key : List String) (content : Datum) (entries : Table) : Option Table :=
  changeAt .implied (fun _ found => insert key content found) header .header entries

/-! ## Characters and blanks -/

def isSpace (c : Char) : Bool := c == ' ' || c == '\t'

/-- Whether a character can stand in a comment or a string: a control character other than a tab
cannot. -/
def isPrintable (c : Char) : Bool := c == '\t' || (0x20 ≤ c.toNat && c.toNat != 0x7F)

def skipSpace (text : List Char) : List Char := text.dropWhile isSpace

/-- The text without a comment in front. -/
def skipComment : List Char → List Char
  | '#' :: rest => rest.dropWhile isPrintable
  | text => text

/-- The text behind a line break in front. -/
def newline? : List Char → Option (List Char)
  | '\n' :: rest => some rest
  | '\r' :: '\n' :: rest => some rest
  | _ => none

/-- The text behind the end of a line: blanks, a comment, and a line break or the end. -/
def endLine (text : List Char) : Option (List Char) :=
  match skipComment (skipSpace text) with
  | [] => some []
  | rest => newline? rest

/-- The text without blanks, comments and line breaks in front. -/
def skipLines : (fuel : Nat) → List Char → List Char
  | 0, text => text
  | fuel + 1, text =>
    let rest := skipComment (skipSpace text)
    match newline? rest with
    | some rest => skipLines fuel rest
    | none => rest

/-! ## Strings -/

/-- What a character stands for behind a backslash. -/
def escape? : Char → Option Char
  | 'b' => some '\x08'
  | 't' => some '\t'
  | 'n' => some '\n'
  | 'f' => some '\x0c'
  | 'r' => some '\r'
  | '"' => some '"'
  | '\\' => some '\\'
  | _ => none

/-- The character that an escape stands for, behind its backslash. -/
def escaped : List Char → Option (Char × List Char)
  | 'u' :: rest => do
    if rest.length < 4 then none
    return (← scalar? (← hexNumber? (rest.take 4)), rest.drop 4)
  | 'U' :: rest => do
    if rest.length < 8 then none
    return (← scalar? (← hexNumber? (rest.take 8)), rest.drop 8)
  | c :: rest => do return (← escape? c, rest)
  | [] => none

/-- A string behind its opening quote. -/
def basicString : (fuel : Nat) → List Char → Option (List Char × List Char)
  | 0, _ => none
  | _, [] => none
  | _, '"' :: rest => some ([], rest)
  | fuel + 1, '\\' :: rest => do
    let (c, rest) ← escaped rest
    let (more, rest) ← basicString fuel rest
    return (c :: more, rest)
  | fuel + 1, c :: rest => do
    if !isPrintable c then none
    let (more, rest) ← basicString fuel rest
    return (c :: more, rest)

/-- A string without escapes, behind its opening quote. -/
def literalString (text : List Char) : Option (List Char × List Char) :=
  let content := text.takeWhile fun c => isPrintable c && c != '\''
  match text.drop content.length with
  | '\'' :: rest => some (content, rest)
  | _ => none

/-- The end of a string in three quotes: up to two more quotes belong to the string. -/
def closing (quote : Char) (text : List Char) : Option (List Char × List Char) :=
  let quotes := text.takeWhile (· == quote)
  if 3 ≤ quotes.length then
    let inside := min 2 (quotes.length - 3)
    some (quotes.take inside, text.drop (inside + 3))
  else none

/-- A string of several lines behind its opening quotes. A backslash at the end of a line joins it
to the next character that is not blank. -/
def longBasicString : (fuel : Nat) → List Char → Option (List Char × List Char)
  | 0, _ => none
  | fuel + 1, text =>
    match closing '"' text with
    | some done => some done
    | none =>
      match text with
      | [] => none
      | '\\' :: rest =>
        match newline? (skipSpace rest) with
        | some rest => longBasicString fuel (rest.dropWhile fun c => isSpace c || c == '\n' || c == '\r')
        | none => do
          let (c, rest) ← escaped rest
          let (more, rest) ← longBasicString fuel rest
          return (c :: more, rest)
      | c :: rest =>
        match newline? (c :: rest) with
        | some rest => do
          let (more, rest) ← longBasicString fuel rest
          return ('\n' :: more, rest)
        | none => do
          if !isPrintable c then none
          let (more, rest) ← longBasicString fuel rest
          return (c :: more, rest)

/-- A string of several lines without escapes, behind its opening quotes. -/
def longLiteralString : (fuel : Nat) → List Char → Option (List Char × List Char)
  | 0, _ => none
  | fuel + 1, text =>
    match closing '\'' text with
    | some done => some done
    | none =>
      match text with
      | [] => none
      | c :: rest =>
        match newline? (c :: rest) with
        | some rest => do
          let (more, rest) ← longLiteralString fuel rest
          return ('\n' :: more, rest)
        | none => do
          if !isPrintable c then none
          let (more, rest) ← longLiteralString fuel rest
          return (c :: more, rest)

/-- The text behind a line break, if there is one in front. -/
def dropNewline (text : List Char) : List Char := (newline? text).getD text

/-- A string of any kind. -/
def string : List Char → Option (List Char × List Char)
  | '"' :: '"' :: '"' :: rest => longBasicString (rest.length + 1) (dropNewline rest)
  | '\'' :: '\'' :: '\'' :: rest => longLiteralString (rest.length + 1) (dropNewline rest)
  | '"' :: rest => basicString (rest.length + 1) rest
  | '\'' :: rest => literalString rest
  | _ => none

/-! ## Keys -/

def isBareKeyChar (c : Char) : Bool := c.isAlphanum || c == '_' || c == '-'

def simpleKey (text : List Char) : Option (String × List Char) :=
  match text with
  | '"' :: rest => do
    let (key, rest) ← basicString (rest.length + 1) rest
    return (String.ofList key, rest)
  | '\'' :: rest => do
    let (key, rest) ← literalString rest
    return (String.ofList key, rest)
  | _ =>
    let key := text.takeWhile isBareKeyChar
    if key.isEmpty then none else some (String.ofList key, text.drop key.length)

/-- Keys parted by dots. -/
def dottedKey : (fuel : Nat) → List Char → Option (List String × List Char)
  | 0, _ => none
  | fuel + 1, text => do
    let (first, rest) ← simpleKey (skipSpace text)
    match skipSpace rest with
    | '.' :: rest =>
      let (more, rest) ← dottedKey fuel rest
      return (first :: more, rest)
    | rest => return ([first], rest)

/-! ## Numbers and times -/

/-- Digits that may be parted by single underscores. -/
def isDigitRun (isDigit : Char → Bool) (text : List Char) : Bool :=
  (Text.splitAt '_' text).all fun run => !run.isEmpty && run.all isDigit

/-- A text without the sign in front. -/
def dropSign : List Char → List Char
  | '+' :: rest | '-' :: rest => rest
  | text => text

def isWholePart (text : List Char) : Bool :=
  isDigitRun Char.isDigit text && (text.length == 1 || text.head? != some '0')

/-- The number that the digits of a base stand for, underscores left out. -/
def inBase (base : Nat) (text : List Char) : Nat :=
  text.foldl (fun n c => if c = '_' then n else base * n + (hexDigit? c).getD 0) 0

/-- Whether a text is a whole number of 64 bits. -/
def isInteger (text : List Char) : Bool :=
  let based (base : Nat) (digits : List Char) : Bool :=
    isDigitRun (fun c => (hexDigit? c).any (· < base)) digits && inBase base digits < Nat.pow 2 63
  match text with
  | '0' :: 'x' :: digits => based 16 digits
  | '0' :: 'o' :: digits => based 8 digits
  | '0' :: 'b' :: digits => based 2 digits
  | _ =>
    let bound := if text.head? = some '-' then Nat.pow 2 63 + 1 else Nat.pow 2 63
    isWholePart (dropSign text) && inBase 10 (dropSign text) < bound

/-- Whether a text is a number with a fraction or an exponent. -/
def isDecimal (text : List Char) : Bool :=
  let unsigned := dropSign text
  if unsigned == ['i', 'n', 'f'] || unsigned == ['n', 'a', 'n'] then true
  else
    let mantissa := unsigned.takeWhile fun c => c != 'e' && c != 'E'
    let power := unsigned.drop mantissa.length
    let whole := mantissa.takeWhile (· != '.')
    let fraction := mantissa.drop whole.length
    isWholePart whole && (!fraction.isEmpty || !power.isEmpty) &&
      (fraction.isEmpty || isDigitRun Char.isDigit (fraction.drop 1)) &&
      (power.isEmpty || isDigitRun Char.isDigit (dropSign (power.drop 1)))

/-- The number of a text of `width` digits, if it lies between two bounds. -/
def field? (width low high : Nat) (text : List Char) : Option (Nat × List Char) :=
  let digits := text.take width
  let n := inBase 10 digits
  if digits.length = width ∧ digits.all Char.isDigit ∧ low ≤ n ∧ n ≤ high then
    some (n, text.drop width)
  else none

def daysInMonth (year month : Nat) : Nat :=
  if month = 2 then
    if year % 4 = 0 ∧ (year % 100 ≠ 0 ∨ year % 400 = 0) then 29 else 28
  else if month = 4 ∨ month = 6 ∨ month = 9 ∨ month = 11 then 30
  else 31

/-- What stands behind a day. -/
def day? (text : List Char) : Option (List Char) := do
  let (year, rest) ← field? 4 0 9999 text
  let '-' :: rest := rest | none
  let (month, rest) ← field? 2 1 12 rest
  let '-' :: rest := rest | none
  let (_, rest) ← field? 2 1 (daysInMonth year month) rest
  return rest

/-- What stands behind a time of day. -/
def timeOfDay? (text : List Char) : Option (List Char) := do
  let (_, rest) ← field? 2 0 23 text
  let ':' :: rest := rest | none
  let (_, rest) ← field? 2 0 59 rest
  let ':' :: rest := rest | none
  let (_, rest) ← field? 2 0 60 rest
  match rest with
  | '.' :: rest =>
    if rest.head?.any Char.isDigit then return rest.dropWhile Char.isDigit else none
  | rest => return rest

/-- Whether a text is a difference to universal time, or nothing. -/
def isOffset : List Char → Bool
  | [] | ['Z'] | ['z'] => true
  | sign :: rest =>
    (sign == '+' || sign == '-') &&
      match field? 2 0 23 rest with
      | some (_, ':' :: rest) => (field? 2 0 59 rest).any fun r => r.2.isEmpty
      | _ => false

/-- Whether a text is a day, a time of day, or both. -/
def isTime (text : List Char) : Bool :=
  match day? text with
  | some [] => true
  | some (mark :: rest) =>
    (mark == 'T' || mark == 't' || mark == ' ') && (timeOfDay? rest).any isOffset
  | none => timeOfDay? text == some []

/-- Whether a character can stand in a number or a time. -/
def isNumberChar (c : Char) : Bool :=
  c.isAlphanum || c == '+' || c == '-' || c == '_' || c == '.' || c == ':'

/-- The text behind a number or a time. A day and a time of day may be parted by a blank. -/
def number? (text : List Char) : Option (List Char) :=
  let first := text.takeWhile isNumberChar
  let rest := text.drop first.length
  let second := (rest.drop 1).takeWhile isNumberChar
  if (day? first) == some [] && rest.head? == some ' ' && second.head?.any Char.isDigit then
    if isTime (first ++ ' ' :: second) then some (rest.drop (second.length + 1)) else none
  else if isInteger first || isDecimal first || isTime first then some rest
  else none

/-! ## Values -/

mutual

def value : (fuel : Nat) → List Char → Option (Datum × List Char)
  | 0, _ => none
  | fuel + 1, text =>
    match text with
    | '"' :: _ | '\'' :: _ => do
      let (content, rest) ← string text
      return (.text (String.ofList content), rest)
    | '[' :: rest => do
      let (found, rest) ← items fuel rest
      return (.list found, rest)
    | '\x7b' :: rest =>
      match skipSpace rest with
      | '\x7d' :: rest => some (.table [], rest)
      | rest => do
        let (found, rest) ← entries fuel [] rest
        return ((Item.table .header found).datum, rest)
    | 't' :: 'r' :: 'u' :: 'e' :: rest => some (.other, rest)
    | 'f' :: 'a' :: 'l' :: 's' :: 'e' :: rest => some (.other, rest)
    | text => do return (.other, ← number? text)

/-- The items of a list up to its end; there may be a comma behind the last one. -/
def items : (fuel : Nat) → List Char → Option (List Datum × List Char)
  | 0, _ => none
  | fuel + 1, text =>
    match skipLines (text.length + 1) text with
    | ']' :: rest => some ([], rest)
    | text => do
      let (first, rest) ← value fuel text
      match skipLines (rest.length + 1) rest with
      | ']' :: rest => return ([first], rest)
      | ',' :: rest =>
        let (more, rest) ← items fuel rest
        return (first :: more, rest)
      | _ => none

/-- The entries of a table in braces up to its end, added to those before. -/
def entries : (fuel : Nat) → Table → List Char → Option (Table × List Char)
  | 0, _, _ => none
  | fuel + 1, found, text => do
    let (key, rest) ← dottedKey (text.length + 1) text
    let '=' :: rest := rest | none
    let (content, rest) ← value fuel (skipSpace rest)
    let found ← insert key content found
    match skipSpace rest with
    | '\x7d' :: rest => return (found, rest)
    | ',' :: rest => entries fuel found rest
    | _ => none

end

/-! ## Documents -/

/-- The lines of a document, added to the table so far; `header` is the path of the table at
hand. -/
def lines : (fuel : Nat) → (header : List String) → Table → List Char → Option Table
  | 0, _, _, _ => none
  | fuel + 1, header, found, text =>
    match skipLines (text.length + 1) text with
    | [] => some found
    | '[' :: '[' :: rest => do
      let (header, rest) ← dottedKey (rest.length + 1) rest
      let ']' :: ']' :: rest := rest | none
      lines fuel header (← openTables header found) (← endLine rest)
    | '[' :: rest => do
      let (header, rest) ← dottedKey (rest.length + 1) rest
      let ']' :: rest := rest | none
      lines fuel header (← openTable header found) (← endLine rest)
    | text => do
      let (key, rest) ← dottedKey (text.length + 1) text
      let '=' :: rest := rest | none
      let (content, rest) ← value (2 * rest.length + 1) (skipSpace rest)
      lines fuel header (← insertUnder header key content found) (← endLine rest)

/-- The table that a text is TOML of. A byte order mark in front does not count. -/
def read (text : String) : Option Datum := do
  let text := match text.toList with
    | '\uFEFF' :: rest => rest
    | all => all
  let found ← lines (text.length + 1) [] [] text
  return (Item.table .header found).datum

end Scss.Config.Toml
