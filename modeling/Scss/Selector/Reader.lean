import Scss.Failure
import Scss.Selector
import Scss.Text.Blank
import Scss.Text.Name

/-!
# Reading selectors

A selector list is cut at the commas outside brackets and strings, and each piece is read as one
selector. A number with a percent sign reads as the name of an element, so the blocks of keyframes
read like rules.
-/

namespace Scss.Selector

open Scss.Text

/-! ## Lists -/

/-- Whether a quote opens or closes a string here: the quote that is open behind `c`. -/
def quoteAfter (quote : Option Char) (c : Char) : Option Char :=
  match quote with
  | some q => if c = q then none else some q
  | none => if c = '"' ∨ c = '\'' then some c else none

/-- How a character outside strings changes the depth of brackets. -/
def bracketStep (c : Char) : Int :=
  if c = '(' ∨ c = '[' then 1 else if c = ')' ∨ c = ']' then -1 else 0

/-- The pieces of a text between the commas outside brackets and strings. -/
def splitList (quote : Option Char) (depth : Int) : List Char → List (List Char)
  | [] => [[]]
  | c :: rest =>
    if quote.isNone ∧ c = ',' ∧ depth = 0 then [] :: splitList none 0 rest
    else
      let deeper := if quote.isNone then depth + bracketStep c else depth
      match splitList (quoteAfter quote c) deeper rest with
      | [] => [[c]]
      | piece :: pieces => (c :: piece) :: pieces

/-! ## Simple selectors -/

/-- The text up to the bracket that closes one already open, and what follows it. Brackets in strings
do not count. -/
def spanBalanced (opening closing : Char) (quote : Option Char) (depth : Nat) :
    List Char → Option (List Char × List Char)
  | [] => none
  | c :: rest =>
    let go (quote : Option Char) (depth : Nat) : Option (List Char × List Char) :=
      (spanBalanced opening closing quote depth rest).map fun (inner, behind) => (c :: inner, behind)
    if quote.isSome || (quoteAfter quote c).isSome then go (quoteAfter quote c) depth
    else if c = opening then go none (depth + 1)
    else if c = closing then
      match depth with
      | 0 => some ([], rest)
      | depth + 1 => go none depth
    else go none depth

/-- What a reader of part of a selector answers: usually the part and the characters behind it. -/
abbrev Reading := Except SelectorFault

/-- A name that must not be empty. -/
def readName (kind : String) (rest : List Char) : Reading (String × List Char) :=
  let (name, behind) := spanName rest
  if name.isEmpty then .error (.missingName kind) else .ok (String.ofList name, behind)

/-- Bracketed text, trimmed, behind its opening bracket. -/
def readBalanced (opening closing : Char) (rest : List Char) : Reading (String × List Char) :=
  match spanBalanced opening closing none 0 rest with
  | some (inner, behind) => .ok (String.ofList (dropBlanksEnd (dropBlanks inner)), behind)
  | none => .error (.missingClose closing)

/-- The name of a pseudo-class or pseudo-element, and its argument. -/
def readPseudo (rest : List Char) : Reading ((String × Option String) × List Char) := do
  let (name, behind) ← readName "pseudo selector" rest
  match behind with
  | '(' :: inner =>
    let (argument, behind) ← readBalanced '(' ')' inner
    .ok ((name, some argument), behind)
  | _ => .ok ((name, none), behind)

/-- Whether a compound ends in front of a character. A blank outside ASCII does not end it, since
such a character can stand in a name. -/
def endsCompound (c : Char) : Bool :=
  (isBlank c && isAscii c) || c == '>' || c == '+' || c == '~'

/-- The simple selector that begins with `c`. -/
def readSimple (c : Char) (rest : List Char) : Reading (SimpleSelector × List Char) :=
  match c, rest with
  | '&', _ =>
    let (suffix, behind) := spanName rest
    .ok (.parent (if suffix.isEmpty then none else some (String.ofList suffix)), behind)
  | '*', _ => .ok (.universal, rest)
  | '.', _ => do
    let (name, behind) ← readName "class" rest
    .ok (.ofClass name, behind)
  | '#', _ => do
    let (name, behind) ← readName "id" rest
    .ok (.id name, behind)
  | '%', _ => do
    let (name, behind) ← readName "placeholder" rest
    .ok (.placeholder name, behind)
  | '[', _ => do
    let (test, behind) ← readBalanced '[' ']' rest
    .ok (.attribute test, behind)
  | ':', ':' :: element => do
    let ((name, argument), behind) ← readPseudo element
    .ok (.pseudoElement name argument, behind)
  | ':', _ => do
    let ((name, argument), behind) ← readPseudo rest
    .ok (.pseudoClass name argument, behind)
  | _, _ =>
    if isNameStart c || c == '-' || c.isDigit then
      match spanName (c :: rest) with
      | (name, '%' :: behind) => .ok (.element (String.ofList (name ++ ['%'])), behind)
      | (name, behind) => .ok (.element (String.ofList name), behind)
    else .error (.unexpected c)

/-! ## Compounds and chains -/

/-- The simple selectors of a compound, `parts` of which are read. `fuel` bounds how many follow. -/
def readParts : Nat → List SimpleSelector → List Char →
    Reading (List SimpleSelector × List Char)
  | fuel + 1, parts, c :: rest =>
    if endsCompound c then .ok (parts, c :: rest)
    else do
      let (part, behind) ← readSimple c rest
      if part.isParent && !parts.isEmpty then .error .parentNotFirst
      else readParts fuel (parts ++ [part]) behind
  | _, parts, rest => .ok (parts, rest)

def readCompound (rest : List Char) : Reading (Compound × List Char) := do
  let (parts, behind) ← readParts rest.length [] rest
  if parts.isEmpty then .error .missingCompound else .ok (Compound.ofList parts, behind)

def combinatorOf? (c : Char) : Option Combinator :=
  if c = '>' then some .child
  else if c = '+' then some .adjacent
  else if c = '~' then some .sibling
  else none

/-- The combinator of a segment for which `pending` was read; the first segment of a selector has
none for a mere space. -/
def segmentCombinator (isFirst : Bool) (pending : Option Combinator) : Option Combinator :=
  if isFirst then pending.filter (· != .descendant) else some (pending.getD .descendant)

/-- The segments of a selector behind those in `segments`, `pending` being the combinator read last.
`fuel` bounds how many segments and combinators follow. -/
def readSegments : Nat → List Segment → Option Combinator → List Char →
    Reading (List Segment)
  | fuel + 1, segments, pending, c :: rest =>
    match combinatorOf? c with
    | some combinator =>
      if pending.any (· != .descendant) then .error .consecutiveCombinators
      else readSegments fuel segments (some combinator) (dropBlanks rest)
    | none => do
      let (compound, behind) ← readCompound (c :: rest)
      let segment : Segment := ⟨segmentCombinator segments.isEmpty pending, compound⟩
      let spaced := behind.head?.any isBlank
      readSegments fuel (segments ++ [segment]) (if spaced then some .descendant else none)
        (dropBlanks behind)
  | _, segments, pending, _ =>
    if pending.any (· != .descendant) then .error .trailingCombinator
    else if segments.isEmpty then .error .empty
    else .ok segments

/-- One selector. -/
def ofChars (text : List Char) : Reading Selector :=
  (readSegments (text.length + 1) [] none (dropBlanks text)).map Selector.mk

/-- A list of selectors, which a message of a fault places at `position`. -/
def readList (text : String) (position : Position) : Except Failure (List Selector) :=
  (splitList none 0 text.toList).mapM fun piece =>
    let trimmed := dropBlanksEnd (dropBlanks piece)
    if trimmed.isEmpty then .error (.parse position (.selectorList (trim text)))
    else (ofChars trimmed).mapError fun fault =>
      .parse position (.selector fault (String.ofList trimmed))

end Scss.Selector
