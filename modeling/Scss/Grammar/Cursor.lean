import Scss.Failure
import Scss.Token

/-!
# Reading along a list of tokens

A `Cursor` stands on one token of a list and never leaves it: behind the last token it stays where
it is. A `Parser` moves the cursor and answers what it read, or fails at a token.
-/

namespace Scss

/-- How far reading has come: the token read next, those behind it, where the token before it ends,
and the character set declared so far. -/
structure Cursor where
  current : Token
  later : List Token
  previousStop : Option Nat
  charset : Option String

namespace Cursor

/-- A cursor on the first token; without tokens, at the end of an empty text. -/
def ofTokens (origin : Position) : List Token → Cursor
  | [] => ⟨⟨.finish, origin, 0, 0, ""⟩, [], none, none⟩
  | token :: later => ⟨token, later, none, none⟩

def tokens (c : Cursor) : List Token := c.current :: c.later

def advance (c : Cursor) : Cursor :=
  match c.current.kind, c.later with
  | .finish, _ => c
  | _, next :: later => { c with current := next, later, previousStop := some c.current.stop }
  | _, [] => c

/-- The cursor behind the tokens that satisfy a test. -/
def skip (test : Token.Kind → Bool) (c : Cursor) : Cursor :=
  go c.current c.previousStop c.later
where
  go (current : Token) (previousStop : Option Nat) : List Token → Cursor
    | [] => { c with current, previousStop, later := [] }
    | next :: later =>
      if test current.kind then go next (some current.stop) later
      else { c with current, previousStop, later := next :: later }

/-- Whether the current token touches the one before it. -/
def isAdjacent (c : Cursor) : Bool := c.previousStop == some c.current.start

/-- Whether the first token behind the current one that is not blank is a colon. -/
def colonFollows (c : Cursor) : Bool :=
  match c.later.find? fun t => !t.kind.isBlank with
  | some ⟨.mark .colon, _, _, _, _⟩ => true
  | _ => false

/-- Whether three dots stand here. -/
def atEllipsis (c : Cursor) : Bool :=
  match c.tokens with
  | ⟨.mark .dot, _, _, _, _⟩ :: ⟨.mark .dot, _, _, _, _⟩ :: ⟨.mark .dot, _, _, _, _⟩ :: _ => true
  | _ => false

end Cursor

/-- A reader of tokens. -/
abbrev Parser := StateT Cursor (Except Failure)

namespace Parser

def peek : Parser Token.Kind := do return (← get).current.kind

def token : Parser Token := do return (← get).current

/-- The current token, which the cursor moves over. -/
def advance : Parser Token := do
  let c ← get
  set c.advance
  return c.current

/-- Moves over blanks and comments, and tells whether there were any. -/
def skipBlanks : Parser Bool := do
  let c ← get
  set (c.skip Token.Kind.isBlank)
  return c.current.kind.isBlank

/-- Moves over what may stand between two statements. -/
def skipSeparators : Parser Unit :=
  modify fun c => c.skip fun
    | .blank | .mark .semicolon => true
    | _ => false

def failAt {α : Type} (t : Token) (fault : SyntaxFault) : Parser α :=
  throw (.parse t.position fault)

def fail {α : Type} (fault : SyntaxFault) : Parser α := do failAt (← token) fault

/-- Fails because the token at hand is not what belongs here. -/
def failExpected {α : Type} (t : Token) (what : String) : Parser α :=
  failAt t (.expectedNot what t.kind.describe)

/-- Text nested beyond all bounds; a bound taken from the length of the text is never reached. -/
def exhausted {α : Type} : Parser α := throw (.limitExceeded .nesting 0)

def isAt (m : Mark) : Parser Bool := do
  match ← peek with
  | .mark n => return m == n
  | _ => return false

/-- Moves over a mark, or fails for lack of `what`. -/
def expect (m : Mark) (what : String) : Parser Unit := do
  if ← isAt m then
    discard advance
  else
    failExpected (← token) what

/-- Moves over blanks and then a word, which `what` names in messages. -/
def expectName (what : String) : Parser String := do
  discard skipBlanks
  let t ← advance
  match t.kind with
  | .word name => return name
  | _ => failExpected t what

/-- Moves over one particular word. -/
def expectWord (word : String) : Parser Unit := do
  let t ← advance
  match t.kind with
  | .word name => if name == word then return else failExpected t ("'" ++ word ++ "'")
  | _ => failExpected t ("'" ++ word ++ "'")

/-- Moves over the end of a statement: a semicolon, or nothing in front of a closing brace. -/
def endStatement : Parser Unit := do
  discard skipBlanks
  match ← peek with
  | .mark .semicolon => discard advance
  | .mark .closeBrace | .finish => return
  | _ => failExpected (← token) "';'"

/-- Moves over three dots, if they stand here. -/
def takeEllipsis : Parser Bool := do
  if (← get).atEllipsis then
    discard advance
    discard advance
    discard advance
    return true
  else
    return false

end Parser

end Scss
