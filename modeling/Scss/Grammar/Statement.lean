import Scss.Grammar.Expression
import Scss.Selector.Reader
import Scss.Stylesheet
import Scss.Value.Text

/-!
# Reading statements

A statement that reaches an opening brace before it ends is a rule or a group of properties; any
other is a declaration. Selectors, queries and preludes are kept as text with expressions in it.
-/

namespace Scss.Grammar

open Scss.Parser

/-! ## Looking ahead -/

/-- Whether the statement that begins here reaches an opening brace before it ends; `brackets` and
`interpolations` are open. -/
def opensBlock (brackets interpolations : Nat) : List Token → Bool
  | [] => false
  | t :: later =>
    match t.kind with
    | .mark .openParen | .mark .openBracket => opensBlock (brackets + 1) interpolations later
    | .mark .closeParen | .mark .closeBracket => opensBlock (brackets - 1) interpolations later
    | .mark .interpolation => opensBlock brackets (interpolations + 1) later
    | .mark .closeBrace =>
      if 0 < interpolations then opensBlock brackets (interpolations - 1) later
      else if brackets = 0 then false
      else opensBlock brackets interpolations later
    | .mark .openBrace => brackets == 0 || opensBlock brackets interpolations later
    | .mark .semicolon => brackets != 0 && opensBlock brackets interpolations later
    | .finish => false
    | _ => opensBlock brackets interpolations later

/-- Whether a group of properties begins here, as in `font: ...`, and not a rule like `a:hover`. -/
def opensGroup : List Token → Bool
  | ⟨.word _, _, _, _, _⟩ :: ⟨.mark .colon, _, _, _, _⟩ :: t :: _ =>
    match t.kind with
    | .blank | .mark .openBrace => true
    | _ => false
  | _ => false

/-! ## Where text ends -/

def atBrace : Token.Kind → Bool
  | .mark .openBrace => true
  | _ => false

def atColonOrEnd : Token.Kind → Bool
  | .mark .colon | .mark .semicolon | .mark .closeBrace => true
  | _ => false

def atEnd : Token.Kind → Bool
  | .mark .semicolon | .mark .closeBrace => true
  | _ => false

def atFlagOrEnd : Token.Kind → Bool
  | .mark .semicolon | .mark .closeBrace | .flag _ => true
  | _ => false

def atBraceOrEnd : Token.Kind → Bool
  | .mark .openBrace | .mark .semicolon | .mark .closeBrace => true
  | _ => false

/-! ## Pieces of statements -/

/-- Whether a value is followed by `!important`. -/
def important : Parser Bool := do
  discard skipBlanks
  match ← peek with
  | .flag "important" =>
    discard advance
    return true
  | .flag name => fail (.unexpected ("!" ++ name))
  | _ => return false

/-- Whether a variable is set only if it is unset, and whether it is set at the top level. `fuel`
bounds the number of flags. -/
def assignmentFlags : Nat → Bool → Bool → Parser (Bool × Bool)
  | 0, _, _ => exhausted
  | fuel + 1, ifUnset, isGlobal => do
    discard skipBlanks
    match ← peek with
    | .flag "default" =>
      discard advance
      assignmentFlags fuel true isGlobal
    | .flag "global" =>
      discard advance
      assignmentFlags fuel ifUnset true
    | .flag name => fail (.unknownFlag name)
    | _ => return (ifUnset, isGlobal)

/-- Selectors are read at once unless there are expressions in them. -/
def selectorSource (text : Interpolation) (position : Position) : Parser SelectorSource := do
  match Interpolation.plain? text with
  | some plain => return .parsed (← Selector.readList plain position)
  | none => return .interpolated text

/-- `$name: value` with its flags. -/
def assignment (fuel : Nat) (name : String) : Parser Node := do
  let t ← advance
  discard skipBlanks
  expect .colon "':' after variable name"
  discard skipBlanks
  let value ← valueList fuel
  let (ifUnset, isGlobal) ← assignmentFlags fuel false false
  endStatement
  return .mk t.position (.assignment name value ifUnset isGlobal)

/-- A property and its value. The value of a custom property is kept as text. -/
def declaration (fuel : Nat) : Parser Node := do
  let start ← token
  let name ← interpolationUntil fuel atColonOrEnd false
  if name.isEmpty then
    failAt start (.unexpected start.kind.describe)
  if !(← isAt .colon) then
    failAt start (.expected ("':' after property name \"" ++ Interpolation.text name ++ "\""))
  discard advance
  discard skipBlanks
  let isCustom := (Interpolation.plain? name).any fun n => Text.startsWith n "--"
  let value ← if isCustom then
      pure (Value.interpolated (← interpolationUntil fuel atEnd false) none)
    else
      valueList fuel
  let isImportant ← important
  endStatement
  return .mk start.position (.declaration name value isImportant)

/-- The parameters of a mixin or function behind its name; without parentheses there are none. -/
def signature (fuel : Nat) : Parser Signature := do
  discard skipBlanks
  if ← isAt .openParen then
    discard advance
    parameters fuel ⟨[], none⟩
  else
    return ⟨[], none⟩
where
  parameters : Nat → Signature → Parser Signature
    | 0, _ => exhausted
    | fuel + 1, s => do
      discard skipBlanks
      let t ← advance
      match t.kind with
      | .mark .closeParen => return s
      | .variable name =>
        let s ← parameter fuel s name
        discard skipBlanks
        let separator ← advance
        match separator.kind with
        | .mark .comma => parameters fuel s
        | .mark .closeParen => return s
        | _ => failExpected separator "',' or ')' in parameters"
      | _ => failExpected t "a parameter"
  parameter (fuel : Nat) (s : Signature) (name : String) : Parser Signature := do
    discard skipBlanks
    if ← isAt .colon then
      discard advance
      discard skipBlanks
      let default ← spaceExpression fuel []
      return { s with parameters := s.parameters ++ [⟨name, some default⟩] }
    else if ← takeEllipsis then
      return { s with rest := some name }
    else
      return { s with parameters := s.parameters ++ [⟨name, none⟩] }

/-- The targets of an `@import`, each of which becomes a statement of its own. -/
def importTargets : Nat → Parser (List Value)
  | 0 => exhausted
  | fuel + 1 => do
    discard skipBlanks
    let target ← match ← peek with
      | .quoted .. | .rawCall .. | .word _ => primary fuel
      | _ => failExpected (← token) "a file to import"
    discard skipBlanks
    if ← isAt .comma then
      discard advance
      return target :: (← importTargets fuel)
    else
      return [target]

def imports (fuel : Nat) (position : Position) : Parser (List Node) := do
  let targets ← importTargets fuel
  let media ← interpolationUntil fuel atEnd true
  endStatement
  let media := if media.isEmpty then none else some media
  return targets.map fun target => .mk position (.importFile target media)

/-- The variables of an `@each`. -/
def eachVariables : Nat → Parser (List String)
  | 0 => exhausted
  | fuel + 1 => do
    discard skipBlanks
    let t ← advance
    match t.kind with
    | .variable name =>
      discard skipBlanks
      if ← isAt .comma then
        discard advance
        return name :: (← eachVariables fuel)
      else
        return [name]
    | _ => failExpected t "a variable in @each"

/-- `@extend` behind its keyword, which is the token `t`. -/
def extend (fuel : Nat) (t : Token) : Parser Statement := do
  let target ← interpolationUntil fuel atFlagOrEnd false
  if target.isEmpty then
    failAt t (.expected "a selector after @extend")
  let isOptional ← match ← peek with
    | .flag "optional" =>
      discard advance
      pure true
    | .flag name => fail (.unexpectedIn ("!" ++ name) "@extend")
    | _ => pure false
  endStatement
  return .extend (← selectorSource target t.position) isOptional

/-- Properties of a group get the name of the group in front of theirs. -/
def nameInGroup (group : String) : Node → Node
  | .mk position (.declaration name value isImportant) =>
    .mk position (.declaration (.literal (group ++ "-") :: name) value isImportant)
  | node => node

/-! ## Statements -/

mutual

/-- The statements up to the end of the text, or up to and including the brace that closes them. -/
def statements (fuel : Nat) (nested : Bool) : Parser (List Node) :=
  match fuel with
  | 0 => exhausted
  | fuel + 1 => do
    skipSeparators
    let t ← token
    match t.kind with
    | .finish =>
      if nested then failAt t (.expected "'\x7d' before end of file") else return []
    | .mark .closeBrace =>
      if nested then
        discard advance
        return []
      else
        failAt t (.unexpected t.kind.describe)
    | .comment text =>
      discard advance
      return .mk t.position (.comment text) :: (← statements fuel nested)
    | .atWord name =>
      discard advance
      let nodes ← directive fuel name.toLower t
      return nodes ++ (← statements fuel nested)
    | kind =>
      let nodes ← match kind, (← get).colonFollows with
        | .variable name, true => do pure [← assignment fuel name]
        | _, _ => ruleOrDeclaration fuel
      return nodes ++ (← statements fuel nested)

def ruleOrDeclaration : Nat → Parser (List Node)
  | 0 => exhausted
  | fuel + 1 => do
    let tokens := (← get).tokens
    if !opensBlock 0 0 tokens then
      return [← declaration fuel]
    else if opensGroup tokens then
      group fuel
    else
      return [← rule fuel]

def rule : Nat → Parser Node
  | 0 => exhausted
  | fuel + 1 => do
    let start ← token
    let text ← interpolationUntil fuel atBrace false
    expect .openBrace "'\x7b' after selector"
    let selectors ← selectorSource text start.position
    return .mk start.position (.rule selectors (← statements fuel true))

/-- Properties that share the beginning of their name, and the property of that name if it has a
value. -/
def group : Nat → Parser (List Node)
  | 0 => exhausted
  | fuel + 1 => do
    let t ← advance
    let name := match t.kind with
      | .word name => name
      | _ => ""
    discard advance
    discard skipBlanks
    let own ← if ← isAt .openBrace then
        pure []
      else do
        let value ← valueList fuel
        let isImportant ← important
        discard skipBlanks
        pure [Node.mk t.position (.declaration [.literal name] value isImportant)]
    expect .openBrace "'\x7b' after nested property"
    let inner ← statements fuel true
    return own ++ inner.map (nameInGroup name)

/-- The block behind a directive that needs one. -/
def body (fuel : Nat) (directive : String) : Parser (List Node) :=
  match fuel with
  | 0 => exhausted
  | fuel + 1 => do
    discard skipBlanks
    expect .openBrace ("'\x7b' after " ++ directive)
    statements fuel true

/-- The branches behind the first one of an `@if`. -/
def otherBranches : Nat → Parser (List (Option Value × List Node))
  | 0 => exhausted
  | fuel + 1 => do
    let before ← get
    discard skipBlanks
    match ← peek with
    | .atWord name =>
      if name.toLower == "else" then
        discard advance
        discard skipBlanks
        match ← peek with
        | .word "if" =>
          discard advance
          discard skipBlanks
          let condition ← valueList fuel
          let children ← body fuel "@else if"
          return (some condition, children) :: (← otherBranches fuel)
        | _ => return [(none, ← body fuel "@else")]
      else
        set before
        return []
    | _ =>
      set before
      return []

/-- A block, or the end of a statement. -/
def optionalBlock : Nat → Parser (Option (List Node))
  | 0 => exhausted
  | fuel + 1 => do
    if ← isAt .openBrace then
      discard advance
      return some (← statements fuel true)
    else
      endStatement
      return none

/-- What a directive stands for; `t` is its keyword, over which the cursor has moved. -/
def directive (fuel : Nat) (name : String) (t : Token) : Parser (List Node) :=
  match fuel with
  | 0 => exhausted
  | fuel + 1 => do
    discard skipBlanks
    match name with
    | "charset" =>
      let value ← advance
      match value.kind with
      | .quoted text _ => modify fun c => { c with charset := some text }
      | _ => failExpected value "a string after @charset"
      endStatement
      return []
    | "import" => imports fuel t.position
    | "else" => failAt t .strayElse
    | _ => return [.mk t.position (← statement fuel name t)]

def statement (fuel : Nat) (name : String) (t : Token) : Parser Statement :=
  match fuel with
  | 0 => exhausted
  | fuel + 1 => do
    match name with
    | "media" =>
      let query ← interpolationUntil fuel atBraceOrEnd true
      return .media query (← body fuel "@media")
    | "extend" => extend fuel t
    | "mixin" =>
      let name ← expectName "a mixin name"
      let parameters ← signature fuel
      return .mixin name parameters (← body fuel "@mixin")
    | "include" =>
      let name ← expectName "a mixin name"
      discard skipBlanks
      let passed ← if ← isAt .openParen then do
          discard advance
          arguments fuel
        else
          pure []
      discard skipBlanks
      return .includeMixin name passed (← optionalBlock fuel)
    | "content" =>
      endStatement
      return .content
    | "function" =>
      let name ← expectName "a function name"
      let parameters ← signature fuel
      return .function name parameters (← body fuel "@function")
    | "return" =>
      let value ← valueList fuel
      endStatement
      return .returnValue value
    | "if" =>
      let condition ← valueList fuel
      let children ← body fuel "@if"
      return .branches ((some condition, children) :: (← otherBranches fuel))
    | "each" =>
      let names ← eachVariables fuel
      expectWord "in"
      discard skipBlanks
      let list ← valueList fuel
      return .eachLoop names list (← body fuel "@each")
    | "for" => forLoop fuel
    | "while" =>
      let condition ← valueList fuel
      return .whileLoop condition (← body fuel "@while")
    | "warn" => diagnostic fuel .warn
    | "debug" => diagnostic fuel .debug
    | "error" => diagnostic fuel .error
    | _ =>
      let prelude ← interpolationUntil fuel atBraceOrEnd false
      return .atRule name prelude (← optionalBlock fuel)

def forLoop : Nat → Parser Statement
  | 0 => exhausted
  | fuel + 1 => do
    let t ← advance
    match t.kind with
    | .variable counter =>
      discard skipBlanks
      expectWord "from"
      discard skipBlanks
      let start ← spaceExpression fuel ["through", "to"]
      discard skipBlanks
      let t ← advance
      let isInclusive ← match t.kind with
        | .word "through" => pure true
        | .word "to" => pure false
        | _ => failExpected t "'through' or 'to' in @for"
      discard skipBlanks
      let stop ← spaceExpression fuel []
      return .forLoop counter start stop isInclusive (← body fuel "@for")
    | _ => failExpected t "a variable in @for"

def diagnostic (fuel : Nat) (level : DiagnosticLevel) : Parser Statement :=
  match fuel with
  | 0 => exhausted
  | fuel + 1 => do
    let message ← valueList fuel
    endStatement
    return .diagnostic level message

end

end Grammar

/-- The stylesheet that a text is written for. -/
def Stylesheet.read (source uri : String) : Except Failure Stylesheet := do
  let tokens ← Token.read source (Position.start uri)
  let start := Cursor.ofTokens (Position.start uri) tokens
  let (body, stop) ← (Grammar.statements (Grammar.fuelFor source.length) false).run start
  return ⟨uri, stop.charset, body⟩

end Scss
