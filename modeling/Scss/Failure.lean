import Scss.Position

/-!
# What can go wrong

A compile fails for a cause, and the cause is a value: what is wrong with the text of a stylesheet
(`SyntaxFault`), what is wrong with its meaning (`EvaluationFault`), which limit was passed, or
what a file would not do. The wording of each cause stands in one place, its `message`.
-/

namespace Scss

/-- What is wrong with the text of one selector. -/
inductive SelectorFault where
  | consecutiveCombinators
  | trailingCombinator
  | empty
  | unexpected (c : Char)
  | parentNotFirst
  | missingCompound
  | missingName (kind : String)
  | missingClose (close : Char)
  deriving DecidableEq, Repr

def SelectorFault.message : SelectorFault → String
  | consecutiveCombinators => "Consecutive combinators"
  | trailingCombinator => "Trailing combinator"
  | empty => "Empty selector"
  | unexpected c => "Unexpected character '" ++ c.toString ++ "'"
  | parentNotFirst => "\"&\" may only be used at the beginning of a compound selector"
  | missingCompound => "Expected selector"
  | missingName kind => "Expected " ++ kind ++ " name"
  | missingClose close => "Expected '" ++ close.toString ++ "'"

/-- What is wrong with the text of a stylesheet. Tokens appear in it by their descriptions. -/
inductive SyntaxFault where
  /-- A string, comment or bracket runs to the end of the text. -/
  | unterminated (what : String)
  /-- Something is missing. -/
  | expected (what : String)
  /-- Something else stands where `what` belongs. -/
  | expectedNot (what found : String)
  /-- A token cannot stand here. -/
  | unexpected (found : String)
  /-- A token cannot stand in this kind of text. -/
  | unexpectedIn (found place : String)
  /-- A variable is declared with a flag that there is not. -/
  | unknownFlag (flag : String)
  /-- An `@else` without its `@if`. -/
  | strayElse
  /-- An item of a selector list is blank. -/
  | selectorList (text : String)
  | selector (fault : SelectorFault) (text : String)
  /-- An `@extend` of more than one compound. -/
  | nestedTarget (selector : String)
  deriving DecidableEq, Repr

def SyntaxFault.message : SyntaxFault → String
  | unterminated what => "Unterminated " ++ what
  | expected what => "Expected " ++ what
  | expectedNot what found => "Expected " ++ what ++ ", found " ++ found
  | unexpected found => "Unexpected " ++ found
  | unexpectedIn found place => "Unexpected " ++ found ++ " in " ++ place
  | unknownFlag flag => "Unknown flag !" ++ flag ++ " in variable declaration"
  | strayElse => "@else must follow an @if block"
  | selectorList text => "Invalid selector list \"" ++ text ++ "\""
  | selector fault text => fault.message ++ " in selector \"" ++ text ++ "\""
  | nestedTarget text =>
    "Nested selector not allowed in @extend-clause: \"" ++ text ++ "\""

/-- Why arguments do not fit a signature. -/
inductive BindingFault where
  | noParameter (name : String)
  | passedTwice (name : String)
  | positionalAfterNamed
  | tooMany (accepted passed : Nat)
  | missing (name : String)
  deriving DecidableEq, Repr

def BindingFault.message : BindingFault → String
  | noParameter name => "no argument named $" ++ name
  | passedTwice name => "argument $" ++ name ++ " was passed more than once"
  | positionalAfterNamed => "positional arguments must come before named arguments"
  | tooMany accepted passed =>
    "takes " ++ toString accepted ++ " argument(s) but " ++ toString passed ++ " were passed"
  | missing name => "missing argument $" ++ name

/-- Why a built-in function refuses an argument. Values appear by their text. -/
inductive ArgumentFault where
  | wrongType (parameter value expected : String)
  | notPercentage (value : String)
  | notUnitless (value : String)
  | notSeparator (value : String)
  | separatorNotText (value : String)
  | notIndex (value : String)
  | outOfRange (index : Int) (list : String)
  | notNumbers (value : String)
  | noArguments
  deriving DecidableEq, Repr

def ArgumentFault.message : ArgumentFault → String
  | wrongType parameter value expected => "$" ++ parameter ++ ": " ++ value ++ " is not a " ++ expected
  | notPercentage value => "$amount: expected a percentage, got " ++ value
  | notUnitless value => "$number: expected a unitless number, got " ++ value
  | notSeparator value => "$separator must be \"space\", \"comma\" or \"auto\", got " ++ value
  | separatorNotText value => "$separator must be a string, got " ++ value
  | notIndex value => "the index must be an integer, got " ++ value
  | outOfRange index list => "index " ++ toString index ++ " out of range for list " ++ list
  | notNumbers value => "the arguments must be numbers, got " ++ value
  | noArguments => "at least one argument is required"

/-- What is wrong with the meaning of a stylesheet. Values and operators appear by their text. -/
inductive EvaluationFault where
  | undefinedVariable (name : String)
  | undefinedMixin (name : String)
  | unexpectedInExpression (what : String)
  | missingOperand
  | undefinedOperation (left op right : String)
  | notComparable (left right : String)
  | incompatibleUnits (left right : String)
  | moduloByZero
  | divisionByZero
  | noReturn (function : String)
  | notInFunction
  | boundNotInteger (value : String)
  | boundOutOfRange (value : String)
  /-- The message of an `@error`. -/
  | raised (message : String)
  | callDepth (limit : Nat) (name : String)
  | binding (callee : String) (fault : BindingFault)
  | argument (callee : String) (fault : ArgumentFault)
  | declarationOutsideRule
  | returnOutsideFunction
  | extendOutsideRule
  | parentSuffix (suffix parent : String)
  deriving DecidableEq, Repr

def EvaluationFault.message : EvaluationFault → String
  | undefinedVariable name => "Undefined variable: $" ++ name
  | undefinedMixin name => "Undefined mixin: '" ++ name ++ "'"
  | unexpectedInExpression what => "Unexpected " ++ what ++ " in expression"
  | missingOperand => "Expected an operand at end of expression"
  | undefinedOperation left op right =>
    "Undefined operation: \"" ++ left ++ " " ++ op ++ " " ++ right ++ "\""
  | notComparable left right =>
    "Cannot compare " ++ left ++ " and " ++ right ++ ": both must be numbers"
  | incompatibleUnits left right => "Incompatible units: '" ++ left ++ "' and '" ++ right ++ "'"
  | moduloByZero => "Modulo by zero"
  | divisionByZero => "Division by zero"
  | noReturn function => "Function " ++ function ++ " finished without @return"
  | notInFunction =>
    "Functions can only contain variable declarations, control directives and @return"
  | boundNotInteger value => "@for bounds must be integers, got " ++ value
  | boundOutOfRange value => "@for bound " ++ value ++ " is out of range"
  | raised message => message
  | callDepth limit name =>
    "Maximum call depth (" ++ toString limit ++ ") exceeded calling '" ++ name ++ "'"
  | binding callee fault => callee ++ ": " ++ fault.message
  | argument callee fault => callee ++ ": " ++ fault.message
  | declarationOutsideRule =>
    "Properties are only allowed within rules, directives or other properties"
  | returnOutsideFunction => "@return may only be used within a function"
  | extendOutsideRule => "@extend may only be used within rules"
  | parentSuffix suffix parent =>
    "Invalid parent selector for suffix \"&" ++ suffix ++ "\": \"" ++ parent ++ "\""

/-- Why an import fails. -/
inductive ImportFault where
  | notFound (target importer : String) (line : Nat)
  | circular (uri : String)
  | unreadable (path reason : String)
  deriving DecidableEq, Repr

def ImportFault.message : ImportFault → String
  | notFound target importer line =>
    "File to import not found or unreadable: '" ++ target ++ "' (imported from " ++ importer ++
      " at line " ++ toString line ++ ")"
  | circular uri => "Circular import detected: '" ++ uri ++ "'"
  | unreadable path reason => "Cannot read '" ++ path ++ "': " ++ reason

/-- The resources that are bounded, apart from calls, which fail at a position. -/
inductive Limit where
  | imports
  | whileRounds
  | forRounds
  | extendedSelectors
  | nesting
  deriving DecidableEq, Repr

def Limit.name : Limit → String
  | imports => "import depth"
  | whileRounds => "@while iterations"
  | forRounds => "@for iterations"
  | extendedSelectors => "@extend selectors per rule"
  | nesting => "nesting"

/-- What is wrong with a setting, or with a run as a whole. -/
inductive SettingFault where
  | variableName (name : String)
  | urlMode (name : String)
  | definition (text : String)
  | jsonConfig
  | tomlConfig
  | configKind
  | filesWithErrors (count : Nat)
  deriving DecidableEq, Repr

def SettingFault.message : SettingFault → String
  | variableName name => "Invalid custom variable name '" ++ name ++ "'"
  | urlMode name =>
    "Unknown url mode '" ++ name ++ "' in config. Use absolute, relative or mixed."
  | definition text => "Invalid variable definition: " ++ text ++ ". Use NAME=VALUE format."
  | jsonConfig => "Invalid JSON config: these are no settings"
  | tomlConfig => "Invalid TOML config: these are no settings"
  | configKind => "Config file must be .json or .toml format"
  | filesWithErrors count => toString count ++ " file(s) have errors"

/-- Why a compile stops. -/
inductive Failure where
  | parse (position : Position) (fault : SyntaxFault)
  | compile (position : Position) (fault : EvaluationFault)
  | importing (fault : ImportFault)
  | limitExceeded (limit : Limit) (bound : Nat)
  | setting (fault : SettingFault)
  | fileNotFound (path reason : String)
  | inputOutput (reason : String)
  deriving DecidableEq, Repr

namespace Failure

/-- Where in a stylesheet the failure arose, if it arose in one. -/
def position? : Failure → Option Position
  | parse p _ | compile p _ => some p
  | _ => none

private def placed (stage : String) (p : Position) (message : String) : String :=
  stage ++ " error in " ++ p.uri ++ " at line " ++ toString p.line ++ ", column " ++
    toString p.column ++ ": " ++ message

/-- The whole message. -/
def message : Failure → String
  | parse p fault => placed "Parse" p fault.message
  | compile p fault => placed "Compile" p fault.message
  | importing fault => "Import error: " ++ fault.message
  | limitExceeded limit bound =>
    "Maximum limit exceeded: " ++ limit.name ++ " (limit: " ++ toString bound ++ ")"
  | setting fault => "Invalid format: " ++ fault.message
  | fileNotFound path reason => "File not found: " ++ path ++ ": " ++ reason
  | inputOutput reason => "IO error: " ++ reason

end Failure

end Scss
