/-!
# Arguments of a command line

An interface says which options a command has, how many operands it takes and which subcommands
end it. Arguments are read from left to right: an option is known by a long name behind two dashes
or a letter behind one, letters can share a dash, and a value stands in the same argument or in the
next one. Behind `--` everything is an operand.
-/

namespace Scss.CommandLine

/-- How often an option can stand, and whether it has a value. -/
inductive OptionKind where
  /-- No value, once. -/
  | switch
  /-- No value, any number of times. -/
  | counted
  /-- A value, once; one of some if there are any listed. -/
  | single (choices : List String)
  /-- A value, any number of times. -/
  | repeated
  deriving DecidableEq, Repr

def OptionKind.hasValue : OptionKind → Bool
  | switch | counted => false
  | single _ | repeated => true

structure OptionSpec where
  name : String
  letter : Option Char
  kind : OptionKind
  deriving DecidableEq, Repr

/-- What a command understands. -/
structure Interface where
  options : List OptionSpec
  /-- The name of the one operand, if the command takes one. -/
  operand : Option String
  subcommands : List String
  /-- Whether the command tells its version. -/
  versioned : Bool

/-- What is wrong with arguments. -/
inductive UsageFault where
  | unexpected (argument : String)
  | missingValue (option : String)
  | unwantedValue (option : String)
  | badValue (option value : String)
  | repeated (option : String)
  | missingOperand (name : String)
  deriving DecidableEq, Repr

def UsageFault.message : UsageFault → String
  | unexpected argument => "unexpected argument '" ++ argument ++ "'"
  | missingValue option => "a value is required for '--" ++ option ++ "'"
  | unwantedValue option => "'--" ++ option ++ "' takes no value"
  | badValue option value => "invalid value '" ++ value ++ "' for '--" ++ option ++ "'"
  | repeated option => "'--" ++ option ++ "' cannot be used multiple times"
  | missingOperand name => "'" ++ name ++ "' is required"

/-- Why reading arguments ends before the last one. -/
inductive Stop where
  | help
  | version
  | misuse (fault : UsageFault)
  deriving DecidableEq, Repr

/-- What arguments give: options by their names, in order, and the operand. -/
structure Found where
  options : List (String × String)
  operand : Option String
  deriving DecidableEq, Repr

namespace Found

def none : Found := ⟨[], .none⟩

def has (f : Found) (name : String) : Bool := f.options.any (·.1 == name)

/-- The values given for an option. -/
def values (f : Found) (name : String) : List String :=
  (f.options.filter (·.1 == name)).map Prod.snd

def value? (f : Found) (name : String) : Option String := (f.values name).head?

/-- Adds an option, unless it stood already and can stand only once, or its value is not among its
choices. -/
def add (f : Found) (option : OptionSpec) (value : String) : Except Stop Found :=
  let added : Found := { f with options := f.options ++ [(option.name, value)] }
  match option.kind with
  | .counted | .repeated => .ok added
  | .switch => if f.has option.name then .error (.misuse (.repeated option.name)) else .ok added
  | .single choices =>
    if f.has option.name then .error (.misuse (.repeated option.name))
    else if choices.isEmpty || choices.contains value then .ok added
    else .error (.misuse (.badValue option.name value))

end Found

namespace Interface

/-- Takes an operand, unless there is one already. -/
def addOperand (i : Interface) (f : Found) (argument : String) : Except Stop Found :=
  if i.operand.isSome && f.operand.isNone then .ok { f with operand := some argument }
  else .error (.misuse (.unexpected argument))

/-- Reads letters that share a dash. The answer has the option that waits for a value, if the last
letter is one. -/
def readLetters (i : Interface) (found : Found) :
    List Char → Except Stop (Found × Option OptionSpec)
  | [] => .ok (found, none)
  | letter :: rest =>
    match i.options.find? fun o => o.letter == some letter with
    | some option =>
      if option.kind.hasValue then
        match rest with
        | [] => .ok (found, some option)
        | '=' :: value => do return (← found.add option (String.ofList value), none)
        | value => do return (← found.add option (String.ofList value), none)
      else
        match found.add option "" with
        | .ok found => readLetters i found rest
        | .error stop => .error stop
    | none =>
      if letter = 'h' then .error .help
      else if i.versioned && letter = 'V' then .error .version
      else .error (.misuse (.unexpected (String.ofList ['-', letter])))

/-- Reads a long name, which may have its value behind `=`. -/
def readLong (i : Interface) (found : Found) (argument : List Char) :
    Except Stop (Found × Option OptionSpec) :=
  let name := String.ofList (argument.takeWhile (· != '='))
  let value? := match argument.dropWhile (· != '=') with
    | [] => none
    | _ :: value => some (String.ofList value)
  match i.options.find? fun o => o.name == name with
  | some option =>
    match option.kind.hasValue, value? with
    | true, none => .ok (found, some option)
    | true, some value => do return (← found.add option value, none)
    | false, none => do return (← found.add option "", none)
    | false, some _ => .error (.misuse (.unwantedValue name))
  | none =>
    let stop? : Option Stop :=
      if name = "help" then some .help
      else if i.versioned && name = "version" then some .version
      else none
    match stop?, value? with
    | none, _ => .error (.misuse (.unexpected ("--" ++ name)))
    | some stop, none => .error stop
    | some _, some _ => .error (.misuse (.unwantedValue name))

/-- Where a reader of arguments is. -/
structure Progress where
  found : Found
  /-- The option whose value the next argument is. -/
  waiting : Option OptionSpec
  /-- Whether `--` has been passed. -/
  literal : Bool

/-- Whether an argument begins with a dash and is more than that. -/
def isOption (argument : List Char) : Bool := argument.head? == some '-' && argument.length != 1

/-- Reads one argument. -/
def readArgument (i : Interface) (p : Progress) (argument : String) : Except Stop Progress :=
  let letters := argument.toList
  if p.literal then do return { p with found := ← i.addOperand p.found argument }
  else
    match p.waiting with
    | some option =>
      if isOption letters then .error (.misuse (.missingValue option.name))
      else do return { p with found := ← p.found.add option argument, waiting := none }
    | none =>
      match letters with
      | ['-', '-'] => .ok { p with literal := true }
      | '-' :: '-' :: long => do
        let (found, waiting) ← i.readLong p.found long
        return { p with found, waiting }
      | '-' :: c :: more => do
        let (found, waiting) ← i.readLetters p.found (c :: more)
        return { p with found, waiting }
      | _ => do return { p with found := ← i.addOperand p.found argument }

/-- Reads arguments up to a subcommand, which is answered with the arguments behind it. -/
def readFrom (i : Interface) : Progress → List String →
    Except Stop (Found × Option (String × List String))
  | p, [] =>
    match p.waiting with
    | some option => .error (.misuse (.missingValue option.name))
    | none =>
      match i.operand, p.found.operand with
      | some name, none => .error (.misuse (.missingOperand name))
      | _, _ => .ok (p.found, none)
  | p, argument :: rest =>
    if !p.literal && p.waiting.isNone && i.subcommands.contains argument then
      .ok (p.found, some (argument, rest))
    else
      match i.readArgument p argument with
      | .ok p => i.readFrom p rest
      | .error stop => .error stop

def read (i : Interface) (arguments : List String) :
    Except Stop (Found × Option (String × List String)) :=
  i.readFrom ⟨.none, none, false⟩ arguments

end Interface

end Scss.CommandLine
