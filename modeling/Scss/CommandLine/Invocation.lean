import Scss.CommandLine.Arguments
import Scss.Context

/-!
# Invocations

The program compiles a file, or checks files without writing anything. An invocation is what the
arguments ask for; settings that they leave open are taken from a configuration file later.
-/

namespace Scss.CommandLine

inductive ReportFormat where
  | plain
  | json
  deriving DecidableEq, Repr

/-- How a file is to be compiled. -/
structure CompileOrder where
  input : String
  output : Option String
  urlMode : Option UrlMode
  includeDirectories : List String
  /-- Texts of the form `NAME=VALUE`. -/
  definitions : List String
  statistics : Bool
  format : ReportFormat
  deriving DecidableEq, Repr

structure CheckOrder where
  input : String
  recursive : Bool
  deriving DecidableEq, Repr

inductive Order where
  | compile (order : CompileOrder)
  | check (order : CheckOrder)
  | nothing
  deriving DecidableEq, Repr

structure Invocation where
  /-- The path of the configuration file. -/
  config : Option String
  order : Order
  deriving DecidableEq, Repr

/-- The paths that an invocation names. -/
def Invocation.paths (i : Invocation) : List String :=
  i.config.toList ++
    match i.order with
    | .compile order => order.input :: order.output.toList ++ order.includeDirectories
    | .check order => [order.input]
    | .nothing => []

/-! ## The interfaces of the program and its commands -/

def programInterface : Interface where
  options := [⟨"config", some 'c', .single []⟩, ⟨"verbose", some 'v', .counted⟩]
  operand := none
  subcommands := ["compile", "check", "help"]
  versioned := true

def compileInterface : Interface where
  options := [
    ⟨"output", some 'o', .single []⟩,
    ⟨"url-mode", some 'u', .single ["absolute", "relative", "mixed"]⟩,
    ⟨"include", some 'I', .repeated⟩,
    ⟨"define", some 'D', .repeated⟩,
    ⟨"stats", none, .switch⟩,
    ⟨"format", some 'f', .single ["css", "json"]⟩,
    ⟨"debug", some 'd', .switch⟩]
  operand := some "input"
  subcommands := []
  versioned := false

def checkInterface : Interface where
  options := [⟨"recursive", some 'r', .switch⟩]
  operand := some "input"
  subcommands := []
  versioned := false

/-! ## Reading an invocation -/

def CompileOrder.ofFound (f : Found) : CompileOrder where
  input := f.operand.getD ""
  output := f.value? "output"
  urlMode := (f.value? "url-mode").bind UrlMode.ofName?
  includeDirectories := f.values "include"
  definitions := f.values "define"
  statistics := f.has "stats"
  format := if f.value? "format" = some "json" then .json else .plain

def CheckOrder.ofFound (f : Found) : CheckOrder where
  input := f.operand.getD ""
  recursive := f.has "recursive"

/-- Help can be asked for about a command. -/
def readHelp : List String → Stop
  | [] => .help
  | topic :: rest =>
    if programInterface.subcommands.contains topic then readHelp rest
    else .misuse (.unexpected topic)

def readOrder (command : String) (arguments : List String) : Except Stop Order :=
  if command = "compile" then do
    return .compile (.ofFound (← compileInterface.read arguments).1)
  else if command = "check" then do
    return .check (.ofFound (← checkInterface.read arguments).1)
  else .error (readHelp arguments)

def Invocation.read (arguments : List String) : Except Stop Invocation := do
  let (found, command?) ← programInterface.read arguments
  let config := found.value? "config"
  match command? with
  | none => return ⟨config, .nothing⟩
  | some (command, rest) => return ⟨config, ← readOrder command rest⟩

end Scss.CommandLine
