import Scss.About
import Scss.Compilation
import Scss.CommandLine.Invocation
import Scss.CommandLine.Report
import Scss.Config

/-!
# The command line

A run reads its arguments and works on a file tree. It leaves what it printed, the messages it
gave, and the tree as it is afterwards, also where it fails: a directory made for the output stays
even if nothing can be compiled into it.
-/

namespace Scss.CommandLine

/-- What a run has done so far. -/
structure Session where
  files : FileTree
  output : List Line
  messages : List String

/-- Work in a session, which counts also after a failure. -/
abbrev Run := ExceptT Failure (StateM Session)

namespace Run

def print (lines : List Line) : Run Unit :=
  modify fun s => { s with output := s.output ++ lines }

/-- Gives a warning as a message; the further lines of one are indented. -/
def warning (text : String) : String :=
  "[WARN] " ++ String.intercalate "\n    "
    ((Text.splitAt '\n' text.toList).map String.ofList)

/-- Compiles source text, and gives the warnings as messages. -/
def compile (options : Options) (source uri : String) : Run Compiled := do
  let (result, warnings) := options.compile (← get).files source uri
  modify fun s => { s with messages := s.messages ++ warnings.map warning }
  MonadExcept.ofExcept result

/-- The text of a file; `described` is what it is called if it is not there. -/
def readText (path described : String) : Run String := do
  match (← get).files.readText path with
  | .ok text => return text
  | .error fault => throw (.fileNotFound described fault.reason)

/-- Changes the files, if that can be done. -/
def change (changed : FileTree → Except WriteFault FileTree) : Run Unit := do
  match changed (← get).files with
  | .ok files => modify fun s => { s with files }
  | .error fault => throw (.inputOutput fault.reason)

end Run

/-! ## Compiling a file -/

/-- Compiles a file into another one. -/
def compileFile (options : Options) (input output : String) : Run Statistics := do
  let source ← Run.readText input input
  let compiled ← Run.compile options source input
  Run.change fun files => files.writeText output compiled.css
  return compiled.statistics

/-- Where the result goes: where it is wanted, or under the input's name with the extension of CSS,
in the directory for results or beside the input. -/
def outputPath (input : String) (wanted directory : Option String) : String :=
  match wanted with
  | some path => path
  | none =>
    let beside := Path.withExtension input "css"
    match directory, Path.name? beside with
    | some directory, some name => Path.join directory name
    | _, _ => beside

/-! ## Settings from the command line and from a configuration -/

/-- A definition cut at its first `=`; blanks around the name do not count. -/
def cutDefinition? (definition : String) : Option (String × String) :=
  match definition.toList.dropWhile (· != '=') with
  | [] => none
  | _ :: value =>
    some (Text.trim (String.ofList (definition.toList.takeWhile (· != '='))),
      String.ofList value)

/-- Variables from definitions; of two for one name the later counts. -/
def presetsOf (definitions : List String) : Except Failure (Entries String) :=
  definitions.foldlM (fun found definition =>
    match cutDefinition? definition with
    | some (name, value) => .ok (Entries.put name value found)
    | none => .error (.setting (.definition definition))) []

/-- Adds the entries whose keys are not there yet. -/
def addMissing (more found : Entries String) : Entries String :=
  more.foldl (fun found (key, value) =>
    if Entries.has key found then found else Entries.put key value found) found

/-- The url mode of the command line, or of the configuration. -/
def chosenUrlMode (config : Config) : Option UrlMode → Except Failure UrlMode
  | some mode => .ok mode
  | none =>
    match config.urlMode with
    | none => .ok .standard
    | some name =>
      match UrlMode.ofName? name with
      | some mode => .ok mode
      | none => .error (.setting (.urlMode name))

/-- The settings for a compilation. What the command line says goes before the configuration. -/
def settings (config : Config) (urlMode : Option UrlMode)
    (includeDirectories definitions : List String) : Except Failure Options := do
  let urlMode ← chosenUrlMode config urlMode
  let defined ← presetsOf definitions
  return {
    urlMode
    includeDirectories := includeDirectories ++ config.includeDirectories.getD []
    presets := addMissing (config.presets.getD []) defined
    maxImportDepth := standardImportDepth }

/-! ## The commands -/

def runCompile (config : Config) (order : CompileOrder) : Run Unit := do
  let output := outputPath order.input order.output config.outputDirectory
  Run.change fun files => files.makeDirectories (Path.parent output)
  let options ← MonadExcept.ofExcept
    (settings config order.urlMode order.includeDirectories order.definitions)
  match order.format with
  | .json =>
    let statistics ← compileFile options order.input output
    Run.print (detailsAsJson statistics)
  | .plain =>
    Run.print [compiling order.input output]
    let statistics ← compileFile options order.input output
    Run.print (success statistics)
    if order.statistics then Run.print (details statistics)

/-- Compiles a file and writes nothing. -/
def checkFile (options : Options) (path : String) : Run Unit := do
  Run.print [checking path]
  let source ← Run.readText path path
  match ← observing (Run.compile options source path) with
  | .ok _ => Run.print [noIssues path]
  | .error failure =>
    Run.print [issue path failure.message]
    throw failure
where
  /-- The result of some work as a value. -/
  observing (work : Run Compiled) : Run (Except Failure Compiled) := ExceptT.lift work.run

/-- Whether a file is a stylesheet of its own and not a part of others. -/
def isRootStylesheet (path : String) : Bool :=
  Path.extension? path == some "scss" && !(Path.name? path).any fun name => Text.startsWith name "_"

/-- Checks files one after another. The answer is how many have errors. -/
def checkFiles (options : Options) : List String → Run Nat
  | [] => return 0
  | path :: rest => do
    let result ← ExceptT.lift (checkFile options path).run
    let failed ← checkFiles options rest
    match result with
    | .ok _ => return failed
    | .error _ => return failed + 1

def runCheck (config : Config) (order : CheckOrder) : Run Unit := do
  let options ← MonadExcept.ofExcept (settings config none [] [])
  let files := (← get).files
  if order.recursive && files.isDirectory order.input then
    let paths := (files.filesBelow order.input).filter isRootStylesheet
    let failed ← checkFiles options paths
    Run.print (summary paths.length failed)
    if 0 < failed then throw (.setting (.filesWithErrors failed))
  else checkFile options order.input

def runInvocation (invocation : Invocation) : Run Unit := do
  let config ← match invocation.config with
    | none => pure Config.empty
    | some path => do
      let content ← Run.readText path ("Config file " ++ path)
      MonadExcept.ofExcept (Config.read path content)
  match invocation.order with
  | .compile order => runCompile config order
  | .check order => runCheck config order
  | .nothing =>
    Run.print [.text "No subcommand specified. Use --help for usage information."]

/-! ## Whole runs -/

/-- What a run leaves. -/
structure Outcome where
  exitCode : Nat
  output : List Line
  messages : List String
  files : FileTree

def helpText : List Line :=
  [.text About.description, .text "", .text ("Usage: " ++ About.name ++ " [OPTIONS] [COMMAND]"),
    .text "", .text "Commands:", .text "  compile  Compile an SCSS file to CSS",
    .text "  check    Check SCSS files for errors without writing output"]

/-- The last message of a run that failed. -/
def farewell : Failure → String
  | .inputOutput reason => "IO Error: " ++ reason
  | failure => "Compilation failed: " ++ failure.message

/-- Runs the program on a file tree. -/
def run (arguments : List String) (files : FileTree) : Outcome :=
  match Invocation.read arguments with
  | .error .help => ⟨0, helpText, [], files⟩
  | .error .version => ⟨0, [.text (About.name ++ " " ++ About.version)], [], files⟩
  | .error (.misuse fault) => ⟨2, [], ["error: " ++ fault.message], files⟩
  | .ok invocation =>
    let (result, session) := (runInvocation invocation).run.run ⟨files, [], []⟩
    match result with
    | .ok _ => ⟨0, session.output, session.messages, session.files⟩
    | .error failure =>
      ⟨1, session.output, session.messages ++ [farewell failure], session.files⟩

end Scss.CommandLine
