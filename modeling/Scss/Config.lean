import Scss.Config.Json
import Scss.Config.Toml
import Scss.Failure
import Scss.Text.Split

/-!
# Configuration files

A configuration file can give some settings. What the command line gives wins over it, and entries
that are no settings are passed over.
-/

namespace Scss

structure Config where
  urlMode : Option String
  includeDirectories : Option (List String)
  /-- The texts of variables, under names as they are written in the file. -/
  presets : Option (Entries String)
  outputDirectory : Option String
  deriving DecidableEq, Repr

namespace Config

def empty : Config := ⟨none, none, none, none⟩

/-! ## Settings by their kind

Each reader answers nothing for a datum of the wrong kind. -/

/-- A setting that may be null. -/
def optional {α : Type} (read : Datum → Option α) : Datum → Option (Option α)
  | .null => some none
  | datum => (read datum).map some

def text? : Datum → Option String
  | .text content => some content
  | _ => none

def texts? : Datum → Option (List String)
  | .list items => items.mapM text?
  | _ => none

/-- Texts under keys; of two under one key the later counts. -/
def textTable? : Datum → Option (Entries String)
  | .table entries =>
    entries.foldlM (fun found (key, datum) => do
      return Entries.put (← key) (← text? datum) found) []
  | _ => none

/-! ## The whole configuration -/

/-- The datum under a key, null if there is none; a key that stands twice is a mistake. -/
def entry? (key : String) (entries : List (Option String × Datum)) : Option Datum :=
  match entries.filter fun e => e.1 == some key with
  | [] => some .null
  | [(_, datum)] => some datum
  | _ => none

/-- The settings, each in its own datum. -/
def ofFields (urlMode includeDirectories presets outputDirectory : Datum) : Option Config := do
  return {
    urlMode := ← optional text? urlMode
    includeDirectories := ← optional texts? includeDirectories
    presets := ← optional textTable? presets
    outputDirectory := ← optional text? outputDirectory }

/-- Settings are given by name, or all of them in order. -/
def ofDatum : Datum → Option Config
  | .table entries => do
    if entries.any fun e => e.1.isNone then none
    ofFields (← entry? "url_mode" entries) (← entry? "include_directories" entries)
      (← entry? "custom_variables" entries) (← entry? "output_directory" entries)
  | .list [urlMode, includeDirectories, presets, outputDirectory] =>
    ofFields urlMode includeDirectories presets outputDirectory
  | _ => none

/-- The configuration in a file; the name of the file tells its format. -/
def read (path content : String) : Except Failure Config :=
  if Text.endsWith path ".json" then
    match (Json.read content).bind ofDatum with
    | some config => .ok config
    | none => .error (.setting .jsonConfig)
  else if Text.endsWith path ".toml" then
    match (Toml.read content).bind ofDatum with
    | some config => .ok config
    | none => .error (.setting .tomlConfig)
  else .error (.setting .configKind)

end Config

end Scss
