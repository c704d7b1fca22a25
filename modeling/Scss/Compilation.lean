import Scss.Compiler
import Scss.Evaluation
import Scss.Grammar.Statement
import Scss.Statistics

/-!
# Compiling source text and files

A compilation begins in a fresh context: variables that are set from outside are defined first,
then the text is read, compiled and written as CSS, and figures are taken.
-/

namespace Scss

/-- The settings of a compilation. -/
structure Options where
  urlMode : UrlMode
  /-- Where imports are looked for besides the directory of the importer. -/
  includeDirectories : List String
  /-- The text of the value of each variable that is set from outside. -/
  presets : Entries String
  maxImportDepth : Nat

def Options.standard : Options := ⟨.standard, [], [], standardImportDepth⟩

/-! ## Variables set from outside -/

/-- Where the values of variables set from outside stand, for messages. -/
def outside : Position := ⟨"<custom variables>", 0, 0⟩

/-- Whether a text is a name in ASCII, not beginning with a digit. -/
def isPlainName (name : List Char) : Bool :=
  match name with
  | [] => false
  | c :: rest =>
    (c.isAlpha || c == '_' || c == '-') && rest.all fun c => c.isAlphanum || c == '_' || c == '-'

/-- A name without the `$` that may stand in front of it. -/
def withoutSigil (name : String) : String :=
  match name.toList with
  | '$' :: rest => String.ofList rest
  | _ => name

/-- Defines one variable in the root scope. -/
def definePreset (name text : String) : Compile Unit := do
  let name := withoutSigil name
  if !isPlainName name.toList then throw (.setting (.variableName name))
  let source ← MonadExcept.ofExcept (Grammar.readValue text outside)
  let value ← Evaluation.evaluate (Evaluation.invoke (Flatten.callsLeft (← get))) outside true source
  Compile.modifyScopes fun s => s.setGlobal name value

/-- Defines variables one after another. -/
def definePresets : Entries String → Compile Unit
  | [] => pure ()
  | (name, text) :: rest => do
    definePreset name text
    definePresets rest

/-! ## Compiling -/

/-- What a compilation yields. -/
structure Compiled where
  css : String
  statistics : Statistics

/-- Compiles source text. `uri` names it in messages, and imports are relative to it. -/
def compileSource (presets : Entries String) (source uri : String) : Compile Compiled := do
  definePresets presets
  let stylesheet ← MonadExcept.ofExcept (Stylesheet.read source uri)
  let compiled ← stylesheet.compile
  let css := compiled.css
  let context ← get
  return {
    css
    statistics := {
      sourceSize := source.utf8ByteSize
      outputSize := css.utf8ByteSize
      blocks := BlockCounts.ofNodes compiled.body
      imports := context.importCount
      extensions := context.extensions.length
      warnings := context.warnings.length } }

namespace Options

/-- The context in which a compilation begins. -/
def context (options : Options) (tree : FileTree) : Context :=
  .new options.urlMode (Resolver.ofFileTree tree options.includeDirectories)
    options.maxImportDepth

/-- Compiles source text with imports from a file tree; the warnings count also on failure. -/
def compile (options : Options) (tree : FileTree) (source uri : String) :
    Except Failure Compiled × List String :=
  let (result, context) := (compileSource options.presets source uri).run (options.context tree)
  (result, context.warnings)

end Options

end Scss
