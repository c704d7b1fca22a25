import Scss.Resolver
import Scss.Scope
import Scss.Selector.Extension

/-!
# The state of a compile

A compile keeps the scopes, the extensions and warnings recorded so far, and the stack of
stylesheets being imported. How deep calls and content blocks are nested is known from where a
statement is compiled; the context holds what they start from.

A `Compile` runs in a context and answers a result or a failure. The context it leaves behind
counts also after a failure, which is why everything that opens a scope or enters a stylesheet
goes through `Compile.inScope` and its like: these close what they opened in either case.
-/

namespace Scss

/-- How urls of imported stylesheets are treated. -/
inductive UrlMode where
  /-- They stay as they are. -/
  | absolute
  /-- They are rebased wherever they stand. -/
  | relative
  /-- They are rebased where a url is the whole value. -/
  | mixed
  deriving DecidableEq, Repr, Inhabited

def UrlMode.name : UrlMode → String
  | absolute => "absolute"
  | relative => "relative"
  | mixed => "mixed"

def UrlMode.ofName? (name : String) : Option UrlMode :=
  [absolute, relative, mixed].find? fun mode => mode.name == name.toLower

def UrlMode.standard : UrlMode := mixed

/-! ## Bounds -/

/-- How deep stylesheets may import each other, unless set otherwise. -/
def standardImportDepth : Nat := 16

/-- How many rounds a loop may take. -/
def maxRounds : Nat := 10000

/-- How deep calls of mixins and functions may nest. -/
def maxCallDepth : Nat := 64

/-- How many selectors a rule may have after extending. -/
def maxSelectors : Nat := 4096

/-! ## The context -/

/-- The block passed to a mixin, and how many frames were visible where it was passed. -/
structure ContentBlock where
  body : List Node
  depth : Nat

/-- A stylesheet being compiled, and the directory that its urls are relative to. -/
structure ImportFrame where
  uri : String
  base : String
  deriving DecidableEq, Repr

structure Context where
  scopes : Scopes
  extensions : List Extension
  warnings : List String
  urlMode : UrlMode
  resolver : Resolver
  /-- The stylesheets being compiled, the innermost first. -/
  imports : List ImportFrame
  maxImportDepth : Nat
  importCount : Nat
  /-- The blocks passed to the mixins being expanded, the innermost first. -/
  contents : List (Option ContentBlock)
  callDepth : Nat

namespace Context

def new (urlMode : UrlMode) (resolver : Resolver) (maxImportDepth : Nat) : Context :=
  { scopes := .initial, extensions := [], warnings := [], urlMode, resolver, imports := [],
    maxImportDepth, importCount := 0, contents := [], callDepth := 0 }

/-- A context in which nothing can be imported. -/
def isolated : Context := new .standard (fun _ _ => .ok none) standardImportDepth

def currentUri (c : Context) : String := (c.imports.head?.map ImportFrame.uri).getD ""

/-- The directory that urls are relative to; empty in the root stylesheet. -/
def urlBase (c : Context) : String := (c.imports.head?.map ImportFrame.base).getD ""

def enterRoot (c : Context) (uri : String) : Context := { c with imports := [⟨uri, ""⟩] }

/-- Enters an imported stylesheet, unless imports are nested too deep or it is being compiled
already. -/
def enterImport (c : Context) (uri base : String) : Except Failure Context :=
  if c.maxImportDepth < c.imports.length then .error (.limitExceeded .imports c.maxImportDepth)
  else if c.imports.any (·.uri == uri) then .error (.importing (.circular uri))
  else .ok { c with imports := ⟨uri, base⟩ :: c.imports, importCount := c.importCount + 1 }

/-- Leaves the innermost stylesheet, unless it is the only one. -/
def exitImport (c : Context) : Context :=
  match c.imports with
  | _ :: outer@(_ :: _) => { c with imports := outer }
  | _ => c

def resolve (c : Context) (target : String) : Except Failure (Option ResolvedSource) :=
  c.resolver c.currentUri target

/-- Counts a call, unless calls are nested too deep already. -/
def enterCall (c : Context) (name : String) (position : Position) : Except Failure Context :=
  if maxCallDepth ≤ c.callDepth then .error (.compile position (.callDepth maxCallDepth name))
  else .ok { c with callDepth := c.callDepth + 1 }

def exitCall (c : Context) : Context := { c with callDepth := c.callDepth - 1 }

def pushContent (c : Context) (block : Option ContentBlock) : Context :=
  { c with contents := block :: c.contents }

def popContent (c : Context) : Context := { c with contents := c.contents.tail }

def warn (c : Context) (position : Position) (message : String) : Context :=
  { c with warnings := c.warnings ++ [position.text ++ ": " ++ message] }

def addExtension (c : Context) (e : Extension) : Context :=
  { c with extensions := c.extensions ++ [e] }

end Context

/-! ## Computations in a context -/

/-- A computation that changes the context, also where it fails. -/
abbrev Compile := ExceptT Failure (StateM Context)

namespace Compile

variable {α : Type}

def fail (position : Position) (fault : EvaluationFault) : Compile α :=
  throw (.compile position fault)

/-- A result, or a fault at a position. -/
def ofFault (position : Position) (r : Except EvaluationFault α) : Compile α :=
  match r with
  | .ok a => pure a
  | .error fault => fail position fault

/-- Runs a computation between two changes of the context; the second is made in either case. -/
def between (before after : Context → Context) (body : Compile α) : Compile α :=
  ExceptT.mk do
    modify before
    let result ← body.run
    modify after
    return result

def modifyScopes (change : Scopes → Scopes) : Compile Unit :=
  modify fun c => { c with scopes := change c.scopes }

def scopes : Compile Scopes := do return (← get).scopes

/-- Runs a computation in a scope of its own. -/
def inScope (body : Compile α) : Compile α :=
  between (fun c => { c with scopes := c.scopes.enter }) (fun c => { c with scopes := c.scopes.leave })
    body

/-- Runs a computation that sees no frames above a depth. -/
def seeing (depth : Nat) (body : Compile α) : Compile α :=
  ExceptT.mk do
    let (hidden, rest) := (← get).scopes.hideAbove depth
    modify fun c => { c with scopes := rest }
    let result ← body.run
    modify fun c => { c with scopes := c.scopes.restore hidden }
    return result

/-- Runs a computation one call deeper. -/
def calling (name : String) (position : Position) (body : Compile α) : Compile α := do
  match (← get).enterCall name position with
  | .error failure => throw failure
  | .ok entered => between (fun _ => entered) Context.exitCall body

/-- Runs a computation with a content block on top of the stack. -/
def passing (block : Option ContentBlock) (body : Compile α) : Compile α :=
  between (·.pushContent block) Context.popContent body

/-- Runs a computation without the content block on top of the stack, which is put back. -/
def settingAside (block : Option ContentBlock) (body : Compile α) : Compile α :=
  between Context.popContent (·.pushContent block) body

/-- Runs a computation inside an imported stylesheet. -/
def importing (uri base : String) (body : Compile α) : Compile α := do
  match (← get).enterImport uri base with
  | .error failure => throw failure
  | .ok entered => between (fun _ => entered) Context.exitImport body

def warn (position : Position) (message : String) : Compile Unit :=
  modify fun c => c.warn position message

end Compile

end Scss
