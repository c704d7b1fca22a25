import Scss.Evaluation
import Scss.Grammar.Statement
import Scss.Selector.Nesting
import Scss.Selector.Set
import Scss.Value.Url

/-!
# Flattening a stylesheet

Flattening leaves plain CSS statements. Rules inside rules become rules of their own with resolved
selectors, media queries move out of rules and merge, and mixins, control directives and imports
are expanded in place. Each `@extend` is recorded for later.

Expansion is a recursion on four things, each bounded for a reason of its own: the calls that may
still nest, the imports that may still nest, the content blocks on the stack, and the statements
themselves. `flattenNodes` is the recursion on statements; where a body is expanded that is no part
of the statement, it uses what its `Site` provides.
-/

namespace Scss.Flatten

open Compile Evaluation

/-- Expands statements, given how many content blocks are on the stack there. -/
abbrev Expansion := Nat → List Node → Compile (List Node)

/-- Where statements are expanded. -/
structure Site where
  /-- How many calls may still nest. -/
  calls : Nat
  /-- How many content blocks are on the stack. -/
  blocks : Nat
  /-- Expands the body of a mixin, which is one call deeper. -/
  mixinBody : Expansion
  /-- Expands an imported stylesheet. -/
  importedBody : List Node → Compile (List Node)
  /-- Expands the content block of the innermost mixin. -/
  contentBody : List Node → Compile (List Node)

def Site.caller (s : Site) : Caller := invoke s.calls

/-! ## Rules -/

/-- Selectors, once their text is known. -/
def sourceSelectors (call : Caller) (position : Position) : SelectorSource → Compile (List Selector)
  | .parsed selectors => return selectors
  | .interpolated text => do
    match Selector.readList (← interpolate call position text) position with
    | .ok selectors => return selectors
    | .error failure => throw failure

/-- The selectors of a nested rule, those of one parent together, each once. -/
def nest (own parents : List Selector) : Except EvaluationFault (List Selector) := do
  let resolved ← parents.mapM fun parent => own.mapM fun s => s.resolve parent
  return (SelectorSet.ofList resolved.flatten).toList

/-- The selectors of a rule at the top level, where `&` stands for nothing. -/
def strip (position : Position) : List Selector → Compile (List Selector)
  | [] => return []
  | s :: rest => do
    if s.hasParent then
      warn position ("Base-level rules cannot contain the parent-selector-referencing character " ++
        "'&' in \"" ++ s.text ++ "\"")
      return s.stripParents?.toList ++ (← strip position rest)
    else
      return s :: (← strip position rest)

/-- What a rule with resolved selectors becomes: a rule with the declarations of its body, followed
by what else is in there. -/
def splitRule (position : Position) (selectors : List Selector) (body : List Node) : List Node :=
  let leaves := body.filter fun n => n.statement.isLeaf
  let others := body.filter fun n => !n.statement.isLeaf
  if leaves.isEmpty then others
  else .mk position (.rule (.parsed selectors) leaves) :: others

/-- Expands a rule. Without selectors, its body is not looked at. -/
def flattenRule (position : Position) (own : List Selector) (body : Compile (List Node)) :
    Compile (List Node) := do
  let (selectors, outer) ← match (← scopes).parent with
    | .topLevel => do pure (← strip position own, [])
    | .rule parents _ => do pure (← ofFault position (nest own parents), parents)
  if selectors.isEmpty then
    return []
  let inner ← inScope do
    modifyScopes (·.setParent (.rule selectors outer))
    body
  return splitRule position selectors inner

/-! ## Declarations -/

/-- A declaration with its name and value evaluated, and its urls rebased if that is asked for. -/
def flattenDeclaration (call : Caller) (position : Position) (name : Interpolation) (value : Value)
    (important : Bool) : Compile Node := do
  let name ← interpolate call position name
  let value ← evaluate call position false value
  let c ← get
  let rebase := !c.urlBase.isEmpty && match c.urlMode with
    | .relative => true
    | .mixed => value.isUrl
    | .absolute => false
  let value := if rebase then value.rebaseUrls c.urlBase else value
  return .mk position (.declaration (Interpolation.literal name) value important)

/-! ## Directives that move to the top level -/

/-- Expands the body of a directive that moves out of its rule. There, the rule is repeated inside
the directive. -/
def flattenBubbling (position : Position) (body : Compile (List Node)) : Compile (List Node) := do
  match (← scopes).parent with
  | .topLevel => inScope body
  | .rule selectors _ => inScope do
    modifyScopes (·.setParent .topLevel)
    flattenRule position selectors body

/-- The query of a media directive inside another. -/
def mergeQueries (outer inner : String) : String :=
  if outer.isEmpty then inner
  else if inner.isEmpty then outer
  else outer ++ " and " ++ inner

/-- The media directives directly in a body, merged with the query around them. -/
def mergedMedia (query : String) : List Node → List Node
  | [] => []
  | .mk position (.media inner body) :: rest =>
    .mk position (.media (Interpolation.literal (mergeQueries query (Interpolation.text inner)))
      body) :: mergedMedia query rest
  | _ :: rest => mergedMedia query rest

/-- What a media directive becomes: one for all that is no media directive itself, followed by the
merged ones. -/
def splitMedia (position : Position) (query : String) (body : List Node) : List Node :=
  let others := body.filter fun n => match n.statement with
    | .media .. => false
    | _ => true
  let merged := mergedMedia query body
  if others.isEmpty then merged
  else .mk position (.media (Interpolation.literal query) others) :: merged

/-- Whether an at-rule holds rules or descriptors of its own, and not declarations for the rule
around it. -/
def keepsOwnBody (name : String) : Bool :=
  Text.endsWith name "keyframes" || name == "font-face" || name == "page"

/-! ## Extending -/

/-- Records an `@extend`, for each of its targets by each selector of the rule around it. -/
def recordExtend (call : Caller) (position : Position) (target : SelectorSource)
    (optional : Bool) : Compile Unit := do
  match (← scopes).parent with
  | .topLevel => fail position .extendOutsideRule
  | .rule selectors outer => do
    (← sourceSelectors call position target).forM fun t => do
      match t.compound? with
      | none => throw (.parse position (.nestedTarget t.text))
      | some compound =>
        selectors.forM fun s =>
          modify fun c => c.addExtension ⟨compound, s, outer, optional, position⟩

/-! ## Imports -/

/-- The target of an import that is to be found and expanded. -/
def inlineTarget? (target : Value) (hasMedia : Bool) : Option String :=
  match target with
  | .quoted text _ | .word text => if Resolver.isPlainCss text hasMedia then none else some text
  | _ => none

/-- Finds and reads an imported stylesheet, and expands it in place. -/
def expandImport (s : Site) (position : Position) (target : String) : Compile (List Node) := do
  let c ← get
  match c.resolve target with
  | .error failure => throw failure
  | .ok none => throw (.importing (.notFound target c.currentUri position.line))
  | .ok (some found) =>
    match Stylesheet.read found.content found.uri with
    | .error failure => throw failure
    | .ok stylesheet =>
      importing found.uri (UrlPath.importedDirectory c.urlBase target)
        (s.importedBody stylesheet.body)

/-- An import is expanded, or stays if it is one of plain CSS. -/
def flattenImport (s : Site) (position : Position) (target : Value) (media : Option Interpolation) :
    Compile (List Node) := do
  let target ← evaluate s.caller position false target
  let media ← match media with
    | some m => do pure (Text.trim (← interpolate s.caller position m))
    | none => pure ""
  let hasMedia := !media.isEmpty && !Text.sameIgnoringCase media "all"
  match inlineTarget? target hasMedia with
  | some file => expandImport s position file
  | none =>
    let c ← get
    let target := if c.urlMode = .relative then target.rebaseUrls c.urlBase else target
    let media := if media.isEmpty then none else some (Interpolation.literal media)
    return [.mk position (.importFile target media)]

/-! ## Mixins -/

/-- Expands the body of a mixin, with the block passed to it on the stack. -/
def expandMixin (s : Site) (position : Position) (name : String)
    (arguments : List (Argument Value)) (content : Option (List Node)) : Compile (List Node) := do
  match (← scopes).mixin? name with
  | none => fail position (.undefinedMixin name)
  | some mixin => do
    let passed ← runArguments (suspendArguments s.caller position true arguments)
    let bound ← ofFault position (mixin.signature.bind mixin.name passed)
    let depth := (← scopes).depth
    let block := content.map fun body => (⟨body, depth⟩ : ContentBlock)
    match s.calls with
    | 0 => fail position (.callDepth maxCallDepth mixin.name)
    | calls + 1 => calling mixin.name position do
      passing block do
        inScope do
          bindParameters (invoke calls) position bound
          s.mixinBody (s.blocks + 1) mixin.body

/-- Expands the content block. It sees the frames that were visible where it was passed, but stands
in the rule where it is expanded. -/
def expandContent (s : Site) : Compile (List Node) := do
  match (← get).contents with
  | some block :: _ => do
    let parent := (← scopes).parent
    settingAside (some block) do
      seeing block.depth do
        inScope do
          modifyScopes (·.setParent parent)
          s.contentBody block.body
  | _ => return []

/-! ## Loops -/

/-- Expands a body once for each item of a list. -/
def forEach {α : Type} (run : α → Compile (List Node)) : List α → Compile (List Node)
  | [] => return []
  | a :: rest => do
    let front ← run a
    return front ++ (← forEach run rest)

/-- Expands a body while a condition holds, for so many rounds at most. -/
def whileHolds (condition : Compile Bool) (run : Compile (List Node)) : Nat → Compile (List Node)
  | 0 => do
    if ← condition then throw (.limitExceeded .whileRounds maxRounds) else return []
  | rounds + 1 => do
    if ← condition then
      let front ← run
      return front ++ (← whileHolds condition run rounds)
    else
      return []

/-! ## Statements -/

mutual

def flattenNodes (s : Site) : List Node → Compile (List Node)
  | [] => return []
  | node :: rest => do
    let front ← flattenNode s node
    return front ++ (← flattenNodes s rest)

def flattenNode (s : Site) : Node → Compile (List Node)
  | .mk position statement => flattenStatement s position statement

def flattenStatement (s : Site) (position : Position) : Statement → Compile (List Node)
  | .rule selectors body => do
    let own ← sourceSelectors s.caller position selectors
    flattenRule position own (flattenNodes s body)
  | .declaration name value important => do
    return [← flattenDeclaration s.caller position name value important]
  | .assignment name value ifUnset isGlobal => do
    assign s.caller position name value ifUnset isGlobal
    return []
  | .media query body => do
    let query := Text.trim (← interpolate s.caller position query)
    return splitMedia position query (← flattenBubbling position (flattenNodes s body))
  | .extend target optional => do
    recordExtend s.caller position target optional
    return []
  | .mixin name signature body => do
    modifyScopes (·.defineMixin ⟨name, signature, body⟩)
    return []
  | .function name signature body => do
    modifyScopes (·.defineFunction ⟨name, signature, body⟩)
    return []
  | .includeMixin name arguments content => expandMixin s position name arguments content
  | .content => expandContent s
  | .returnValue _ => fail position .returnOutsideFunction
  | .branches alternatives => flattenBranches s position alternatives
  | .eachLoop names list body => do
    let round (item : Value) : Compile (List Node) := inScope do
      bindItem names item
      flattenNodes s body
    forEach round (← eachItems s.caller position list)
  | .forLoop counter start stop isInclusive body => do
    let round (i : Value) : Compile (List Node) := inScope do
      modifyScopes (·.define counter i)
      flattenNodes s body
    forEach round (← loopValues s.caller position start stop isInclusive)
  | .whileLoop condition body =>
    whileHolds (holds s.caller position condition) (inScope (flattenNodes s body)) maxRounds
  | .importFile target media => flattenImport s position target media
  | .comment text => return [.mk position (.comment text)]
  | .atRule name prelude none => do
    let prelude := Text.trim (← interpolate s.caller position prelude)
    return [.mk position (.atRule name (Interpolation.literal prelude) none)]
  | .atRule name prelude (some body) => do
    let prelude := Text.trim (← interpolate s.caller position prelude)
    let inner ← if keepsOwnBody name then
        inScope do
          modifyScopes (·.setParent .topLevel)
          flattenNodes s body
      else
        flattenBubbling position (flattenNodes s body)
    return [.mk position (.atRule name (Interpolation.literal prelude) (some inner))]
  | .diagnostic level message => do
    report s.caller position level message
    return []

/-- Expands the first branch whose condition holds. -/
def flattenBranches (s : Site) (position : Position) :
    List (Option Value × List Node) → Compile (List Node)
  | [] => return []
  | (none, body) :: _ => inScope (flattenNodes s body)
  | (some condition, body) :: rest => do
    if ← holds s.caller position condition then inScope (flattenNodes s body)
    else flattenBranches s position rest

end

/-! ## Bodies from elsewhere -/

/-- Expansion where so many calls may still nest, by recursion on the content blocks. -/
def expandContents (calls : Nat) (mixinBody importedBody : Expansion) : Expansion
  | 0, nodes => flattenNodes ⟨calls, 0, mixinBody, importedBody 0, fun _ => return []⟩ nodes
  | below + 1, nodes =>
    flattenNodes ⟨calls, below + 1, mixinBody, importedBody (below + 1),
      expandContents calls mixinBody importedBody below⟩ nodes

/-- Expansion by recursion on the imports that may still nest. -/
def expandImports (calls : Nat) (mixinBody : Nat → Expansion) : Nat → Expansion
  | 0 => expandContents calls (mixinBody 0) fun _ _ => do
    throw (.limitExceeded .imports (← get).maxImportDepth)
  | imports + 1 =>
    expandContents calls (mixinBody (imports + 1)) (expandImports calls mixinBody imports)

/-- Expansion by recursion on the calls that may still nest. -/
def expand : Nat → Nat → Expansion
  | 0, imports => expandImports 0 (fun _ _ _ => return []) imports
  | calls + 1, imports => expandImports (calls + 1) (expand calls) imports

/-- The calls that may still nest in a context. -/
def callsLeft (c : Context) : Nat := maxCallDepth - c.callDepth

/-- Flattens the statements of a stylesheet. Declarations are allowed only inside a rule. -/
def run (nodes : List Node) : Compile (List Node) := do
  let c ← get
  let flat ← expand (callsLeft c) (c.maxImportDepth + 1) c.contents.length nodes
  match flat.find? fun n => n.statement.isDeclaration with
  | some n => fail n.position .declarationOutsideRule
  | none => return flat

end Scss.Flatten
