import Scss.Selector
import Scss.Signature

/-!
# Stylesheets

A stylesheet is a tree of statements with their positions. Reading makes trees of all kinds of
statements; compiling leaves rules, declarations, comments, imports of plain CSS and at-rules.
-/

namespace Scss

/-- The selectors of a rule: read already, or text that still has expressions in it. -/
inductive SelectorSource where
  | parsed (selectors : List Selector)
  | interpolated (text : Interpolation)
  deriving Repr

inductive DiagnosticLevel where
  | warn
  | debug
  | error
  deriving DecidableEq, Repr

mutual

/-- A statement in its place. -/
inductive Node where
  | mk (position : Position) (statement : Statement)

inductive Statement where
  | rule (selectors : SelectorSource) (body : List Node)
  | declaration (name : Interpolation) (value : Value) (important : Bool)
  | assignment (name : String) (value : Value) (ifUnset global : Bool)
  | media (query : Interpolation) (body : List Node)
  | extend (target : SelectorSource) (optional : Bool)
  | mixin (name : String) (signature : Signature) (body : List Node)
  | function (name : String) (signature : Signature) (body : List Node)
  | includeMixin (mixin : String) (arguments : List (Argument Value)) (content : Option (List Node))
  | content
  | returnValue (value : Value)
  /-- Branches in order; one without a condition is always taken. -/
  | branches (alternatives : List (Option Value × List Node))
  | eachLoop (names : List String) (list : Value) (body : List Node)
  /-- A loop over whole numbers; an inclusive one reaches its end. -/
  | forLoop (counter : String) (start stop : Value) (inclusive : Bool) (body : List Node)
  | whileLoop (condition : Value) (body : List Node)
  | importFile (target : Value) (media : Option Interpolation)
  | comment (text : String)
  | atRule (name : String) (prelude : Interpolation) (body : Option (List Node))
  | diagnostic (level : DiagnosticLevel) (message : Value)

end

def Node.position : Node → Position
  | mk position _ => position

def Node.statement : Node → Statement
  | mk _ statement => statement

instance : Inhabited Node := ⟨.mk ⟨"", 0, 0⟩ .content⟩

structure Stylesheet where
  uri : String
  charset : Option String
  body : List Node

/-- A named body with parameters: what a mixin or a function is defined as. -/
structure Definition where
  name : String
  signature : Signature
  body : List Node

namespace Statement

def isDeclaration : Statement → Bool
  | declaration .. => true
  | _ => false

/-- Whether the statement is written inside the braces of a rule once all is flat. -/
def isLeaf : Statement → Bool
  | declaration .. | comment _ => true
  | _ => false

end Statement

end Scss
