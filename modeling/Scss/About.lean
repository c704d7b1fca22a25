import Scss.Context

/-!
# About the compiler

What the compiler calls itself, and which features of stylesheets it handles.
-/

namespace Scss.About

def name : String := "scssc"

def version : String := "0.1.0"

def description : String := "SCSS Compiler - Compile SCSS stylesheets to plain CSS"

def features : List String :=
  ["variables", "nesting", "mixins", "functions", "control-directives", "extend", "placeholders",
    "imports", "media-bubbling", "interpolation"]

def supports (feature : String) : Bool := features.contains feature

end Scss.About
