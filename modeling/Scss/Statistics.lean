import Scss.Stylesheet

/-!
# Statistics of a compile

How much went in and came out, and how many rules and media blocks a compiled stylesheet has. Only
media blocks and at-rules are looked into, for in a compiled stylesheet nothing else holds blocks.
-/

namespace Scss

/-- How many rules and media blocks there are. -/
structure BlockCounts where
  rules : Nat
  media : Nat
  deriving DecidableEq, Repr

namespace BlockCounts

def none : BlockCounts := ⟨0, 0⟩

instance : Add BlockCounts := ⟨fun a b => ⟨a.rules + b.rules, a.media + b.media⟩⟩

mutual

def ofNode : Node → BlockCounts
  | .mk _ statement => ofStatement statement

def ofStatement : Statement → BlockCounts
  | .rule .. => ⟨1, 0⟩
  | .media _ body => ⟨0, 1⟩ + ofNodes body
  | .atRule _ _ (some body) => ofNodes body
  | _ => none

def ofNodes : List Node → BlockCounts
  | [] => none
  | n :: rest => ofNode n + ofNodes rest

end

end BlockCounts

/-- The figures of a compile. Sizes are in bytes. -/
structure Statistics where
  sourceSize : Nat
  outputSize : Nat
  blocks : BlockCounts
  imports : Nat
  extensions : Nat
  warnings : Nat
  deriving DecidableEq, Repr

end Scss
