/-!
# Simple selectors

One condition on an element, or a placeholder that matches none, or the parent reference that
nesting replaces.
-/

namespace Scss

inductive SimpleSelector where
  | element (name : String)
  | universal
  | id (name : String)
  | ofClass (name : String)
  /-- A test of an attribute, as it stands between the brackets. -/
  | attribute (test : String)
  | pseudoClass (name : String) (argument : Option String)
  | pseudoElement (name : String) (argument : Option String)
  | placeholder (name : String)
  /-- `&`, to whose replacement a suffix is added. -/
  | parent (suffix : Option String)
  deriving DecidableEq, Hashable, Repr

namespace SimpleSelector

private def pseudoText (mark name : String) (argument : Option String) : String :=
  mark ++ name ++ argument.elim "" fun a => "(" ++ a ++ ")"

def text : SimpleSelector → String
  | element name => name
  | universal => "*"
  | id name => "#" ++ name
  | ofClass name => "." ++ name
  | .attribute test => "[" ++ test ++ "]"
  | pseudoClass name argument => pseudoText ":" name argument
  | pseudoElement name argument => pseudoText "::" name argument
  | placeholder name => "%" ++ name
  | parent suffix => "&" ++ suffix.getD ""

/-- Where in a compound the selector is written: elements first, pseudo-elements last. -/
def rank : SimpleSelector → Nat
  | element _ | universal | parent _ => 0
  | pseudoClass .. => 2
  | pseudoElement .. => 3
  | _ => 1

theorem rank_lt (x : SimpleSelector) : x.rank < 4 := by
  cases x <;> simp [rank]

/-- Whether it names an element or stands for all of them. -/
def isElementTest : SimpleSelector → Bool
  | element _ | universal => true
  | _ => false

def isElement : SimpleSelector → Bool
  | element _ => true
  | _ => false

def isPlaceholder : SimpleSelector → Bool
  | placeholder _ => true
  | _ => false

def isParent : SimpleSelector → Bool
  | parent _ => true
  | _ => false

/-- The name with a suffix added, for selectors that are a name. -/
def withSuffix? (suffix : String) : SimpleSelector → Option SimpleSelector
  | element name => some (element (name ++ suffix))
  | id name => some (id (name ++ suffix))
  | ofClass name => some (ofClass (name ++ suffix))
  | placeholder name => some (placeholder (name ++ suffix))
  | _ => none

end SimpleSelector

end Scss
