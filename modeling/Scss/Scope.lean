import Scss.Entries
import Scss.Stylesheet
import Scss.Text.Name

/-!
# Scopes

Names are bound in frames. A rule, a loop round, a call and the like open a frame and close it
again; the frame at the root is always there. A lookup goes from the innermost frame outwards.
Assigning to a variable rebinds it in the frame where it is found, and binds it in the innermost
frame if it is bound in none.
-/

namespace Scss

open Text (nameKey)

/-- The rule around a statement. -/
inductive ParentBlock where
  | topLevel
  /-- A rule with its selectors, and the selectors of the rule around it. -/
  | rule (selectors outer : List Selector)
  deriving DecidableEq, Repr

/-- The names bound in one scope, under their keys, and the rule that the scope opened, if any. -/
structure Frame where
  values : Entries Value
  mixins : Entries Definition
  functions : Entries Definition
  parent : Option ParentBlock

def Frame.empty : Frame := ⟨[], [], [], none⟩

/-- Frames from the innermost outwards, without the root frame, and the root frame. -/
structure Scopes where
  inner : List Frame
  root : Frame

namespace Scopes

def initial : Scopes := ⟨[], { Frame.empty with parent := some .topLevel }⟩

/-- How many frames there are. -/
def depth (s : Scopes) : Nat := s.inner.length + 1

def frames (s : Scopes) : List Frame := s.inner ++ [s.root]

def enter (s : Scopes) : Scopes := { s with inner := Frame.empty :: s.inner }

/-- Closes the innermost frame; the root frame stays. -/
def leave (s : Scopes) : Scopes := { s with inner := s.inner.drop 1 }

/-- Takes away the frames above a depth. They are answered too, so that they can be put back. -/
def hideAbove (s : Scopes) (depth : Nat) : List Frame × Scopes :=
  let count := s.depth - max 1 depth
  (s.inner.take count, { s with inner := s.inner.drop count })

def restore (s : Scopes) (hidden : List Frame) : Scopes := { s with inner := hidden ++ s.inner }

theorem restore_hideAbove (s : Scopes) (depth : Nat) :
    (s.hideAbove depth).2.restore (s.hideAbove depth).1 = s := by
  simp [hideAbove, restore]

/-- The innermost frame after a change. -/
def modifyCurrent (s : Scopes) (change : Frame → Frame) : Scopes :=
  match s.inner with
  | [] => { s with root := change s.root }
  | frame :: outer => { s with inner := change frame :: outer }

/-! ## Variables -/

def valueOf? (s : Scopes) (name : String) : Option Value :=
  s.frames.findSome? fun f => f.values.get? (nameKey name)

/-- Binds a variable in the innermost frame. -/
def define (s : Scopes) (name : String) (value : Value) : Scopes :=
  s.modifyCurrent fun f => { f with values := f.values.put (nameKey name) value }

/-- Binds a variable in the root frame. -/
def setGlobal (s : Scopes) (name : String) (value : Value) : Scopes :=
  { s with root := { s.root with values := s.root.values.put (nameKey name) value } }

/-- Rebinds a key in the first of some frames that binds it. -/
def rebind? (key : String) (value : Value) : List Frame → Option (List Frame)
  | [] => none
  | f :: outer =>
    if f.values.has key then some ({ f with values := f.values.put key value } :: outer)
    else (rebind? key value outer).map (f :: ·)

/-- Assigns to a variable where it is bound, and in the innermost frame if it is nowhere. -/
def assign (s : Scopes) (name : String) (value : Value) : Scopes :=
  match rebind? (nameKey name) value s.inner with
  | some inner => { s with inner }
  | none =>
    if s.root.values.has (nameKey name) then s.setGlobal name value else s.define name value

/-- Assigns to a variable that is unbound or null. -/
def assignDefault (s : Scopes) (name : String) (value : Value) : Scopes :=
  if ((s.valueOf? name).all Value.isNull) then s.assign name value else s

/-! ## Mixins and functions -/

def mixin? (s : Scopes) (name : String) : Option Definition :=
  s.frames.findSome? fun f => f.mixins.get? (nameKey name)

def function? (s : Scopes) (name : String) : Option Definition :=
  s.frames.findSome? fun f => f.functions.get? (nameKey name)

def defineMixin (s : Scopes) (d : Definition) : Scopes :=
  s.modifyCurrent fun f => { f with mixins := f.mixins.put (nameKey d.name) d }

def defineFunction (s : Scopes) (d : Definition) : Scopes :=
  s.modifyCurrent fun f => { f with functions := f.functions.put (nameKey d.name) d }

/-! ## The rule around a statement -/

def parent (s : Scopes) : ParentBlock :=
  (s.frames.findSome? Frame.parent).getD .topLevel

def setParent (s : Scopes) (parent : ParentBlock) : Scopes :=
  s.modifyCurrent fun f => { f with parent := some parent }

end Scopes

end Scss
