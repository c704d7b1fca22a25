/-!
# Positions

Where a token or statement stands: the file it was read from, and its line and column there,
both counted from one. Positions serve messages only.
-/

namespace Scss

structure Position where
  uri : String
  line : Nat
  column : Nat
  deriving DecidableEq, Repr, Inhabited

def Position.text (p : Position) : String :=
  p.uri ++ ":" ++ toString p.line ++ ":" ++ toString p.column

/-- The position at the start of a file. -/
def Position.start (uri : String) : Position := ⟨uri, 1, 1⟩

/-- The position behind one more character. -/
def Position.step (p : Position) (c : Char) : Position :=
  if c = '\n' then { p with line := p.line + 1, column := 1 } else { p with column := p.column + 1 }

/-- The position behind some text. -/
def Position.after (p : Position) (text : List Char) : Position := text.foldl Position.step p

@[simp] theorem Position.after_nil (p : Position) : p.after [] = p := rfl

@[simp] theorem Position.after_cons (p : Position) (c : Char) (text : List Char) :
    p.after (c :: text) = (p.step c).after text := rfl

theorem Position.after_append (p : Position) (s t : List Char) :
    p.after (s ++ t) = (p.after s).after t := List.foldl_append

end Scss
