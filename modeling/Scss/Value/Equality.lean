import Scss.Value.Basic

/-!
# When values are equal

Two notions. `Value.identical` asks for the same form throughout and serves as the last resort of
`Value.equals`, which is the `==` of a stylesheet: numbers are equal up to an error of arithmetic
if their units agree, colors by what they show, and texts whether quoted or not. Not-a-number is
not even identical to itself.
-/

namespace Scss.Value

mutual

def identical : Value → Value → Bool
  | null, null => true
  | number m, number n => m.value == n.value && m.unit == n.unit
  | color c, color d => c.identical d
  | quoted s p, quoted t q => s == t && p == q
  | word s, word t => s == t
  | .variable s, .variable t => s == t
  | call f as, call g bs => f == g && identicalArguments as bs
  | list xs s, list ys t => s == t && identicalItems xs ys
  | expression xs, expression ys => identicalTokens xs ys
  | paren x, paren y => x.identical y
  | interpolated ps p, interpolated qs q => p == q && identicalParts ps qs
  | _, _ => false

def identicalItems : List Value → List Value → Bool
  | [], [] => true
  | x :: xs, y :: ys => x.identical y && identicalItems xs ys
  | _, _ => false

def identicalArguments : List (Argument Value) → List (Argument Value) → Bool
  | [], [] => true
  | ⟨m, x, s⟩ :: xs, ⟨n, y, t⟩ :: ys =>
    m == n && x.identical y && s == t && identicalArguments xs ys
  | _, _ => false

def identicalTokens : List (ExprToken Value) → List (ExprToken Value) → Bool
  | [], [] => true
  | .operand x :: xs, .operand y :: ys => x.identical y && identicalTokens xs ys
  | .operator o :: xs, .operator p :: ys => o == p && identicalTokens xs ys
  | .blank :: xs, .blank :: ys => identicalTokens xs ys
  | _, _ => false

def identicalParts : List (TextPart Value) → List (TextPart Value) → Bool
  | [], [] => true
  | .literal s :: xs, .literal t :: ys => s == t && identicalParts xs ys
  | .embedded x :: xs, .embedded y :: ys => x.identical y && identicalParts xs ys
  | _, _ => false

end

/-- Whether a name stands for a color that shows like this one. -/
def namesColor (name : String) (c : Color) : Bool :=
  (Color.named? name).any fun named => named.sameColor c

mutual

def equals : Value → Value → Bool
  | number m, number n => m.unit == n.unit && (m.value - n.value).abs < 1e-9
  | color c, color d => c.sameColor d
  | color c, word name => namesColor name c
  | word name, color c => namesColor name c
  | quoted s _, quoted t _ => s == t
  | quoted s _, word t => s == t
  | word s, quoted t _ => s == t
  | word s, word t => s == t
  | list xs s, list ys t => s == t && equalsItems xs ys
  | x, y => x.identical y

def equalsItems : List Value → List Value → Bool
  | [], [] => true
  | x :: xs, y :: ys => x.equals y && equalsItems xs ys
  | _, _ => false

end

end Scss.Value
