/-!
# Blank characters

Space between words is any character with the Unicode property `White_Space`. The table below
lists its ranges; zero-width space and the byte order mark are not among them.
-/

namespace Scss.Text

/-- The ranges of code points with the property `White_Space`. -/
def blankRanges : List (Nat × Nat) :=
  [(0x09, 0x0D), (0x20, 0x20), (0x85, 0x85), (0xA0, 0xA0), (0x1680, 0x1680), (0x2000, 0x200A),
    (0x2028, 0x2029), (0x202F, 0x202F), (0x205F, 0x205F), (0x3000, 0x3000)]

/-- Whether a character separates words. -/
def isBlank (c : Char) : Bool :=
  blankRanges.any fun r => r.1 ≤ c.toNat && c.toNat ≤ r.2

/-! ## Trimming removes blanks at the ends and nothing else -/

/-- The characters without the blanks in front. -/
def dropBlanks (cs : List Char) : List Char := cs.dropWhile isBlank

/-- The characters without the blanks behind. -/
def dropBlanksEnd (cs : List Char) : List Char := (dropBlanks cs.reverse).reverse

def trimStart (s : String) : String := String.ofList (dropBlanks s.toList)

def trimEnd (s : String) : String := String.ofList (dropBlanksEnd s.toList)

def trim (s : String) : String := String.ofList (dropBlanksEnd (dropBlanks s.toList))

end Scss.Text
