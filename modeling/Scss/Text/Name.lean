/-!
# Names

Variables, properties, functions and at-rules are named by ASCII letters, digits, `-` and `_`
and any character outside ASCII. In a name `-` and `_` are interchangeable, so names are
looked up by a key that reads every `_` as `-`.
-/

namespace Scss.Text

def isAscii (c : Char) : Bool := c.toNat < 128

/-- Whether a name can begin with this character; a dash may also begin one, but that depends on
what follows it. -/
def isNameStart (c : Char) : Bool := c.isAlpha || c == '_' || !isAscii c

/-- Whether a name can go on with this character. -/
def isNameChar (c : Char) : Bool := c.isAlphanum || c == '-' || c == '_' || !isAscii c

theorem isNameChar_of_isNameStart (c : Char) (h : isNameStart c) : isNameChar c := by
  simp only [isNameStart, isNameChar, Char.isAlphanum, Bool.or_eq_true] at *
  rcases h with (h | h) | h <;> simp [h]

/-- The name at the front of a text, and what follows it. A backslash carries the character after
it into the name. -/
def spanName : List Char → List Char × List Char
  | [] => ([], [])
  | '\\' :: [] => (['\\'], [])
  | '\\' :: c :: rest => let (name, after) := spanName rest; ('\\' :: c :: name, after)
  | c :: rest =>
    if isNameChar c then let (name, after) := spanName rest; (c :: name, after)
    else ([], c :: rest)

/-- The key under which a name is looked up. -/
def nameKey (name : String) : String := name.map fun c => if c = '_' then '-' else c

/-- Whether two names differ at most in the case of ASCII letters. -/
def sameIgnoringCase (a b : String) : Bool := a.toLower == b.toLower

end Scss.Text
