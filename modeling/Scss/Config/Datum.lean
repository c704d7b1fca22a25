import Scss.Entries

/-!
# What a configuration file can say

Settings are texts, lists and tables of texts. Whatever else a configuration file holds counts
only as being something else.
-/

namespace Scss.Config

/-- A value in a configuration file. A key can fail to be text, in a part that nothing reads. -/
inductive Datum where
  | null
  | text (content : String)
  | list (items : List Datum)
  | table (entries : List (Option String × Datum))
  /-- A number, a truth value, a time, or a text with half of a surrogate pair. -/
  | other

instance : Inhabited Datum := ⟨.null⟩

/-! ## Characters by number -/

def hexDigit? (c : Char) : Option Nat :=
  if '0' ≤ c ∧ c ≤ '9' then some (c.toNat - '0'.toNat)
  else if 'a' ≤ c ∧ c ≤ 'f' then some (c.toNat - 'a'.toNat + 10)
  else if 'A' ≤ c ∧ c ≤ 'F' then some (c.toNat - 'A'.toNat + 10)
  else none

/-- The number that hexadecimal digits stand for. -/
def hexNumber? (digits : List Char) : Option Nat :=
  digits.foldl (fun n c => do return 16 * (← n) + (← hexDigit? c)) (some 0)

/-- The character with a number, unless the number is beyond all characters or half of a
surrogate pair. -/
def scalar? (n : Nat) : Option Char := if n.isValidChar then some (Char.ofNat n) else none

end Scss.Config
