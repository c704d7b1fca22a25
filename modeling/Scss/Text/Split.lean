/-!
# Cutting text

Text is cut at a character or at the mark that opens an interpolation, and compared at its ends.
-/

namespace Scss.Text

/-- The pieces of a text between the places where `separator` stands; there is always one. -/
def splitAt (separator : Char) : List Char → List (List Char)
  | [] => [[]]
  | c :: rest =>
    if c = separator then [] :: splitAt separator rest
    else match splitAt separator rest with
      | [] => [[c]]
      | piece :: pieces => (c :: piece) :: pieces

theorem splitAt_ne_nil (separator : Char) (cs : List Char) : splitAt separator cs ≠ [] := by
  cases cs with
  | nil => simp [splitAt]
  | cons c rest =>
    unfold splitAt
    split
    · simp
    · split <;> simp

def startsWith (text start : String) : Bool := start.toList.isPrefixOf text.toList

def endsWith (text ending : String) : Bool := ending.toList.isSuffixOf text.toList

/-- The text up to the last place where `c` stands, that place included, and the text behind it. -/
def cutAfterLast (c : Char) (text : String) : String × String :=
  let reversed := text.toList.reverse
  (String.ofList (reversed.dropWhile (· != c)).reverse,
    String.ofList (reversed.takeWhile (· != c)).reverse)

/-- What stands before and behind the first mark that opens an interpolation. -/
def cutAtInterpolation? : List Char → Option (List Char × List Char)
  | [] => none
  | '#' :: '\x7b' :: rest => some ([], rest)
  | c :: rest => (cutAtInterpolation? rest).map fun (before, behind) => (c :: before, behind)

/-- Whether an interpolation is opened somewhere. -/
def hasInterpolation (text : String) : Bool := (cutAtInterpolation? text.toList).isSome

theorem length_of_cutAtInterpolation? {cs before behind : List Char}
    (h : cutAtInterpolation? cs = some (before, behind)) :
    before.length + behind.length + 2 = cs.length := by
  fun_induction cutAtInterpolation? cs generalizing before behind with
  | case1 => simp at h
  | case2 rest =>
    simp only [Option.some.injEq, Prod.mk.injEq] at h
    obtain ⟨rfl, rfl⟩ := h
    simp
  | case3 c rest hne ih =>
    simp only [Option.map_eq_some_iff, Prod.mk.injEq, Prod.exists] at h
    obtain ⟨b, r, hr, rfl, rfl⟩ := h
    have := ih hr
    simp only [List.length_cons]
    omega

end Scss.Text
