import Scss.Text.Split

/-!
# Paths of files

A path names a file by text, and its text stays as it was written: a slash too many or a segment
`.` in its middle is kept, because messages show paths. Only at its end are slashes and segments
`.` passed over, so that `a/b/` and `a/b/.` have the same last name and the same parent as `a/b`.
-/

namespace Scss.Path

open Scss.Text

/-- Whether a segment leads nowhere: it is empty, or a single dot. -/
def isIdle (segment : List Char) : Bool := segment.isEmpty || segment == ['.']

/-- The root, or the dot, that a path begins with, and the segments behind it. -/
def cutFront : List Char → List Char × List (List Char)
  | '/' :: rest => (['/'], splitAt '/' rest)
  | ['.'] => (['.'], [])
  | '.' :: '/' :: rest => (['.'], splitAt '/' ('/' :: rest))
  | path => ([], splitAt '/' path)

/-- A path cut before its last segment. -/
structure Cut where
  front : List Char
  outer : List (List Char)
  last : List Char
  deriving DecidableEq, Repr

/-- A path cut before its last segment, idle ones aside; none if it has no other. -/
def cut? (path : String) : Option Cut :=
  let (front, segments) := cutFront path.toList
  match segments.reverse.dropWhile isIdle with
  | [] => none
  | last :: outer => some ⟨front, outer.reverse, last⟩

def ofSegments (front : List Char) (segments : List (List Char)) : String :=
  String.ofList (front ++ List.intercalate ['/'] segments)

/-- The path of the directory that holds a file, empty where the path names none. -/
def parent (path : String) : String :=
  match cut? path with
  | none => ""
  | some c => ofSegments c.front (c.outer.reverse.dropWhile isIdle).reverse

/-- The path of something inside a directory; an absolute path stays as it is. -/
def join (directory name : String) : String :=
  if startsWith name "/" then name
  else if directory.isEmpty || endsWith directory "/" then directory ++ name
  else directory ++ "/" ++ name

/-! ## Names and their extensions -/

/-- A name cut at its last dot, unless that is its first character. -/
def cutExtension (name : List Char) : List Char × Option (List Char) :=
  let reversed := name.reverse
  match reversed.dropWhile (· != '.') with
  | [] | ['.'] => (name, none)
  | _ :: stem => (stem.reverse, some (reversed.takeWhile (· != '.')).reverse)

/-- The last segment of a path, unless it leads upwards. -/
def name? (path : String) : Option String :=
  match cut? path with
  | none => none
  | some c => if c.last = ['.', '.'] then none else some (String.ofList c.last)

def extension? (path : String) : Option String :=
  match name? path with
  | none => none
  | some name => (cutExtension name.toList).2.map String.ofList

/-- A path with another extension; without a name it stays as it is. -/
def withExtension (path extension : String) : String :=
  match cut? path with
  | none => path
  | some c =>
    if c.last = ['.', '.'] then path
    else
      ofSegments c.front (c.outer ++ [(cutExtension c.last).1 ++ '.' :: extension.toList])

end Scss.Path
