import Scss.Text.Blank
import Scss.Text.Split

/-!
# Paths and urls

A path is a text of segments between slashes. `UrlPath.clean` takes the segments `.` and `..` out of
it without changing where it leads, and `UrlPath.rebase` moves a relative url along with the
stylesheet that mentions it.
-/

namespace Scss.UrlPath

open Scss.Text

/-- The segments of a cleaned path in reverse, after one more segment. Going up from the root of an
absolute path stays there; going up from the start of a relative one is remembered. -/
def enter (absolute : Bool) (segments : List (List Char)) (segment : List Char) :
    List (List Char) :=
  if segment = [] ∨ segment = ['.'] then segments
  else if segment = ['.', '.'] then
    match segments with
    | last :: outer => if last = ['.', '.'] then segment :: segments else outer
    | [] => if absolute then [] else [segment]
  else segment :: segments

def isAbsolute (path : List Char) : Bool := path.head? == some '/'

/-- The segments of a path without `.`, and without `..` behind another segment. -/
def segments (path : List Char) : List (List Char) :=
  ((splitAt '/' path).foldl (enter (isAbsolute path)) []).reverse

def cleanChars (path : List Char) : List Char :=
  let kept := segments path
  let front := if isAbsolute path then ['/'] else []
  let back := if path.getLast? == some '/' && !kept.isEmpty then ['/'] else []
  front ++ List.intercalate ['/'] kept ++ back

/-- A path with `.` and `..` resolved; a slash at its end is kept. -/
def clean (path : String) : String := String.ofList (cleanChars path.toList)

/-- The directory of a path, up to its last slash. -/
def directory (path : String) : String := (cutAfterLast '/' path).1

/-- The directory of a stylesheet imported as `target` by one in `base`, as urls see it. -/
def importedDirectory (base target : String) : String :=
  let own := directory target
  if startsWith own "/" then clean own else clean (base ++ own)

/-- Whether an address leads to the same place from everywhere, or is still to be computed. -/
def isFixed (url : String) : Bool :=
  url.isEmpty || startsWith url "/" || startsWith url "#" || url.toList.contains ':' ||
    hasInterpolation url

/-- A url as seen from the directory above `base`. -/
def rebase (base url : String) : String :=
  let trimmed := trim url
  if base.isEmpty || isFixed trimmed then url else clean (base ++ trimmed)

end Scss.UrlPath
