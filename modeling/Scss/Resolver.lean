import Scss.Failure
import Scss.Entries
import Scss.FileTree
import Scss.UrlPath

/-!
# Finding imported stylesheets

A resolver finds the stylesheet that an `@import` names, as seen from the stylesheet that imports
it. A name can leave out the extension and the underscore that marks a partial, and can name a
directory with an index.
-/

namespace Scss

open Text

/-- An imported stylesheet and where it was found. -/
structure ResolvedSource where
  uri : String
  content : String
  deriving DecidableEq, Repr

/-- Finds `target` as imported from `importer`. -/
abbrev Resolver := (importer target : String) → Except Failure (Option ResolvedSource)

namespace Resolver

/-- The files tried for an import, in order. -/
def candidates (target : String) : List String :=
  let (directory, name) := cutAfterLast '/' target
  if endsWith name ".scss" then [target, directory ++ "_" ++ name]
  else [target, target ++ ".scss", directory ++ "_" ++ name ++ ".scss", target ++ "/_index.scss"]

/-- The stylesheet under the first of some paths that has one. -/
def firstFound (files : Entries String) : List String → Option ResolvedSource
  | [] => none
  | uri :: rest =>
    match files.get? uri with
    | some content => some ⟨uri, content⟩
    | none => firstFound files rest

/-- Stylesheets held in memory under cleaned paths. Imports are relative to the importer. -/
def ofEntries (files : Entries String) : Resolver := fun importer target =>
  .ok (firstFound files
    ((candidates target).map fun c => UrlPath.clean (UrlPath.directory importer ++ c)))

/-- Entries with their paths cleaned; of two that clean to one path the later counts. -/
def cleanEntries (files : Entries String) : Entries String :=
  files.foldl (fun kept (path, content) => kept.put (UrlPath.clean path) content) []

/-- The stylesheet in the first file that some paths lead to. It is known by the path that led to
it. -/
def firstFile (tree : FileTree) : List String → Except Failure (Option ResolvedSource)
  | [] => .ok none
  | path :: rest =>
    if tree.isFile path then
      match tree.readText path with
      | .ok content => .ok (some ⟨path, content⟩)
      | .error fault => .error (.importing (.unreadable path fault.reason))
    else firstFile tree rest

/-- Stylesheets in files. An import is looked for beside the importer, and then in further
directories. -/
def ofFileTree (tree : FileTree) (directories : List String) : Resolver := fun importer target =>
  firstFile tree ((Path.parent importer :: directories).flatMap fun directory =>
    (candidates target).map (Path.join directory))

/-- Whether an import is left to the browser: an address, a CSS file, or one with a media query. -/
def isPlainCss (target : String) (hasMedia : Bool) : Bool :=
  hasMedia || endsWith target ".css" || startsWith target "http://" ||
    startsWith target "https://" || startsWith target "//"

end Resolver

end Scss
