import Scss.CommandLine

/-!
# The program

What a run does is settled by `CommandLine.run`. Here the files that it can see are read before
it, and what it has changed among them is written after it.
-/

namespace Scss.Shell

/-- The path of a location. -/
def path (location : Location) : String := "/" ++ String.intercalate "/" location

/-- The location of a path seen from a directory. -/
def location (directory path : String) : Location :=
  ((Text.splitAt '/' (UrlPath.clean (Path.join directory path)).toList).filter
    fun segment => !Path.isIdle segment).map String.ofList

/-- Adds a file, or a directory with all that is below it. Links to directories are not followed,
and what cannot be read is taken to be absent. -/
partial def gather (place : Location) (entry : IO.FS.DirEntry) (tree : FileTree) :
    IO FileTree := do
  try
    match (← entry.path.metadata).type with
    | .file =>
      let content ← IO.FS.readBinFile entry.path
      return { tree with files := (place, content) :: tree.files }
    | .dir =>
      let mut tree := { tree with directories := place :: tree.directories }
      for child in ← entry.path.readDir do
        let linked := (← child.path.symlinkMetadata).type == .symlink && (← child.path.isDir)
        if !linked then tree ← gather (place ++ [child.fileName]) child tree
      return tree
    | _ => return tree
  catch _ => return tree

/-- The files below the working directory and around the paths that the arguments name. -/
def snapshot (arguments : List String) : IO FileTree := do
  let current ← IO.currentDir
  let here := location "/" current.toString
  match CommandLine.Invocation.read arguments with
  | .error _ => return .empty here
  | .ok invocation =>
    let mut tree := FileTree.empty here
    let mut seen : List Location := []
    for named in "." :: invocation.paths.flatMap fun p => [Path.parent p, p] do
      let place := location current.toString named
      if !seen.any fun s => s.isPrefixOf place then
        seen := place :: seen
        tree ← gather place ⟨current, path place⟩ tree
    return tree

/-- Makes the directories and writes the files that are new. -/
def writeBack (before after : FileTree) : IO Unit := do
  for place in after.directories.reverse do
    if !before.isDirectoryAt place then IO.FS.createDirAll (path place)
  for (place, content) in after.files do
    if before.contentAt? place != some content then IO.FS.writeBinFile (path place) content

end Scss.Shell

open Scss in
def main (arguments : List String) : IO UInt32 := do
  let start ← IO.monoMsNow
  let before ← Shell.snapshot arguments
  let outcome := CommandLine.run arguments before
  try
    Shell.writeBack before outcome.files
  catch e =>
    IO.eprintln ("IO Error: " ++ toString e)
    return 1
  IO.print (CommandLine.renderLines ((← IO.monoMsNow) - start) outcome.output)
  for message in outcome.messages do
    IO.eprintln message
  return outcome.exitCode.toUInt32
