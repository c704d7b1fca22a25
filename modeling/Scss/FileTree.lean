import Scss.Path

/-!
# Trees of files

A file tree holds files under their locations: the names on the way from the root. A path leads to
a location from the working directory, or from the root if it is absolute. Every segment that it
goes through has to be a directory; only what it arrives at may be missing, for it may be about to
be written.
-/

namespace Scss

/-- The names on the way from the root. -/
abbrev Location := List String

/-- Why a file cannot be read as text. -/
inductive ReadFault where
  | missing
  | directory
  | notText
  deriving DecidableEq, Repr

def ReadFault.reason : ReadFault → String
  | missing => "No such file or directory (os error 2)"
  | directory => "Is a directory (os error 21)"
  | notText => "stream did not contain valid UTF-8"

/-- Why a file or directory cannot be made. -/
inductive WriteFault where
  /-- No directory is there to hold it. -/
  | noParent
  /-- A file or directory is in its place. -/
  | occupied
  deriving DecidableEq, Repr

def WriteFault.reason : WriteFault → String
  | noParent => "No such file or directory (os error 2)"
  | occupied => "Is a directory (os error 21)"

structure FileTree where
  /-- Where relative paths begin. -/
  current : Location
  files : List (Location × ByteArray)
  /-- Directories that are there also without a file in them. -/
  directories : List Location

namespace FileTree

/-- A tree in which the working directory is empty. -/
def empty (current : Location) : FileTree := ⟨current, [], [current]⟩

/-! ## What stands at a location -/

def contentAt? (tree : FileTree) (location : Location) : Option ByteArray :=
  (tree.files.find? fun f => f.1 == location).map Prod.snd

def isFileAt (tree : FileTree) (location : Location) : Bool := (tree.contentAt? location).isSome

/-- A directory is the root, or on the way to a file or to another directory. -/
def isDirectoryAt (tree : FileTree) (location : Location) : Bool :=
  location.isEmpty || tree.directories.any location.isPrefixOf ||
    tree.files.any fun f => location.isPrefixOf f.1 && location != f.1

/-- The tree after a file has been put at a location. -/
def putAt (tree : FileTree) (location : Location) (content : ByteArray) : FileTree :=
  { tree with files := (location, content) :: tree.files.filter fun f => f.1 != location }

@[simp] theorem contentAt?_putAt (tree : FileTree) (location : Location) (content : ByteArray) :
    (tree.putAt location content).contentAt? location = some content := by
  simp [contentAt?, putAt]

/-! ## Where a path leads -/

/-- Goes from a directory through one segment. -/
def step (tree : FileTree) (location : Location) (segment : List Char) : Option Location :=
  if !tree.isDirectoryAt location then none
  else if Path.isIdle segment then some location
  else if segment = ['.', '.'] then some location.dropLast
  else some (location ++ [String.ofList segment])

def walk (tree : FileTree) : Location → List (List Char) → Option Location
  | location, [] => some location
  | location, segment :: rest =>
    match tree.step location segment with
    | none => none
    | some next => tree.walk next rest

/-- The location that a path leads to, whether or not there is something at it. -/
def locate? (tree : FileTree) (path : String) : Option Location :=
  if path.isEmpty then none
  else
    tree.walk (if Text.startsWith path "/" then [] else tree.current)
      (Text.splitAt '/' path.toList)

def isFile (tree : FileTree) (path : String) : Bool := (tree.locate? path).any tree.isFileAt

def isDirectory (tree : FileTree) (path : String) : Bool :=
  (tree.locate? path).any tree.isDirectoryAt

/-- The text of a file. -/
def readText (tree : FileTree) (path : String) : Except ReadFault String :=
  match tree.locate? path with
  | none => .error .missing
  | some location =>
    match tree.contentAt? location with
    | none => .error (if tree.isDirectoryAt location then .directory else .missing)
    | some content =>
      match String.fromUTF8? content with
      | none => .error .notText
      | some text => .ok text

/-! ## Writing -/

/-- Puts a file under a path. The directory that is to hold it has to be there. -/
def writeText (tree : FileTree) (path text : String) : Except WriteFault FileTree :=
  match tree.locate? path with
  | none => .error .noParent
  | some location =>
    if tree.isDirectoryAt location then .error .occupied
    else .ok (tree.putAt location text.toUTF8)

/-- Goes through a segment, making the directory that it leads to if nothing is there. -/
def stepMaking (tree : FileTree) (location : Location) (segment : List Char) :
    Except WriteFault (FileTree × Location) :=
  match tree.step location segment with
  | none => .error .noParent
  | some next =>
    if tree.isDirectoryAt next then .ok (tree, next)
    else if tree.isFileAt next then .error .occupied
    else .ok ({ tree with directories := next :: tree.directories }, next)

def walkMaking : FileTree → Location → List (List Char) → Except WriteFault FileTree
  | tree, _, [] => .ok tree
  | tree, location, segment :: rest =>
    match tree.stepMaking location segment with
    | .error fault => .error fault
    | .ok (tree, next) => walkMaking tree next rest

/-- Makes a directory and all that are missing on the way to it. -/
def makeDirectories (tree : FileTree) (path : String) : Except WriteFault FileTree :=
  walkMaking tree (if Text.startsWith path "/" then [] else tree.current)
    (Text.splitAt '/' path.toList)

/-! ## The files below a directory -/

/-- Locations in the order of a walk that enters the children of a directory by name. -/
def precedes : Location → Location → Bool
  | [], _ => true
  | _ :: _, [] => false
  | a :: as, b :: bs => if a = b then precedes as bs else a < b

/-- The paths of the files below a directory, as seen through its own path. -/
def filesBelow (tree : FileTree) (directory : String) : List String :=
  match tree.locate? directory with
  | none => []
  | some location =>
    let below := tree.files.filterMap fun f =>
      if location.isPrefixOf f.1 then some (f.1.drop location.length) else none
    (below.mergeSort precedes).map fun names => names.foldl Path.join directory

end FileTree

end Scss
