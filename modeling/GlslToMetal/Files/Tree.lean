import GlslToMetal.Files.Path
import GlslToMetal.Text.Utf8

/-! A tree of files as a map from places to contents. A place is the list of names that leads to it
from the root, which is always a directory. Paths are looked up as an operating system does, part by
part from the root or from a working directory, and each operation says why it fails. -/

namespace GlslToMetal

/-- What a place holds. -/
inductive Entry where
  | directory
  | file (content : Text)
  deriving DecidableEq, Repr

/-- Why an operation on files failed. -/
inductive FileError where
  | notFound
  | permissionDenied
  | alreadyExists
  | notDirectory
  | isDirectory
  | noSpace
  | nameTooLong
  /-- The path holds a byte that no path can hold. -/
  | nulInPath
  /-- The content is no text. -/
  | notUtf8
  /-- Any other reason, in the words of the system. -/
  | other (message : String)
  deriving DecidableEq, Repr

def FileError.message : FileError → String
  | .notFound => "No such file or directory (os error 2)"
  | .permissionDenied => "Permission denied (os error 13)"
  | .alreadyExists => "File exists (os error 17)"
  | .notDirectory => "Not a directory (os error 20)"
  | .isDirectory => "Is a directory (os error 21)"
  | .noSpace => "No space left on device (os error 28)"
  | .nameTooLong => "File name too long (os error 36)"
  | .nulInPath => "file name contained an unexpected NUL byte"
  | .notUtf8 => "stream did not contain valid UTF-8"
  | .other message => message

abbrev Place := List String

/-- Files that keep nothing of what is written to them. -/
inductive Device where
  | null
  /-- Has no space for anything. -/
  | full
  | stdin
  | stdout
  | stderr
  deriving DecidableEq, Repr

namespace Device

def all : List Device := [null, full, stdin, stdout, stderr]

def name : Device → String
  | null => "null"
  | full => "full"
  | stdin => "stdin"
  | stdout => "stdout"
  | stderr => "stderr"

def place (d : Device) : Place := ["dev", d.name]

def at? (p : Place) : Option Device := all.find? fun d => d.place == p

end Device

/-- Files and directories by place; of two entries for one place the first counts. -/
structure FileTree where
  entries : List (Place × Entry) := []
  deriving DecidableEq, Repr

namespace FileTree

/-- The tree of a system on which nothing has been done: its usual directories and its devices. -/
def system : FileTree where
  entries :=
    (["bin", "boot", "dev", "etc", "home", "lib", "media", "mnt", "opt", "proc", "root", "run",
      "sbin", "srv", "sys", "tmp", "usr", "var"].map fun name => ([name], Entry.directory)) ++
    ([["usr", "bin"], ["usr", "lib"], ["usr", "local"], ["usr", "share"], ["var", "tmp"]].map
      fun place => (place, Entry.directory)) ++
    (Device.all.map fun d => (d.place, Entry.file []))

def get? (tree : FileTree) (place : Place) : Option Entry :=
  if place.isEmpty then some .directory else tree.entries.lookup place

def set (tree : FileTree) (place : Place) (entry : Entry) : FileTree :=
  ⟨(place, entry) :: tree.entries.filter (·.1 != place)⟩

def erase (tree : FileTree) (place : Place) : FileTree :=
  ⟨tree.entries.filter (·.1 != place)⟩

def nameLimit : Nat := 255

def pathLimit : Nat := 4096

def checkName (name : String) : Except FileError Unit :=
  if nameLimit < name.utf8ByteSize then .error .nameTooLong else .ok ()

def enter (tree : FileTree) (place : Place) (piece : String) : Except FileError Place := do
  if piece == "." then return place
  if piece == ".." then return place.dropLast
  checkName piece
  match tree.get? (place ++ [piece]) with
  | none => .error .notFound
  | some (.file _) => .error .notDirectory
  | some .directory => return place ++ [piece]

/-- Where a path leads once all but its last piece is followed. -/
inductive Destination where
  /-- To a directory that is there, because the last piece is a dot, two dots or none. -/
  | directory (place : Place)
  /-- To a name in a directory that is there. A slash behind it demands a directory. -/
  | name (directory : Place) (name : String) (slash : Bool)
  deriving DecidableEq, Repr

/-- Follows a path from the working directory `cwd` up to its last piece. -/
def locate (tree : FileTree) (cwd : Place) (path : String) : Except FileError Destination := do
  if path.toList.contains '\x00' then throw .nulInPath
  if path == "" then throw .notFound
  if pathLimit ≤ path.utf8ByteSize then throw .nameTooLong
  let pieces := Path.pieces path
  let directory ← pieces.dropLast.foldlM tree.enter (if Path.isAbsolute path then [] else cwd)
  match pieces.getLast? with
  | none => return .directory directory
  | some last =>
    if last == "." then return .directory directory
    else if last == ".." then return .directory directory.dropLast
    else return .name directory last (Path.hasTrailingSlash path)

/-- What a path leads to, and where that is. -/
def find (tree : FileTree) (cwd : Place) (path : String) : Except FileError (Place × Entry) := do
  match ← tree.locate cwd path with
  | .directory place => return (place, .directory)
  | .name directory name slash =>
    checkName name
    match tree.get? (directory ++ [name]) with
    | none => throw .notFound
    | some .directory => return (directory ++ [name], .directory)
    | some (.file content) =>
      if slash then throw .notDirectory else return (directory ++ [name], .file content)

def isDirectory (tree : FileTree) (cwd : Place) (path : String) : Bool :=
  match tree.find cwd path with
  | .ok (_, .directory) => true
  | _ => false

def isFile (tree : FileTree) (cwd : Place) (path : String) : Bool :=
  match tree.find cwd path with
  | .ok (_, .file _) => true
  | _ => false

def read (tree : FileTree) (cwd : Place) (path : String) : Except FileError Text := do
  match ← tree.find cwd path with
  | (_, .file content) => return content
  | (_, .directory) => throw .isDirectory

def asText (content : Text) : Except FileError Text :=
  if content.isUtf8 then .ok content else .error .notUtf8

def readText (tree : FileTree) (cwd : Place) (path : String) : Except FileError Text := do
  asText (← tree.read cwd path)

/-- The place of a file to write to: one that is there, or a new one in an existing directory. -/
def target (tree : FileTree) (cwd : Place) (path : String) : Except FileError Place := do
  match ← tree.locate cwd path with
  | .directory _ => throw .isDirectory
  | .name _ _ true => throw .isDirectory
  | .name directory name false =>
    checkName name
    match tree.get? (directory ++ [name]) with
    | some .directory => throw .isDirectory
    | _ => return directory ++ [name]

def store (tree : FileTree) (place : Place) (content : Text) : Except FileError FileTree :=
  match Device.at? place with
  | none => .ok (tree.set place (.file content))
  | some .full => if content.isEmpty then .ok tree else .error .noSpace
  | some _ => .ok tree

def write (tree : FileTree) (cwd : Place) (path : String) (content : Text) :
    Except FileError FileTree := do
  tree.store (← tree.target cwd path) content

def makeDirectory (tree : FileTree) (cwd : Place) (path : String) : Except FileError FileTree := do
  match ← tree.locate cwd path with
  | .directory _ => throw .alreadyExists
  | .name directory name _ =>
    checkName name
    match tree.get? (directory ++ [name]) with
    | some _ => throw .alreadyExists
    | none => return tree.set (directory ++ [name]) .directory

/-- Makes the first of some paths, each in the next, and as many of the others as that takes. -/
def makeAll (tree : FileTree) (cwd : Place) : List String → Except FileError FileTree
  | [] => .ok tree
  | path :: above =>
    let orThere (tree : FileTree) (e : FileError) : Except FileError FileTree :=
      if tree.isDirectory cwd path then .ok tree else .error e
    match tree.makeDirectory cwd path with
    | .ok made => .ok made
    | .error .notFound => do
      let tree ← tree.makeAll cwd above
      match tree.makeDirectory cwd path with
      | .ok made => .ok made
      | .error e => orThere tree e
    | .error e => orThere tree e

def makeDirectories (tree : FileTree) (cwd : Place) (path : String) : Except FileError FileTree :=
  if path == "" then .ok tree else tree.makeAll cwd (Path.ancestors path)

def names (tree : FileTree) (place : Place) : List String :=
  tree.entries.filterMap fun (p, _) =>
    if p.length == place.length + 1 && place.isPrefixOf p then p.getLast? else none

def changes (before after : FileTree) : List (Place × Text) :=
  after.entries.filterMap fun (place, entry) =>
    match entry with
    | .directory => none
    | .file content => if before.get? place == some entry then none else some (place, content)

end FileTree

end GlslToMetal
