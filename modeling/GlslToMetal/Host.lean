import GlslToMetal.Toolchain.Run

/-! What a command needs of the system it runs on, and a system that is a value: files, a working
directory and what was printed. -/

namespace GlslToMetal

/-- The operations of a system, in a monad of its own. -/
structure Host (m : Type → Type) where
  isFile : String → m Bool
  isDirectory : String → m Bool
  readText : String → m (Except FileError Text)
  write : String → Text → m (Except FileError Unit)
  makeDirectories : String → m (Except FileError Unit)
  /-- Changes the working directory. -/
  enter : String → m (Except FileError Unit)
  /-- Prints a result. -/
  print : Text → m Unit
  /-- Prints a message. -/
  notify : Text → m Unit
  /-- Runs a toolchain on a source with a symbol. -/
  compile : Toolchain → Text → Text → m (Except String Artifact)

/-- A system as a value. -/
structure World where
  files : FileTree := .system
  cwd : Place := []
  stdout : Text := []
  stderr : Text := []
  deriving DecidableEq

namespace World

def keep (w : World) : Except FileError FileTree → Except FileError Unit × World
  | .ok files => (.ok (), { w with files })
  | .error e => (.error e, w)

/-- Writes a file. What is written to the outputs is printed. -/
def write (w : World) (path : String) (content : Text) : Except FileError Unit × World :=
  match w.files.target w.cwd path with
  | .error e => (.error e, w)
  | .ok place =>
    match Device.at? place with
    | some .stdout => (.ok (), { w with stdout := w.stdout ++ content })
    | some .stderr => (.ok (), { w with stderr := w.stderr ++ content })
    | _ => w.keep (w.files.store place content)

def enter (w : World) (path : String) : Except FileError Unit × World :=
  match w.files.find w.cwd path with
  | .ok (place, .directory) => (.ok (), { w with cwd := place })
  | .ok (_, .file _) => (.error .notDirectory, w)
  | .error e => (.error e, w)

def host : Host (StateM World) where
  isFile path := do return (← get).files.isFile (← get).cwd path
  isDirectory path := do return (← get).files.isDirectory (← get).cwd path
  readText path := do return (← get).files.readText (← get).cwd path
  write path content := fun w => w.write path content
  makeDirectories path := fun w => w.keep (w.files.makeDirectories w.cwd path)
  enter path := fun w => w.enter path
  print t := modify fun w => { w with stdout := w.stdout ++ t }
  notify t := modify fun w => { w with stderr := w.stderr ++ t }
  compile toolchain source symbol := fun w =>
    let (result, files) := toolchain.run w.files w.cwd source symbol
    (result, { w with files })

end World

end GlslToMetal
