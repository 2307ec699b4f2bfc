import GlslToMetal.CommandLine.Run

/-! The program on a real system. The working directory is kept here and joined to every path;
toolchains run in the library's own shell, which sees nothing but the source they compile. -/

namespace GlslToMetal.Console

def errorOf (code : UInt32) : FileError :=
  match code.toNat with
  | 2 => .notFound
  | 13 => .permissionDenied
  | 17 => .alreadyExists
  | 20 => .notDirectory
  | 21 => .isDirectory
  | 28 => .noSpace
  | 36 => .nameTooLong
  | n => .other ("os error " ++ toString n)

def fileError : IO.Error → FileError
  | .noFileOrDirectory _ _ _ => .notFound
  | .alreadyExists _ code _ => errorOf code
  | .inappropriateType _ code _ => errorOf code
  | .permissionDenied _ code _ => errorOf code
  | .invalidArgument _ code _ => errorOf code
  | .resourceExhausted _ code _ => errorOf code
  | e => .other (toString e)

def attempt {α : Type} (act : IO α) : IO (Except FileError α) := do
  try return .ok (← act)
  catch e => return .error (fileError e)

/-- What is at a path: a directory, anything else, or nothing. -/
def directory? (path : String) : IO (Option Bool) := do
  try
    let found ← IO.FS.realPath path
    if ← found.isDir then return some true
    else if ← found.pathExists then return some false
    else return none
  catch _ => return none

def bytes (t : Text) : ByteArray := ⟨t.toArray⟩

def text (b : ByteArray) : Text := b.data.toList

/-- The operations of the real system, with paths taken from the directory in `cwd`. -/
def host (cwd : IO.Ref String) : Host IO where
  isFile path := do return (← directory? (Path.join (← cwd.get) path)) == some false
  isDirectory path := do return (← directory? (Path.join (← cwd.get) path)) == some true
  readText path := do
    let content ← attempt (IO.FS.readBinFile (Path.join (← cwd.get) path))
    return content >>= fun b => FileTree.asText (text b)
  write path content := do
    attempt (IO.FS.writeBinFile (Path.join (← cwd.get) path) (bytes content))
  makeDirectories path := do attempt (IO.FS.createDirAll (Path.join (← cwd.get) path))
  enter path := do
    let target := Path.join (← cwd.get) path
    match ← directory? target with
    | some true => return .ok (← cwd.set target)
    | some false => return .error .notDirectory
    | none => return .error .notFound
  print t := do (← IO.getStdout).write (bytes t)
  notify t := do (← IO.getStderr).write (bytes t)
  compile toolchain source symbol := return (toolchain.run .system [] source symbol).1

def environment : IO CommandLine.Environment := do
  let home? := (← IO.getEnv "HOME").filter (· != "")
  let settings? := (← IO.getEnv "XDG_CONFIG_HOME").filter Path.isAbsolute
  return {
    user := ⟨home?, settings?.or (home?.map (Path.join · ".config"))⟩
    config? := ← IO.getEnv "VULPES_SHADER_CONFIG" }

end GlslToMetal.Console

def main (args : List String) : IO UInt32 := do
  let cwd ← IO.mkRef ""
  let code ← GlslToMetal.CommandLine.run (GlslToMetal.Console.host cwd)
    (← GlslToMetal.Console.environment) args
  return code.toUInt32
