import GlslToMetal.Command.Error
import GlslToMetal.Config.Document
import GlslToMetal.Host

/-! Where settings are kept: in a file that is named, or else in the usual places, of which each is
laid over those before it. -/

namespace GlslToMetal.Config

variable {m : Type → Type} [Monad m]

def fileName : String := "vulpes-shader.toml"

/-- The directories of a user. -/
structure UserDirectories where
  home? : Option String := none
  settings? : Option String := none

def candidates (user : UserDirectories) : List String :=
  (user.settings?.map fun d => Path.join (Path.join d "vulpes-shader") "config.toml").toList ++
    (user.home?.map fun d => Path.join d ("." ++ fileName)).toList ++ [fileName]

def loadFile (host : Host m) (path : String) : Command m Config := do
  let content ← Command.perform (fun e => .config (.unreadable path e)) (host.readText path)
  match parse? content with
  | some c => return c
  | none => throw (.config (.malformed path))

def loadOver (host : Host m) (c : Config) : List String → Command m Config
  | [] => return c
  | path :: rest => do
    if ← host.isFile path then loadOver host (c.merge (← loadFile host path)) rest
    else loadOver host c rest

def load (host : Host m) (user : UserDirectories) (path? : Option String) : Command m Config :=
  match path? with
  | some path => loadFile host path
  | none => loadOver host {} (candidates user)

def save (host : Host m) (c : Config) (path : String) : Command m Unit := do
  match (Path.parent? path).filter (· != "") with
  | some directory =>
    Command.perform (fun e => .config (.directoryNotMade e)) (host.makeDirectories directory)
  | none => pure ()
  Command.perform (fun e => .config (.unwritable e)) (host.write path c.render)

end GlslToMetal.Config
