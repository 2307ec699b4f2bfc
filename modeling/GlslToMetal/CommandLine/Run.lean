import GlslToMetal.CommandLine.Invocation
import GlslToMetal.Config.Store

/-! Running the program on a command line. It ends with a code: zero if all went well, one if the
command failed, two if the command line is wrong. -/

namespace GlslToMetal.CommandLine

variable {m : Type → Type} [Monad m]

/-- What the program is told by its surroundings. -/
structure Environment where
  user : Config.UserDirectories := {}
  /-- The file of settings to use when the command line names none. -/
  config? : Option String := none

def usage : String :=
  "Usage: vulpes-shader [OPTIONS] <COMMAND>\n\nCommands:\n" ++
    "  transpile  Write Metal source for one or more shaders\n" ++
    "  check      Check shaders and report diagnostics\n" ++
    "  info       Print stages, ambient values and effect slots\n\nOptions:\n" ++
    "  -c, --config <CONFIG>          Read settings from this file\n" ++
    "  -C, --directory <DIRECTORY>    Change to this directory first\n" ++
    "  -v, --verbose                  Raise log verbosity\n" ++
    "  -q, --quiet                    Only log errors\n" ++
    "      --log <LEVEL>              Explicit log level\n" ++
    "      --log-format <LOG_FORMAT>  Log line format\n" ++
    "  -h, --help                     Print help\n" ++
    "  -V, --version                  Print version\n"

def perform (host : Host m) (config : Config) : Task → Command m Unit
  | .lower args => Command.lower host args config
  | .check args => Command.check host args config
  | .info args => Command.info host args config

def obey (host : Host m) (environment : Environment) (i : Invocation) : Command m Unit := do
  match i.directory? with
  | some directory => Command.perform .io (host.enter directory)
  | none => pure ()
  let config ← Config.load host environment.user i.config?
  perform host config i.task

def exitCode : Except CommandError Unit → Nat
  | .ok _ => 0
  | .error (.fault _) => 101
  | .error _ => 1

def run (host : Host m) (environment : Environment) (args : List String) : m Nat := do
  match parse environment.config? args with
  | .error .version =>
    host.print ("vulpes-shader " ++ Command.version ++ "\n" : String)
    return 0
  | .error .help =>
    host.print usage
    return 0
  | .error .usage =>
    host.notify usage
    return 2
  | .ok i =>
    let result ← (obey host environment i).run
    match result with
    | .ok _ => pure ()
    | .error e => host.notify e.describe
    return exitCode result

end GlslToMetal.CommandLine
