import GlslToMetal.Command.Error
import GlslToMetal.Command.Flags
import GlslToMetal.Diagnostic.Located
import GlslToMetal.Host

/-! Lowering shader files. One shader goes to a file or is printed; several go to a directory, each
under its own name. -/

namespace GlslToMetal.Command

variable {m : Type → Type} [Monad m]

/-- What to lower, and where to. -/
structure LowerArgs where
  inputs : List String
  output? : Option String := none
  flags : Flags := {}

def metalName (input : String) : String :=
  ((Path.fileName? input).map Path.stem).getD "shader" ++ ".metal"

def readShader (host : Host m) (path : String) : Command m Text :=
  perform .lowering ((Lowering.sourceAt path) <$> host.readText path)

def lowerShader (host : Host m) (flags : Flags) (lowerer : Lowering.Lowerer) (path : String)
    (source : Text) : Command m Lowering.Output := do
  let output ← ofExcept .lowering (← ofExcept .fault (lowerer.lower source))
  host.notify (Diagnostic.allLocated flags.display path source output.diagnostics)
  return output

def destination? (output? : Option String) (toDirectory : Bool) (input : String) : Option String :=
  output?.map fun output => if toDirectory then Path.join output (metalName input) else output

def lowerFile (host : Host m) (args : LowerArgs) (lowerer : Lowering.Lowerer) (toDirectory : Bool)
    (input : String) : Command m Unit := do
  let source ← readShader host input
  let output ← lowerShader host args.flags lowerer input source
  match destination? args.output? toDirectory input with
  | some path =>
    perform .io (host.write path output.assembled.source)
    host.notify ("✔ " ++ input ++ " -> " ++ path ++ "\n" : String)
  | none => host.print output.assembled.source

def lower (host : Host m) (args : LowerArgs) (config : Config) : Command m Unit := do
  let lowerer ← ofExcept .lowering (Lowering.Lowerer.ofOptions (args.flags.resolve config))
  let existing ← match args.output? with
    | some output => ExceptT.lift (host.isDirectory output)
    | none => pure false
  let toDirectory := 1 < args.inputs.length || existing
  if toDirectory then
    match args.output? with
    | some directory => perform .io (host.makeDirectories directory)
    | none =>
      throw (.invalidInput "--output <DIR> is required when transpiling several files")
  args.inputs.forM (lowerFile host args lowerer toDirectory)

end GlslToMetal.Command
