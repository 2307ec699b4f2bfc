import GlslToMetal.Command.Lower

/-! Checking shader files: each is lowered and, if asked for, compiled, and one that fails does not
keep the others from being checked. -/

namespace GlslToMetal.Command

variable {m : Type → Type} [Monad m]

/-- What to check, and how. -/
structure CheckArgs where
  /-- The files; without any, the shaders of the settings. -/
  paths : List String := []
  compile : Bool := false
  /-- Warnings count as failures. -/
  strict : Bool := false
  flags : Flags := {}

/-- A shader to check, with its effect if the settings name it. -/
structure Target where
  path : String
  effect? : Option EffectKind := none

def targets (args : CheckArgs) (config : Config) : List Target :=
  if args.paths.isEmpty then config.effectPaths.map fun (kind, path) => ⟨path, kind⟩
  else args.paths.map fun path => ⟨path, none⟩

/-- The options for a shader. The shader of an effect has the function of the effect, unless the
command line names one. -/
def targetOptions (args : CheckArgs) (config : Config) (t : Target) : Lowering.Options :=
  let options := args.flags.resolve config
  match t.effect?, args.flags.entry? with
  | some kind, none => options.withEntrySymbol kind.entrySymbol
  | _, _ => options

def checkTarget (host : Host m) (args : CheckArgs) (config : Config) (t : Target) :
    Command m Nat := do
  let lowerer ← ofExcept .lowering (Lowering.Lowerer.ofOptions (targetOptions args config t))
  let source ← readShader host t.path
  let output ← lowerShader host args.flags lowerer t.path source
  if args.compile then
    let assembled := output.assembled
    let failed (message : String) : CommandError :=
      .build (.compile assembled.entrySymbol message assembled.source)
    discard (perform failed
      (host.compile config.toolchain assembled.source assembled.entrySymbol))
  return Diagnostic.warningCount output.diagnostics

def verdict (strict : Bool) (path : String) (warnings : Nat) : String :=
  let count := " (" ++ toString warnings ++ " warning(s)"
  if strict && 0 < warnings then "✖ " ++ path ++ count ++ ", strict)\n"
  else "✔ " ++ path ++ count ++ ")\n"

/-- Checks one shader, reports on it, and says whether it passed. A fault ends the command. -/
def checkAndReport (host : Host m) (args : CheckArgs) (config : Config) (t : Target) :
    Command m Bool := do
  match ← ExceptT.lift (checkTarget host args config t).run with
  | .ok warnings =>
    host.print (verdict args.strict t.path warnings)
    return !(args.strict && 0 < warnings)
  | .error (.fault f) => throw (.fault f)
  | .error e =>
    host.notify e.describe
    host.print ("✖ " ++ t.path ++ "\n" : String)
    return false

def check (host : Host m) (args : CheckArgs) (config : Config) : Command m Unit := do
  let targets := targets args config
  if targets.isEmpty then
    throw (.invalidInput "no shader paths given and no [effects] configured")
  host.print ("🔍 Checking " ++ toString targets.length ++ " shader(s)...\n" : String)
  let passed ← targets.mapM (checkAndReport host args config)
  let failed := (passed.filter (!·)).length
  if 0 < failed then throw (.checkFailed failed targets.length)

end GlslToMetal.Command
