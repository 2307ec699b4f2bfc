import GlslToMetal.Command.Error
import GlslToMetal.Config.Basic
import GlslToMetal.Host

/-! Information on the program and its settings. -/

namespace GlslToMetal.Command

variable {m : Type → Type} [Monad m]

def version : String := "0.1.0"

/-- What to show. -/
structure InfoArgs where
  stages : Bool := false
  effects : Bool := false
  all : Bool := false

def banner : String :=
  "Vulpes Shader\nVersion: " ++ version ++ "\nTarget: Metal Shading Language\n\n"

def padded (width : Nat) (word : String) : String :=
  word ++ String.ofList (List.replicate (width - word.length) ' ')

def stageTable (lowerer : Lowering.Lowerer) : String :=
  let rows := lowerer.pipeline.names.zipIdx.map fun (stage, i) =>
    let state := if lowerer.options.pipeline.enables stage then "on" else "off"
    "  " ++ toString (i + 1) ++ ". " ++ padded 20 stage ++ " " ++ state ++ "\n"
  "Stages\n" ++ String.join rows ++ "\n"

def effectTable (config : Config) : String :=
  let rows := EffectKind.all.map fun kind =>
    let source := (config.effects kind).getD "(built-in)"
    "  " ++ padded 16 kind.name ++ " " ++ padded 34 kind.entrySymbol ++ " " ++ source ++ "\n"
  "Effects\n" ++ String.join rows ++ "\n"

def overview (config : Config) : String :=
  let rows := Ambient.all.map fun a => "  " ++ a.type.toString ++ " " ++ a.name.toString ++ "\n"
  "Ambient values\n" ++ String.join rows ++
    "Entry symbol: " ++ config.lowering.toOptions.entrySymbol ++ "\n" ++
    "Propagation: " ++ config.lowering.propagation.name ++ "\n" ++
    "Mod semantics: " ++ config.lowering.modulus.name ++ "\n" ++
    "Compiler: " ++ config.toolchain.program ++ " " ++ " ".intercalate config.toolchain.args ++ "\n"

/-- Shows what is asked for, or else an overview. -/
def info (host : Host m) (args : InfoArgs) (config : Config) : Command m Unit := do
  host.print banner
  if args.all || args.stages then
    let options := config.lowering.toOptions
    let lowerer ← ofExcept .lowering (Lowering.Lowerer.ofOptions options)
    host.print (stageTable lowerer)
  if args.all || args.effects then host.print (effectTable config)
  if !args.stages && !args.effects && !args.all then host.print (overview config)

end GlslToMetal.Command
