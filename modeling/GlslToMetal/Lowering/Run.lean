import GlslToMetal.Files.Tree
import GlslToMetal.Fragment
import GlslToMetal.Lowering.Builtin
import GlslToMetal.Lowering.Directive
import GlslToMetal.Lowering.Global
import GlslToMetal.Lowering.Options
import GlslToMetal.Lowering.Parameter
import GlslToMetal.Lowering.TypeName
import GlslToMetal.Pipeline.Run

/-! Lowering a program: the pipeline of all steps. The seven steps on program text can be left out;
taking out the entry point and assembling the program cannot. -/

namespace GlslToMetal.Lowering

def textStage (step : Step) (lower : Text → Checked (List Diagnostic × Text)) :
    Stage Text Text where
  name := step.name
  run source _ := do
    let (diagnostics, result) ← lower source
    return (diagnostics, .ok result)
  snapshot := some

/-- What the steps on text need to know. -/
structure Settings where
  modulus : Modulus := .approximate
  propagation : Propagation := .singleHop
  ambients : List Ambient := Ambient.all
  maxRounds : Option Nat := none

def lowerText (s : Settings) : Step → Text → Checked (List Diagnostic × Text)
  | .directives => Directive.strip
  | .types => fun source => do return ([], ← TypeName.lower source)
  | .sampling => Sampling.lower
  | .builtins => Builtin.lower s.modulus
  | .globals => Global.lower
  | .parameters => Parameter.lower
  | .ambients => Threading.lower s.propagation s.ambients s.maxRounds
  | .entry | .assembly => fun source => return ([], source)

def textSteps : List Step :=
  [.directives, .types, .sampling, .builtins, .globals, .parameters, .ambients]

def entryStage : Stage Text Extracted where
  name := Step.entry.name
  run source _ := do
    let (diagnostics, extracted) ← Extracted.extract source
    return (diagnostics, .ok extracted)
  snapshot e := some e.snapshot

def assemblyStage (f : Fragment) : Stage Extracted Assembled where
  name := Step.assembly.name
  run extracted _ := return ([], .ok (f.assemble extracted))
  snapshot a := some a.source

def pipeline (s : Settings) (f : Fragment) : Pipeline Text Assembled :=
  let text := textSteps.foldl (fun p step => p.optional (textStage step (lowerText s step)))
    Pipeline.empty
  (text.stage entryStage).stage (assemblyStage f)

def reserved : List String :=
  ["fragment", "vertex", "kernel", "constant", "device", "thread", "threadgroup", "struct",
    "return", "void", "float", "float2", "float4", "half", "int", "uint", "bool", "sampler",
    "texture2d", "metal", "using", "namespace", "template", "Uniforms", "VertexOut",
    "textureSampler", "uniforms", "vulpes_in", "iChannel0", "iResolution", "iTime"]

def isEntrySymbol (symbol : String) : Bool :=
  (symbol : Text).isIdentifier && !reserved.contains symbol

/-- Why a program could not be lowered. -/
inductive Error where
  | invalidEntrySymbol (symbol : String)
  /-- The source could not be read. -/
  | sourceUnavailable (path : String) (cause : FileError)
  | stage (e : StageError)
  deriving DecidableEq, Repr

def Error.message : Error → String
  | .invalidEntrySymbol symbol => "invalid entry symbol `" ++ symbol ++ "`"
  | .sourceUnavailable path _ => "shader source unavailable: " ++ path
  | .stage e => e.display

def sourceAt (path : String) : Except FileError Text → Except Error Text
  | .ok source => .ok source
  | .error cause => .error (.sourceUnavailable path cause)

/-- A lowered program, with what was said on the way. -/
structure Output where
  assembled : Assembled
  diagnostics : List Diagnostic
  log : List Event

def Output.warnings (o : Output) : List Diagnostic := o.diagnostics.filter (·.level == .warning)

/-- Options with an entry symbol that a function can have. -/
structure Lowerer where
  options : Options

def Lowerer.ofOptions (o : Options) : Except Error Lowerer :=
  if isEntrySymbol o.entrySymbol then .ok ⟨o⟩ else .error (.invalidEntrySymbol o.entrySymbol)

namespace Lowerer

def pipeline (l : Lowerer) : Pipeline Text Assembled :=
  Lowering.pipeline { modulus := l.options.modulus, propagation := l.options.propagation }
    { entrySymbol := l.options.entrySymbol, modulus := l.options.modulus }

def lower (l : Lowerer) (source : Text) : Checked (Except Error Output) := do
  let (result, trace) ← l.pipeline.run l.options.pipeline source {}
  return match result with
  | .ok assembled => .ok ⟨assembled, trace.journal.items, trace.log⟩
  | .error e => .error (.stage e)

end Lowerer

end GlslToMetal.Lowering
