import GlslToMetal.Lowering.Run

/-! Building a render pipeline from a shader: lower it, compile the result, and link the compiled
function with a vertex function. Compiling and linking belong to the graphics system and are given
as functions. -/

namespace GlslToMetal

/-- The parts of the graphics system: a compiler that finds the function of a symbol in a source,
and a linker that makes a pipeline of a vertex function, a fragment function and a pixel format. -/
structure Graphics (Vertex Function Format Pipeline : Type) where
  compile : Text → Text → Except String Function
  link : Vertex → Function → Format → Except String Pipeline

/-- Why no pipeline was built. The last two carry the generated source. -/
inductive BuildError where
  | lowering (e : Lowering.Error)
  | compile (entrySymbol : Text) (message : String) (assembled : Text)
  | link (entrySymbol : Text) (message : String) (assembled : Text)
  deriving DecidableEq, Repr

def BuildError.message : BuildError → String
  | .lowering e => e.message
  | .compile symbol message _ =>
    "shader compilation failed for `" ++ symbol.toString ++ "`: " ++ message
  | .link symbol message _ =>
    "render pipeline creation failed for `" ++ symbol.toString ++ "`: " ++ message

/-- A pipeline, the program behind it, and what was said on the way. -/
structure Built (Pipeline : Type) where
  pipeline : Pipeline
  assembled : Assembled
  diagnostics : List Diagnostic

def Graphics.build {Vertex Function Format Pipeline : Type}
    (g : Graphics Vertex Function Format Pipeline) (lowerer : Lowering.Lowerer) (source : Text)
    (vertex : Vertex) (format : Format) : Checked (Except BuildError (Built Pipeline)) := do
  match ← lowerer.lower source with
  | .error e => return .error (.lowering e)
  | .ok output =>
    let assembled := output.assembled
    match g.compile assembled.source assembled.entrySymbol with
    | .error message => return .error (.compile assembled.entrySymbol message assembled.source)
    | .ok function =>
      match g.link vertex function format with
      | .error message => return .error (.link assembled.entrySymbol message assembled.source)
      | .ok pipeline => return .ok ⟨pipeline, assembled, output.diagnostics⟩

end GlslToMetal
