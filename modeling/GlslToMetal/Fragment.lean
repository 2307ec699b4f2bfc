import GlslToMetal.Ambient.Basic
import GlslToMetal.Entry
import GlslToMetal.Lowering.Sampling
import GlslToMetal.Modulus

/-! The generated program: fixed declarations, the preamble, and one fragment function around the
body of the entry point. -/

namespace GlslToMetal

/-- A Metal program and the function to look up in it. -/
structure Assembled where
  source : Text
  entrySymbol : Text
  /-- The body stands in for a missing entry point. -/
  fallbackBody : Bool
  deriving DecidableEq, Repr

/-- The name of a fragment function, and how `mod` is carried over. -/
structure Fragment where
  entrySymbol : Text := "vulpes_custom_fragment"
  modulus : Modulus := .approximate

namespace Fragment

def stageIn : Text := "vulpes_in"

def modHelper : Text :=
  ("template <typename T, typename U>\n" : Text) ++
    ("inline T glsl_mod(T x, U y) \x7b return x - y * floor(x / y); \x7d\n" : Text)

/-- Includes, structures and the sampler. -/
def declarations : Text :=
  ("#include <metal_stdlib>\nusing namespace metal;\n\nstruct Uniforms \x7b\n" : Text) ++
    Ambient.all.flatMap (fun a => ("    " : Text) ++ a.declaration ++ (";\n" : Text)) ++
    ("\x7d;\n\nstruct VertexOut \x7b\n    float4 position [[position]];\n" : Text) ++
    ("    float2 uv;\n\x7d;\n\n" : Text) ++
    ("constexpr sampler " : Text) ++ Sampling.samplerName ++
    ("(coord::normalized, address::clamp_to_edge, filter::linear);\n\n" : Text)

def headline (entrySymbol : Text) : Text :=
  ("fragment float4 " : Text) ++ entrySymbol ++ ("(VertexOut " : Text) ++ stageIn ++
    (" [[stage_in]], constant Uniforms& uniforms [[buffer(0)]], " : Text) ++
    ("texture2d<float> iChannel0 [[texture(0)]]) \x7b\n" : Text)

def aliases (e : Extracted) : Text :=
  Ambient.all.flatMap (fun a => ("    " : Text) ++ a.declaration ++ (" = uniforms." : Text) ++
    a.name ++ (";\n" : Text)) ++
    ("    float2 " : Text) ++ e.coord ++ (" = " : Text) ++ stageIn ++ (".position.xy;\n" : Text) ++
    ("    float4 " : Text) ++ e.output ++ (" = float4(0.0);\n" : Text)

def trimNewlines (t : Text) : Text :=
  ((t.dropWhile (· == Text.newline)).reverse.dropWhile (· == Text.newline)).reverse

def bodyLines (body : Text) : Text :=
  if (trimNewlines body).isWhite then [] else trimNewlines body ++ ("\n" : Text)

def assemble (f : Fragment) (e : Extracted) : Assembled where
  source :=
    declarations ++
      (match f.modulus with
        | .exact => modHelper ++ ("\n" : Text)
        | .approximate => []) ++
      (if e.preamble.isEmpty then [] else e.preamble ++ ("\n\n" : Text)) ++
      headline f.entrySymbol ++ aliases e ++ bodyLines e.body ++
      ("    return " : Text) ++ e.output ++ (";\n\x7d\n" : Text)
  entrySymbol := f.entrySymbol
  fallbackBody := e.usedFallback

end Fragment

end GlslToMetal
