/-! The steps of lowering, in order, under the names by which options and diagnostics call them. -/

namespace GlslToMetal

/-- A step on the way from a GLSL program to a Metal one. -/
inductive Step where
  | directives
  | types
  | sampling
  | builtins
  | globals
  | parameters
  | ambients
  | entry
  | assembly
  deriving DecidableEq, Repr

def Step.name : Step → String
  | .directives => "strip-directives"
  | .types => "map-types"
  | .sampling => "rewrite-textures"
  | .builtins => "map-builtins"
  | .globals => "address-space"
  | .parameters => "param-qualifiers"
  | .ambients => "propagate-uniforms"
  | .entry => "extract-entry"
  | .assembly => "assemble"

end GlslToMetal
