import GlslToMetal.Text.Basic

/-! Ambient values: what every part of a GLSL program sees without asking, and what a function of
the generated program has to be given. -/

namespace GlslToMetal

/-- A value of the surroundings, by name and Metal type. -/
structure Ambient where
  name : Text
  type : Text
  deriving DecidableEq, Repr

namespace Ambient

def resolution : Ambient := ⟨"iResolution", "float2"⟩

def time : Ambient := ⟨"iTime", "float"⟩

def all : List Ambient := [resolution, time]

def declaration (a : Ambient) : Text := a.type ++ (" " : Text) ++ a.name

end Ambient

end GlslToMetal
