/-! The two readings of GLSL's `mod`. The quotient is rounded down in GLSL and toward zero in
Metal's `fmod`, so the results differ when the operands have opposite signs. -/

namespace GlslToMetal

/-- How `mod` is carried over. -/
inductive Modulus where
  /-- As Metal's own function, whose result has the sign of the dividend. -/
  | approximate
  /-- As a helper that computes what GLSL does. -/
  | exact
  deriving DecidableEq, Repr

namespace Modulus

def functionName : Modulus → String
  | .approximate => "fmod"
  | .exact => "glsl_mod"

def truncate (x : Float32) : Float32 := if x < 0 then x.ceil else x.floor

def evaluate : Modulus → Float32 → Float32 → Float32
  | .approximate, x, y => x - y * truncate (x / y)
  | .exact, x, y => x - y * (x / y).floor

def name : Modulus → String
  | .approximate => "approximate"
  | .exact => "exact"

def ofName? (s : String) : Option Modulus :=
  [approximate, exact].find? (·.name == s)

end Modulus

end GlslToMetal
