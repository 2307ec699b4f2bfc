import GlslToMetal.Pattern

/-! Type names. The vectors, matrices and samplers of GLSL are spelled differently in Metal, and
every whole word of the code that spells one is replaced. -/

namespace GlslToMetal

/-- The types that the two languages spell differently. -/
inductive TypeName where
  | float (n : Nat)
  | int (n : Nat)
  | uint (n : Nat)
  | bool (n : Nat)
  /-- A square matrix, by one size. -/
  | square (n : Nat)
  | matrix (columns rows : Nat)
  | sampler
  deriving DecidableEq, Repr

namespace TypeName

def sizes : List Nat := [2, 3, 4]

def all : List TypeName :=
  sizes.flatMap (fun n => [float n, int n, uint n, bool n, square n] ++ sizes.map (matrix n)) ++
    [sampler]

def glsl : TypeName → String
  | float n => s!"vec{n}"
  | int n => s!"ivec{n}"
  | uint n => s!"uvec{n}"
  | bool n => s!"bvec{n}"
  | square n => s!"mat{n}"
  | matrix columns rows => s!"mat{columns}x{rows}"
  | sampler => "sampler2D"

def metal : TypeName → String
  | float n => s!"float{n}"
  | int n => s!"int{n}"
  | uint n => s!"uint{n}"
  | bool n => s!"bool{n}"
  | square n => s!"float{n}x{n}"
  | matrix columns rows => s!"float{columns}x{rows}"
  | sampler => "texture2d<float>"

def ofGlsl? (word : Text) : Option TypeName := all.find? fun t => word == (t.glsl : Text)

def pattern : Pattern := fun before cs =>
  if Pattern.atWordStart before then
    all.findSome? fun t => (Pattern.literal t.glsl cs).bind Pattern.wordEnd
  else none

def toMetal (word : Text) : Text := ((ofGlsl? word).map fun t => (t.metal : Text)).getD word

def lower (source : Text) : Checked Text :=
  Edit.apply (pattern.codeEdits source toMetal) source

end TypeName

end GlslToMetal
