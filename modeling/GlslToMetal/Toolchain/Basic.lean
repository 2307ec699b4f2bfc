import GlslToMetal.Text.Utf8

/-! The command that compiles a generated program. -/

namespace GlslToMetal

/-- A program and its arguments. In the arguments `{input}` and `{output}` stand for the source and
for what the command makes of it. -/
structure Toolchain where
  program : String
  args : List String
  deriving DecidableEq, Repr

namespace Toolchain

def inputMark : String := "\x7binput\x7d"

def outputMark : String := "\x7boutput\x7d"

def xcrun : Toolchain :=
  ⟨"xcrun", ["-sdk", "macosx", "metal", "-c", inputMark, "-o", outputMark]⟩

end Toolchain

end GlslToMetal
