import GlslToMetal.Diagnostic.Basic
import GlslToMetal.Lowering.Step
import GlslToMetal.Pattern
import GlslToMetal.Program

/-! The entry point. A program is taken apart into the body of its entry point and everything else,
the preamble. The body becomes part of a function that returns the colour, so a return without a
value returns it there. A program without an entry point shows its input unchanged. -/

namespace GlslToMetal

/-- The entry point by name, with the names of its colour and its coordinate. -/
structure EntryPoint where
  name : Text
  output : Text
  coord : Text
  deriving DecidableEq, Repr

/-- A program taken apart at its entry point. -/
structure Extracted where
  /-- Everything but the entry point. -/
  preamble : Text
  /-- The body of the entry point without its braces. -/
  body : Text
  entryPoint? : Option EntryPoint
  output : Text
  coord : Text
  usedFallback : Bool
  deriving DecidableEq, Repr

namespace Extracted

open Pattern Unicode

def bareReturn : Pattern := fun before cs => do
  guard (atWordStart before)
  let cs ← literal "return" cs
  char (· == ';') (cs.dropWhile isWhiteSpace)

def returning (output masked body : Text) : Checked Text :=
  Edit.apply ((bareReturn.ranges masked).map fun r =>
    ⟨r, ("return " : Text) ++ output ++ (";" : Text)⟩) body

def join (before after : Text) : Text :=
  if after.isEmpty then before
  else if before.isEmpty then after
  else before ++ ("\n\n" : Text) ++ after

/-- What a program without an entry point does: show the input surface. -/
def fallback (source : Text) : Extracted where
  preamble := source.trim
  body := "fragColor = iChannel0.sample(textureSampler, fragCoord / iResolution);"
  entryPoint? := none
  output := "fragColor"
  coord := "fragCoord"
  usedFallback := true

def missingEntry : Diagnostic where
  level := .warning
  message := "no `void f(out vec4, in vec2)` entry point found; using passthrough body"
  suggestions := ["declare `void mainImage(out vec4 fragColor, in vec2 fragCoord)`"]
  sourceContext := Step.entry.name
  code := "entry-point-missing"

def found? (functions : List Signature) : Option (Signature × Text × Text × Range) := do
  let f ← Program.entryPoint? functions
  let (output, coord) ← f.entryContract?
  let body ← f.body?
  return (f, output, coord, body)

def extract (source : Text) : Checked (List Diagnostic × Extracted) := do
  match found? (← Program.functions source) with
  | none => return ([missingEntry], fallback source)
  | some (f, output, coord, body) =>
    let before ← source.slice ⟨0, f.range.start⟩
    let after ← source.slice ⟨f.range.stop, source.length⟩
    let maskedBody ← source.mask.slice body
    let sourceBody ← source.slice body
    return ([], {
      output, coord
      preamble := join before.trimEnd after.trim
      body := ← returning output maskedBody sourceBody
      entryPoint? := some ⟨f.name, output, coord⟩
      usedFallback := false })

def snapshot (e : Extracted) : Text :=
  ("// preamble\n" : Text) ++ e.preamble ++ ("\n// body (" : Text) ++ e.coord ++
    (" -> " : Text) ++ e.output ++ (")\n" : Text) ++ e.body

end Extracted

end GlslToMetal
