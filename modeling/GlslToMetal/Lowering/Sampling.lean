import GlslToMetal.Call
import GlslToMetal.Diagnostic.Basic
import GlslToMetal.Lowering.Step
import GlslToMetal.Text.Comment
import GlslToMetal.Text.Edit
import GlslToMetal.Text.Words

/-! Sampling calls. `texture(s, uv)` becomes the method call `s.sample(textureSampler, uv)`, with a
bias or a level of detail as a further argument. The texture has to be a plain identifier; calls of
any other form stay as they are and are reported. A call inside another's arguments is reached in a
later pass, and there are eight passes. -/

namespace GlslToMetal.Sampling

def samplerName : Text := "textureSampler"

/-- The functions that sample a texture. -/
inductive Function where
  | texture
  | texture2D
  | textureLod
  deriving DecidableEq, Repr

def Function.name : Function → Text
  | .texture => "texture"
  | .texture2D => "texture2D"
  | .textureLod => "textureLod"

def sample (surface : Text) (args : List Text) : Text :=
  surface ++ (".sample(" : Text) ++ ([44, 32] : Text).intercalate (samplerName :: args) ++
    (")" : Text)

def marked (mark arg : Text) : Text := mark ++ ("(" : Text) ++ arg ++ (")" : Text)

def replacement? (f : Function) (args : List Text) : Option Text :=
  match args with
  | [] => none
  | surface :: rest =>
    if surface.isIdentifier then
      match f, rest with
      | .textureLod, [coord, level] => some (sample surface [coord, marked "level" level])
      | .textureLod, _ => none
      | _, [coord] => some (sample surface [coord])
      | _, [coord, bias] => some (sample surface [coord, marked "bias" bias])
      | _, _ => none
    else none

/-- A sampling call, and what replaces it if it can be replaced. -/
structure Site where
  range : Range
  replacement? : Option Text
  deriving DecidableEq, Repr

def site? (source : Text) (f : Function) (call : Call) : Checked (Option Site) := do
  let some closeParen := call.closeParen? source.mask | return none
  let args ← source.mask.splitArgs call.openParen closeParen
  let texts ← args.mapM source.slice
  return some ⟨⟨call.nameRange.start, closeParen + 1⟩, replacement? f (texts.map Text.trim)⟩

def sitesOf (source : Text) (f : Function) : Checked (List Site) := do
  let found ← (Call.sites source.mask f.name).mapM (site? source f)
  return found.filterMap id

def sites (source : Text) : Checked (List Site) := do
  let found ← [Function.texture, .texture2D, .textureLod].mapM (sitesOf source)
  return found.flatten

def edits (sites : List Site) : List Edit :=
  sites.filterMap fun s => s.replacement?.map (Edit.mk s.range)

def passes : Nat → Text → Checked Text
  | 0, source => return source
  | n + 1, source => do
    let edits := edits (← sites source)
    if edits.isEmpty then return source
    passes n (← Edit.apply edits source)

def maxPasses : Nat := 8

def unsupported (call : Text) (range : Range) : Diagnostic where
  level := .warning
  message := "unsupported sampling call `" ++ call.toString ++ "` left unchanged"
  span := Span.ofRange range
  sourceContext := Step.sampling.name
  code := "unsupported-texture-call"

def lower (source : Text) : Checked (List Diagnostic × Text) := do
  let left := (← sites source).filter (·.replacement?.isNone)
  let diagnostics ← left.mapM fun s => do
    return unsupported (← source.slice (Span.ofRange s.range).range) s.range
  return (diagnostics, ← passes maxPasses source)

end GlslToMetal.Sampling
