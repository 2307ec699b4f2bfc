import GlslToMetal.Diagnostic.Basic
import GlslToMetal.Lowering.Step
import GlslToMetal.Program
import GlslToMetal.Text.Edit

/-! Parameter qualifiers. Output parameters become references to the caller's variable, and `in` is
dropped. An output array cannot be passed so, stays as it is, and is reported. -/

namespace GlslToMetal.Parameter

def asReference (p : Parameter) : Text :=
  ("thread " : Text) ++ p.type ++ ("& " : Text) ++ p.name

def asValue (p : Parameter) : Text :=
  (if p.isConst then ("const " : Text) else []) ++ p.type ++
    (if p.name.isEmpty then [] else (" " : Text) ++ p.name) ++ p.arraySuffix.getD []

def outputArray (function : Text) (p : Parameter) : Diagnostic where
  level := .warning
  message := "array output parameter `" ++ p.name.toString ++ "` of `" ++ function.toString ++
    "` left unchanged"
  span := Span.ofRange p.range
  sourceContext := Step.parameters.name
  code := "array-out-parameter"

def edit? (p : Parameter) : Option Edit :=
  match p.qualifier with
  | .output | .inOut => if p.arraySuffix.isSome then none else some ⟨p.range, p.asReference⟩
  | .input => some ⟨p.range, p.asValue⟩
  | .unmarked | .thread => none

def diagnostic? (function : Text) (p : Parameter) : Option Diagnostic :=
  match p.qualifier with
  | .output | .inOut => if p.arraySuffix.isSome then some (outputArray function p) else none
  | _ => none

def lower (source : Text) : Checked (List Diagnostic × Text) := do
  let functions ← Program.functions source
  let edits := functions.flatMap fun f => f.params.filterMap edit?
  let diagnostics := functions.flatMap fun f => f.params.filterMap (diagnostic? f.name)
  return (diagnostics, ← Edit.apply edits source)

end GlslToMetal.Parameter
