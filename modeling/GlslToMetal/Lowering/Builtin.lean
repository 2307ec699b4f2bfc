import GlslToMetal.Call
import GlslToMetal.Diagnostic.Basic
import GlslToMetal.Lowering.Step
import GlslToMetal.Modulus
import GlslToMetal.Text.Comment
import GlslToMetal.Text.Edit

/-! Built-in functions that Metal calls by another name. Only calls are renamed, and `atan` only
where it has two arguments. -/

namespace GlslToMetal.Builtin

def renames : List (Text × Text) :=
  [("dFdx", "dfdx"), ("dFdy", "dfdy"), ("inversesqrt", "rsqrt")]

def rename (masked : Text) (old new : Text) : List Edit :=
  (Call.sites masked old).map fun c => ⟨c.nameRange, new⟩

def isBinary (masked : Text) (c : Call) : Checked Bool :=
  match c.closeParen? masked with
  | none => return false
  | some closeParen => do return (← masked.splitArgs c.openParen closeParen).length == 2

def renameArctangent (masked : Text) : Checked (List Edit) := do
  let binary ← (Call.sites masked "atan").filterM (isBinary masked)
  return binary.map fun c => ⟨c.nameRange, "atan2"⟩

def approximated (calls : List Call) : List Diagnostic :=
  match calls with
  | [] => []
  | first :: _ => [{
      level := .info
      message := s!"`mod` mapped to `fmod` at {calls.length} site(s); " ++
        "results differ when operands have opposite signs"
      span := Span.ofRange first.nameRange
      suggestions := ["set mod semantics to `exact` for GLSL floor-based results"]
      sourceContext := Step.builtins.name
      code := "approximate-mod" }]

def lower (modulus : Modulus) (source : Text) : Checked (List Diagnostic × Text) := do
  let masked := source.mask
  let edits := rename masked "mod" modulus.functionName ++
    renames.flatMap (fun (old, new) => rename masked old new) ++ (← renameArctangent masked)
  let diagnostics := match modulus with
    | .approximate => approximated (Call.sites masked "mod")
    | .exact => []
  return (diagnostics, ← Edit.apply edits source)

end GlslToMetal.Builtin
