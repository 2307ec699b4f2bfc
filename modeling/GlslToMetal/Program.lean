import GlslToMetal.Signature
import GlslToMetal.Text.Comment

/-! The functions of a program text, read from its masked copy. -/

namespace GlslToMetal.Program

def functions (source : Text) : Checked (List Signature) := do
  let found ← source.mask.items.mapM (Signature.ofItem? source.mask)
  return found.filterMap id

def entryPoint? (functions : List Signature) : Option Signature :=
  functions.find? fun f => f.isDefinition && f.entryContract?.isSome

end GlslToMetal.Program
