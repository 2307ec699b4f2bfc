import GlslToMetal.Config.Basic

/-! What a command line says about lowering. It wins over the settings. -/

namespace GlslToMetal

/-- The options of the commands that lower shaders. -/
structure Flags where
  entry? : Option String := none
  propagation? : Option Propagation := none
  exactModulus : Bool := false
  disabledStages : List String := []
  printStages : Bool := false
  plain : Bool := false
  deriving DecidableEq, Repr

namespace Flags

def resolve (f : Flags) (c : Config) : Lowering.Options :=
  let o := c.lowering.toOptions
  { entrySymbol? := f.entry?.or o.entrySymbol?
    propagation := f.propagation?.getD o.propagation
    modulus := if f.exactModulus then .exact else o.modulus
    pipeline := {
      o.pipeline with
      disabledStages := o.pipeline.disabledStages ++ f.disabledStages
      printStages := o.pipeline.printStages || f.printStages
      plainDiagnostics := o.pipeline.plainDiagnostics || f.plain } }

def display (f : Flags) : Display := ⟨if f.plain then .plain else .pretty, false⟩

end Flags

end GlslToMetal
