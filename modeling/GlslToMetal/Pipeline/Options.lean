import GlslToMetal.Diagnostic.Render

/-! What a run of a pipeline can be told: which stages to leave out and what to log. -/

namespace GlslToMetal.Pipeline

/-- Options of a run. -/
structure Options where
  /-- Log what every stage produced. -/
  printStages : Bool := false
  /-- Show information. -/
  verbose : Bool := false
  plainDiagnostics : Bool := false
  /-- Names of stages to leave out. -/
  disabledStages : List String := []
  deriving DecidableEq, Repr

namespace Options

def enables (o : Options) (stage : String) : Bool := !o.disabledStages.contains stage

def display (o : Options) : Display :=
  ⟨if o.plainDiagnostics then .plain else .pretty, o.verbose⟩

end Options

end GlslToMetal.Pipeline
