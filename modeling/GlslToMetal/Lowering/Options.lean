import GlslToMetal.Ambient.Threading
import GlslToMetal.Modulus
import GlslToMetal.Pipeline.Options

/-! Options of lowering a program. -/

namespace GlslToMetal.Lowering

def defaultEntrySymbol : String := "vulpes_custom_fragment"

/-- What a caller can ask for. -/
structure Options where
  entrySymbol? : Option String := none
  propagation : Propagation := .singleHop
  modulus : Modulus := .approximate
  pipeline : Pipeline.Options := {}
  deriving DecidableEq, Repr

namespace Options

def entrySymbol (o : Options) : String := o.entrySymbol?.getD defaultEntrySymbol

def withEntrySymbol (o : Options) (symbol : String) : Options :=
  { o with entrySymbol? := some symbol }

end Options

end GlslToMetal.Lowering
