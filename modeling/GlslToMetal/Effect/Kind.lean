/-! The effects that a custom shader can replace. -/

namespace GlslToMetal

/-- A post-processing effect. -/
inductive EffectKind where
  | bloom
  | pageTransition
  | httpError
  deriving DecidableEq, Repr

namespace EffectKind

def all : List EffectKind := [bloom, pageTransition, httpError]

def name : EffectKind → String
  | bloom => "bloom"
  | pageTransition => "page-transition"
  | httpError => "http-error"

def ofName? (s : String) : Option EffectKind := all.find? (·.name == s)

/-- The fragment function of the effect. No two effects share one, so their functions fit into one
library. -/
def entrySymbol : EffectKind → String
  | bloom => "vulpes_bloom_fragment"
  | pageTransition => "vulpes_page_transition_fragment"
  | httpError => "vulpes_http_error_fragment"

end EffectKind

end GlslToMetal
