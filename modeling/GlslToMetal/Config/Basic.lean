import GlslToMetal.Effect.Kind
import GlslToMetal.Lowering.Options
import GlslToMetal.Toolchain.Basic

/-! Settings: how to lower, which toolchain compiles the result, and the shader of each effect.
Settings can be laid over others; a section that says nothing but the defaults leaves the one below
it in place, and shaders are laid over effect by effect. -/

namespace GlslToMetal

instance {α : Type} [DecidableEq α] : DecidableEq (EffectKind → α) := fun f g =>
  if h : f .bloom = g .bloom ∧ f .pageTransition = g .pageTransition ∧ f .httpError = g .httpError
  then isTrue (funext fun k => by cases k <;> simp [h])
  else isFalse fun e => h (by simp [e])

/-- How to lower. -/
structure LoweringConfig where
  entrySymbol? : Option String := none
  propagation : Propagation := .singleHop
  modulus : Modulus := .approximate
  disabledStages : List String := []
  printStages : Bool := false
  plainDiagnostics : Bool := false
  deriving DecidableEq

def LoweringConfig.toOptions (c : LoweringConfig) : Lowering.Options where
  entrySymbol? := c.entrySymbol?
  propagation := c.propagation
  modulus := c.modulus
  pipeline := {
    printStages := c.printStages
    plainDiagnostics := c.plainDiagnostics
    disabledStages := c.disabledStages }

/-- All settings. -/
structure Config where
  lowering : LoweringConfig := {}
  toolchain : Toolchain := .xcrun
  /-- The path of each effect's shader. -/
  effects : EffectKind → Option String := fun _ => none
  deriving DecidableEq

namespace Config

def merge (c upper : Config) : Config where
  lowering := if upper.lowering = {} then c.lowering else upper.lowering
  toolchain := if upper.toolchain = .xcrun then c.toolchain else upper.toolchain
  effects kind := (upper.effects kind).or (c.effects kind)

def effectPaths (c : Config) : List (EffectKind × String) :=
  EffectKind.all.filterMap fun kind => (c.effects kind).map (kind, ·)

end Config

end GlslToMetal
