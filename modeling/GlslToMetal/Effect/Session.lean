import GlslToMetal.Build
import GlslToMetal.Effect.Kind

/-! A session holds one slot per effect: empty, a custom pipeline, or the reason why a custom shader
did not work. Where there is no custom pipeline the fallback is used. Every operation touches the
slot of its own effect only. -/

namespace GlslToMetal

/-- What an effect uses. -/
inductive EffectStatus where
  /-- Nothing was installed. -/
  | default
  | custom
  /-- What was installed did not work. -/
  | fallback (reason : String)
  deriving DecidableEq, Repr

/-- The outcome of an installation. -/
inductive Slot (Pipeline : Type) where
  | custom (built : Built Pipeline)
  | failed (reason : String)

/-- What a session builds with. -/
structure Studio (Vertex Function Format Pipeline : Type) where
  options : Lowering.Options
  graphics : Graphics Vertex Function Format Pipeline
  vertex : Vertex
  format : Format
  fallback : Pipeline

abbrev Session (Pipeline : Type) := EffectKind → Option (Slot Pipeline)

namespace Session

def empty {Pipeline : Type} : Session Pipeline := fun _ => none

def set {Pipeline : Type} (s : Session Pipeline) (kind : EffectKind)
    (slot : Option (Slot Pipeline)) : Session Pipeline :=
  fun k => if k = kind then slot else s k

def fail {Pipeline : Type} (s : Session Pipeline) (kind : EffectKind) (reason : String) :
    Session Pipeline × EffectStatus :=
  (s.set kind (some (.failed reason)), .fallback reason)

def clear {Pipeline : Type} (s : Session Pipeline) (kind : EffectKind) : Session Pipeline :=
  s.set kind none

def status {Pipeline : Type} (s : Session Pipeline) (kind : EffectKind) : EffectStatus :=
  match s kind with
  | none => .default
  | some (.custom _) => .custom
  | some (.failed reason) => .fallback reason

def pipeline {Pipeline : Type} (s : Session Pipeline) (fallback : Pipeline) (kind : EffectKind) :
    Pipeline :=
  match s kind with
  | some (.custom built) => built.pipeline
  | _ => fallback

def assembled? {Pipeline : Type} (s : Session Pipeline) (kind : EffectKind) : Option Assembled :=
  match s kind with
  | some (.custom built) => some built.assembled
  | _ => none

end Session

namespace Studio

variable {Vertex Function Format Pipeline : Type}

/-- What lowers the shaders of an effect; the fragment function is the one of the effect, whatever
the options say. -/
def lowerer (studio : Studio Vertex Function Format Pipeline) (kind : EffectKind) :
    Lowering.Lowerer :=
  ⟨studio.options.withEntrySymbol kind.entrySymbol⟩

def install (studio : Studio Vertex Function Format Pipeline) (s : Session Pipeline)
    (kind : EffectKind) (source : Text) : Checked (Session Pipeline × EffectStatus) := do
  match ← studio.graphics.build (studio.lowerer kind) source studio.vertex studio.format with
  | .ok built => return (s.set kind (some (.custom built)), .custom)
  | .error e => return s.fail kind e.message

def installFile (studio : Studio Vertex Function Format Pipeline) (s : Session Pipeline)
    (kind : EffectKind) (file : Except Lowering.Error Text) :
    Checked (Session Pipeline × EffectStatus) :=
  match file with
  | .ok source => studio.install s kind source
  | .error e => return s.fail kind e.message

end Studio

end GlslToMetal
