import GlslToMetal.Pipeline.Options

/-! The diagnostics of a run and its log. A journal keeps every diagnostic and counts those that have
not been logged yet; flushing it logs these under the name of a stage. -/

namespace GlslToMetal

/-- The weight of an event in the log. -/
inductive Severity where
  | trace
  | debug
  | info
  | warn
  | error
  deriving DecidableEq, Repr

def Level.severity : Level → Severity
  | .info => .info
  | .warning => .warn
  | .error => .error

/-- An event of the log. Events of the runner name their stage. -/
structure Event where
  severity : Severity
  message : String
  stage : Option String := none
  deriving DecidableEq, Repr

/-- Logs diagnostics one after the other, a line at a time. -/
def Diagnostic.events (display : Display) (fallback : Option String) : List Diagnostic → List Event
  | [] => []
  | d :: rest =>
    let context := (d.sourceContext.or fallback).getD "transpile"
    match d.lines? display context with
    | none => events display fallback rest
    | some lines =>
      lines.map (fun line => ⟨d.level.severity, line, none⟩) ++ events display fallback rest

namespace Pipeline

/-- The diagnostics of a run in order, and how many at their end have not been logged. -/
structure Journal where
  items : List Diagnostic := []
  pending : Nat := 0
  deriving DecidableEq, Repr

namespace Journal

def push (j : Journal) (d : Diagnostic) : Journal := ⟨j.items ++ [d], j.pending + 1⟩

def pushAll (j : Journal) (ds : List Diagnostic) : Journal := ds.foldl push j

def fresh (j : Journal) : List Diagnostic := j.items.drop (j.items.length - j.pending)

def flushed (j : Journal) : Journal := { j with pending := 0 }

def flushEvents (j : Journal) (stage : String) (o : Options) : List Event :=
  Diagnostic.events o.display (some stage) j.fresh

def hasErrors (j : Journal) : Bool := j.items.any Diagnostic.isError

def withCode (j : Journal) (code : String) : List Diagnostic :=
  j.items.filter (·.code == some code)

end Journal

end Pipeline

end GlslToMetal
