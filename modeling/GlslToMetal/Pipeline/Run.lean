import GlslToMetal.Pipeline.Journal
import GlslToMetal.Text.Utf8

/-! Pipelines. A pipeline is a sequence of stages, each taking what the one before it made. A stage
that keeps the type of its context can be optional, and then the options can leave it out. The
runner logs the diagnostics of a stage as soon as it is done, also when it fails; a failure ends the
run and carries the name of the stage that failed. -/

namespace GlslToMetal

/-- Why a stage failed. -/
structure StageError where
  stage : String
  message : String
  deriving DecidableEq, Repr

def StageError.display (e : StageError) : String := "[" ++ e.stage ++ "] " ++ e.message

/-- A step of a pipeline: what it makes of its context and of the journal that it finds, with the
diagnostics that it pushes, and what to log of its result. -/
structure Stage (α β : Type) where
  name : String
  run : α → Pipeline.Journal → Checked (List Diagnostic × Except StageError β)
  snapshot : β → Option Text

/-- A sequence of stages. -/
inductive Pipeline : Type → Type → Type 1 where
  | empty {α : Type} : Pipeline α α
  | stage {α β γ : Type} (front : Pipeline α β) (s : Stage β γ) : Pipeline α γ
  | optional {α β : Type} (front : Pipeline α β) (s : Stage β β) : Pipeline α β

namespace Pipeline

/-- What a run has said so far. -/
structure Trace where
  journal : Journal := {}
  log : List Event := []
  deriving DecidableEq, Repr

namespace Trace

def append (t : Trace) (events : List Event) : Trace := { t with log := t.log ++ events }

def flush (t : Trace) (stage : String) (o : Options) : Trace :=
  { journal := t.journal.flushed, log := t.log ++ t.journal.flushEvents stage o }

end Trace

def snapshotEvents {α β : Type} (s : Stage α β) (o : Options) (result : β) : List Event :=
  if o.printStages then
    (s.snapshot result).toList.map fun t => ⟨.trace, "\n" ++ t.toString, some s.name⟩
  else []

def runStage {α β : Type} (o : Options) (s : Stage α β) (context : α) (t : Trace) :
    Checked (Except StageError β × Trace) := do
  let (diagnostics, result) ← s.run context t.journal
  let t := Trace.flush { t with journal := t.journal.pushAll diagnostics } s.name o
  return match result with
  | .ok b => (.ok b, t.append (snapshotEvents s o b))
  | .error e => (.error { e with stage := s.name }, t)

def skipped (stage : String) : Event := ⟨.debug, "stage disabled, passing through", some stage⟩

/-- Runs the stages in order, up to the first that fails. -/
def run {α β : Type} (o : Options) (p : Pipeline α β) (context : α) (t : Trace) :
    Checked (Except StageError β × Trace) :=
  match p with
  | .empty => return (.ok context, t)
  | .stage front s => do
    match ← run o front context t with
    | (.ok mid, t) => runStage o s mid t
    | (.error e, t) => return (.error e, t)
  | .optional front s => do
    match ← run o front context t with
    | (.ok mid, t) =>
      if o.enables s.name then runStage o s mid t
      else return (.ok mid, t.append [skipped s.name])
    | (.error e, t) => return (.error e, t)

def names {α β : Type} : Pipeline α β → List String
  | .empty => []
  | .stage front s => front.names ++ [s.name]
  | .optional front s => front.names ++ [s.name]

end Pipeline

end GlslToMetal
