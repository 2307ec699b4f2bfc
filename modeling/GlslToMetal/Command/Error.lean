import GlslToMetal.Report

/-! Why a command fails. -/

namespace GlslToMetal

/-- Why settings could not be loaded or saved. -/
inductive ConfigError where
  | unreadable (path : String) (cause : FileError)
  /-- The file holds no settings. -/
  | malformed (path : String)
  | directoryNotMade (cause : FileError)
  | unwritable (cause : FileError)
  | other (message : String)
  deriving DecidableEq, Repr

def ConfigError.message : ConfigError → String
  | .unreadable path cause => "Failed to read config file " ++ path ++ ": " ++ cause.message
  | .malformed path => "Failed to parse config file " ++ path
  | .directoryNotMade cause => "Failed to create config directory: " ++ cause.message
  | .unwritable cause => "Failed to write config file: " ++ cause.message
  | .other message => message

/-- Why a command fails. -/
inductive CommandError where
  | io (cause : FileError)
  | config (e : ConfigError)
  | lowering (e : Lowering.Error)
  | build (e : BuildError)
  | invalidInput (message : String)
  | checkFailed (failed total : Nat)
  /-- A text was cut at impossible offsets. -/
  | fault (f : Fault)
  deriving DecidableEq, Repr

namespace CommandError

def message : CommandError → String
  | .io cause => "IO error: " ++ cause.message
  | .config e => "Configuration error: " ++ e.message
  | .lowering e => e.message
  | .build e => e.message
  | .invalidInput message => "Invalid input: " ++ message
  | .checkFailed failed total =>
    toString failed ++ " of " ++ toString total ++ " shader(s) failed"
  | .fault _ => "a text was cut inside a character or behind its end"

def report? : CommandError → Option Report
  | .lowering e => some e.report
  | .build e => some e.report
  | _ => none

def describe (e : CommandError) : String :=
  match e.report? with
  | some r => r.render ++ "\n"
  | none => e.message ++ "\n"

end CommandError

abbrev Command (m : Type → Type) := ExceptT CommandError m

namespace Command

variable {m : Type → Type} [Monad m]

def ofExcept {ε α : Type} (f : ε → CommandError) : Except ε α → Command m α
  | .ok a => pure a
  | .error e => throw (f e)

def perform {ε α : Type} (f : ε → CommandError) (act : m (Except ε α)) : Command m α := do
  ofExcept f (← ExceptT.lift act)

end Command

end GlslToMetal
