import GlslToMetal.Text.Span

/-! Diagnostics: what a stage has to say about a program. -/

namespace GlslToMetal

/-- How grave a diagnostic is. -/
inductive Level where
  | info
  | warning
  | error
  deriving DecidableEq, Repr

namespace Level

def rank : Level → Nat
  | .info => 0
  | .warning => 1
  | .error => 2

def max (a b : Level) : Level := if a.rank ≤ b.rank then b else a

end Level

/-- A message about a program, where it points, and what to do about it. -/
structure Diagnostic where
  level : Level
  message : String
  span : Option Span := none
  suggestions : List String := []
  /-- The stage that speaks, if the diagnostic names one. -/
  sourceContext : Option String := none
  code : Option String := none
  deriving DecidableEq, Repr

namespace Diagnostic

def isError (d : Diagnostic) : Bool := d.level == .error

def summary (d : Diagnostic) : String :=
  d.message ++ (d.code.map fun code => " [" ++ code ++ "]").getD "" ++
    if d.suggestions.isEmpty then "" else " (hints: " ++ "; ".intercalate d.suggestions ++ ")"

def maxLevel? : List Diagnostic → Option Level
  | [] => none
  | d :: rest => some (rest.foldl (fun l e => l.max e.level) d.level)

end Diagnostic

end GlslToMetal
