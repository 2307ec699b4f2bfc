import GlslToMetal.Diagnostic.Basic

/-! Diagnostics as lines of text, in a pretty and a plain layout. Information is shown on demand
only. -/

namespace GlslToMetal

/-- The layout of a rendered diagnostic. -/
inductive Template where
  | pretty
  | plain
  deriving DecidableEq, Repr

/-- How diagnostics are shown: the layout, and whether information is shown at all. -/
structure Display where
  template : Template := .pretty
  verbose : Bool := false
  deriving DecidableEq, Repr

namespace Diagnostic

/-- The first line: the level in the words of the layout, the context, the message and the code. -/
def headline (template : Template) (context : String) (d : Diagnostic) : String :=
  let code := (d.code.map fun code => " (" ++ code ++ ")").getD ""
  match template with
  | .pretty =>
    let mark := match d.level with
      | .error => "✖"
      | .warning => "⚠"
      | .info => "ℹ"
    mark ++ " [" ++ context ++ "] " ++ d.message ++ code
  | .plain =>
    let mark := match d.level with
      | .error => "ERROR"
      | .warning => "WARNING"
      | .info => "INFO"
    "[" ++ context ++ "] " ++ mark ++ ": " ++ d.message ++ code

def Template.suggestionMark : Template → String
  | .pretty => "   → "
  | .plain => "   suggestion: "

def isShown (verbose : Bool) (d : Diagnostic) : Bool := verbose || d.level != .info

/-- The lines of a diagnostic in a context, if it is shown. -/
def lines? (display : Display) (context : String) (d : Diagnostic) : Option (List String) :=
  if d.isShown display.verbose then
    some (d.headline display.template context ::
      (d.span.map fun s => "   at " ++ s.display).toList ++
      d.suggestions.map (Template.suggestionMark display.template ++ ·))
  else none

/-- The lines of all diagnostics. The own context of a diagnostic wins over the fallback. -/
def render (display : Display) (fallback : Option String) (ds : List Diagnostic) : List String :=
  (ds.filterMap fun d => d.lines? display ((d.sourceContext.or fallback).getD "transpile")).flatten

end Diagnostic

end GlslToMetal
