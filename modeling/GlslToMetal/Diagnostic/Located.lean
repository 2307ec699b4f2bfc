import GlslToMetal.Diagnostic.Render

/-! Diagnostics for a reader of the source file: the file, line and column stand before the
headline, so the span itself is left out. -/

namespace GlslToMetal.Diagnostic

def location (path : String) (source : Text) (d : Diagnostic) : String :=
  match d.span with
  | none => path
  | some span =>
    let (line, column) := span.lineColumn source
    path ++ ":" ++ toString line ++ ":" ++ toString column

def located (display : Display) (path : String) (source : Text) (d : Diagnostic) : String :=
  match render display none [{ d with span := none }] with
  | [] => ""
  | headline :: rest =>
    String.join (((d.location path source ++ " " ++ headline) :: rest).map (· ++ "\n"))

def allLocated (display : Display) (path : String) (source : Text) (ds : List Diagnostic) :
    String :=
  String.join (ds.map (located display path source))

def warningCount (ds : List Diagnostic) : Nat := (ds.filter (·.level == .warning)).length

end GlslToMetal.Diagnostic
