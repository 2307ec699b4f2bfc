import GlslToMetal.Build

/-! Error reports: a code, what went wrong, the cause below it and advice. -/

namespace GlslToMetal

/-- What is told about an error. -/
structure Report where
  code : String
  message : String
  cause : Option String := none
  help : Option String := none
  deriving DecidableEq, Repr

namespace Report

def splitLines : List Char → List (List Char)
  | [] => [[]]
  | c :: rest =>
    match splitLines rest with
    | [] => [[c]]
    | line :: lines => if c == '\n' then [] :: line :: lines else (c :: line) :: lines

def trimSpaces (line : List Char) : String :=
  String.ofList (line.reverse.dropWhile (· == ' ')).reverse

def hanging (first further : String) (text : String) : String :=
  match (splitLines text.toList).map trimSpaces with
  | [] => ""
  | head :: rest => String.join (((first ++ head) :: rest.map (further ++ ·)).map (· ++ "\n"))

def render (r : Report) : String :=
  r.code ++ "\n\n" ++ hanging "  x " "  | " r.message ++
    (r.cause.map (hanging "  `-> " "      ")).getD "" ++
    (r.help.map (hanging "  help: " "        ")).getD ""

end Report

def Lowering.Error.report (e : Lowering.Error) : Report :=
  match e with
  | .invalidEntrySymbol _ =>
    { code := "vulpes::invalid_entry_symbol", message := e.message
      help := some ("entry symbols must start with a letter or `_` and contain only letters, " ++
        "digits and `_`") }
  | .sourceUnavailable _ cause =>
    { code := "vulpes::source_unavailable", message := e.message, cause := some cause.message }
  | .stage _ => { code := "vulpes::stage_failed", message := e.message }

def BuildError.report (e : BuildError) : Report :=
  match e with
  | .lowering e => e.report
  | .compile _ _ _ =>
    { code := "vulpes::compile_failed", message := e.message
      help := some "the generated source is attached; compiler messages refer to its lines" }
  | .link _ _ _ => { code := "vulpes::pipeline_failed", message := e.message }

end GlslToMetal
