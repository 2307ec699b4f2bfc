import GlslToMetal.Command.Check
import GlslToMetal.Command.Info
import GlslToMetal.CommandLine.Switch

/-! The command line of the program: a command with its arguments, and switches that any command
takes, which may stand before it or behind it. -/

namespace GlslToMetal.CommandLine

/-- A command with its arguments. -/
inductive Task where
  | lower (args : Command.LowerArgs)
  | check (args : Command.CheckArgs)
  | info (args : Command.InfoArgs)

/-- What a command line asks for. -/
structure Invocation where
  config? : Option String := none
  directory? : Option String := none
  task : Task

def isPath (s : String) : Bool := s != ""

def isLogLevel (s : String) : Bool := ["error", "warn", "info", "debug", "trace"].contains s

def isLogFormat (s : String) : Bool := ["pretty", "json"].contains s

def globalSwitches : List Switch :=
  [⟨"config", some 'c', .value isPath⟩, ⟨"directory", some 'C', .value isPath⟩,
    ⟨"verbose", some 'v', .count⟩, ⟨"quiet", some 'q', .flag⟩, ⟨"log", none, .value isLogLevel⟩,
    ⟨"log-format", none, .value isLogFormat⟩, ⟨"help", some 'h', .help⟩]

def loweringSwitches : List Switch :=
  [⟨"entry", none, .value fun _ => true⟩,
    ⟨"propagation", none, .value fun s => (Propagation.ofName? s).isSome⟩,
    ⟨"exact-mod", none, .flag⟩, ⟨"disable-stage", none, .values⟩, ⟨"print-stages", none, .flag⟩,
    ⟨"plain", none, .flag⟩]

/-- The commands: the name of each, how its part is read, and what was asked for. -/
inductive CommandName where
  | lower
  | check
  | info
  deriving DecidableEq, Repr

namespace CommandName

def all : List CommandName := [lower, check, info]

def name : CommandName → String
  | lower => "transpile"
  | check => "check"
  | info => "info"

def ofName? (s : String) : Option CommandName := all.find? (·.name == s)

def grammar : CommandName → Grammar
  | lower =>
    { table := globalSwitches ++ [⟨"output", some 'o', .value isPath⟩] ++ loweringSwitches
      accepts := isPath }
  | check =>
    { table := globalSwitches ++ [⟨"compile", none, .flag⟩, ⟨"strict", none, .flag⟩] ++
        loweringSwitches
      accepts := isPath }
  | info =>
    { table := globalSwitches ++
        [⟨"stages", none, .flag⟩, ⟨"effects", none, .flag⟩, ⟨"all", none, .flag⟩] }

end CommandName

def flagsOf (r : Reading) : Flags where
  entry? := r.get? "entry"
  propagation? := r.get? "propagation" >>= Propagation.ofName?
  exactModulus := r.has "exact-mod"
  disabledStages := r.all "disable-stage"
  printStages := r.has "print-stages"
  plain := r.has "plain"

/-- The task that was read. Lowering needs a file. -/
def taskOf (command : CommandName) (r : Reading) : Except Stop Task :=
  match command with
  | .lower =>
    if r.words.isEmpty then .error .usage
    else .ok (.lower ⟨r.words, r.get? "output", flagsOf r⟩)
  | .check => .ok (.check ⟨r.words, r.has "compile", r.has "strict", flagsOf r⟩)
  | .info => .ok (.info ⟨r.has "stages", r.has "effects", r.has "all"⟩)

def topGrammar : Grammar where
  table := globalSwitches ++ [⟨"version", some 'V', .version⟩]
  isLast word := word == "help" || (CommandName.ofName? word).isSome

def stopOfHelp (args : List String) : Stop :=
  match args with
  | [] => .help
  | [word] => if topGrammar.isLast word then .help else .usage
  | _ => .usage

/-- The file of settings. A switch behind the command wins over one before it, and both win over the
environment, of which an empty value is wrong where it would be looked at. -/
def configOf (environment? : Option String) (top own : Reading) : Except Stop (Option String) :=
  if environment? == some "" && !(top.has "config" && own.has "config") then .error .usage
  else .ok (((own.get? "config").or (top.get? "config")).or environment?)

/-- What a command line asks for, given the file of settings that the environment names. -/
def parse (environment? : Option String) (args : List String) : Except Stop Invocation := do
  let (top, rest?) ← read topGrammar {} none args
  let some (word, rest) := rest? | .error .usage
  let some command := CommandName.ofName? word | .error (stopOfHelp rest)
  let (own, _) ← read command.grammar {} none rest
  return {
    task := ← taskOf command own
    config? := ← configOf environment? top own
    directory? := (own.get? "directory").or (top.get? "directory") }

end GlslToMetal.CommandLine
