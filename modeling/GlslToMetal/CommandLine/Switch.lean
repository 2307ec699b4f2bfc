/-! Command lines against a table of switches. A switch is given by its name, as `--name`,
`--name value` or `--name=value`, or by a letter, as `-n`, `-n value`, `-nvalue` or `-n=value`;
letters without a value may stand together. Two dashes end the switches. Arguments are read from
left to right, and the first that cannot be or that ends the program decides. -/

namespace GlslToMetal.CommandLine

/-- What a switch does. -/
inductive Action where
  /-- It is there or not, and may be given once. -/
  | flag
  /-- It may be given any number of times. -/
  | count
  /-- It takes a value that passes the test, and may be given once. -/
  | value (accepts : String → Bool)
  /-- It takes a value each time it is given. -/
  | values
  /-- It shows the version and ends the program. -/
  | version
  /-- It shows the usage and ends the program. -/
  | help

structure Switch where
  name : String
  letter? : Option Char := none
  action : Action

/-- Why a command line runs no command. -/
inductive Stop where
  | version
  | help
  /-- It is wrong. -/
  | usage
  deriving DecidableEq, Repr

/-- What was read: switches with their values, and words. -/
structure Reading where
  given : List (String × String) := []
  words : List String := []
  deriving DecidableEq, Repr

namespace Reading

def has (r : Reading) (name : String) : Bool := r.given.any (·.1 == name)

def get? (r : Reading) (name : String) : Option String := r.given.lookup name

def all (r : Reading) (name : String) : List String :=
  r.given.filterMap fun (n, value) => if n == name then some value else none

def enter (r : Reading) (s : Switch) : Except Stop Reading :=
  match s.action with
  | .flag =>
    if r.has s.name then .error .usage else .ok { r with given := r.given ++ [(s.name, "")] }
  | .count => .ok { r with given := r.given ++ [(s.name, "")] }
  | .version => .error .version
  | .help => .error .help
  | .value _ => .error .usage
  | .values => .error .usage

def enterValue (r : Reading) (s : Switch) (v : String) : Except Stop Reading :=
  let entered := { r with given := r.given ++ [(s.name, v)] }
  match s.action with
  | .value accepts => if r.has s.name || !accepts v then .error .usage else .ok entered
  | .values => .ok entered
  | _ => .error .usage

end Reading

def Switch.takesValue (s : Switch) : Bool :=
  match s.action with
  | .value _ => true
  | .values => true
  | _ => false

/-- Reads letters behind a dash. A switch that waits for its value stands beside the reading. -/
def readLetters (table : List Switch) (r : Reading) :
    List Char → Except Stop (Reading × Option Switch)
  | [] => .ok (r, none)
  | c :: rest =>
    match table.find? (·.letter? == some c) with
    | none => .error .usage
    | some s =>
      if s.takesValue then
        match rest with
        | [] => .ok (r, some s)
        | '=' :: v => do return (← r.enterValue s (String.ofList v), none)
        | v => do return (← r.enterValue s (String.ofList v), none)
      else do readLetters table (← r.enter s) rest

def readName (table : List Switch) (r : Reading) (cs : List Char) :
    Except Stop (Reading × Option Switch) := do
  let name := String.ofList (cs.takeWhile (· != '='))
  let some s := table.find? (·.name == name) | .error .usage
  match cs.drop name.length with
  | _ :: v => return (← r.enterValue s (String.ofList v), none)
  | [] => if s.takesValue then return (r, some s) else return (← r.enter s, none)

/-- The part of a command line that one table reads. -/
structure Grammar where
  table : List Switch
  /-- A word that ends this part. -/
  isLast : String → Bool := fun _ => false
  /-- A word that may stand here. -/
  accepts : String → Bool := fun _ => false

def readWords (accepts : String → Bool) (r : Reading) (args : List String) : Except Stop Reading :=
  if args.all accepts then .ok { r with words := r.words ++ args } else .error .usage

/-- Reads arguments, up to the word that ends the part and without it. `waiting?` is a switch that
waits for its value. -/
def read (grammar : Grammar) (r : Reading) (waiting? : Option Switch) :
    List String → Except Stop (Reading × Option (String × List String))
  | [] => if waiting?.isSome then .error .usage else .ok (r, none)
  | arg :: rest =>
    match waiting?, arg.toList with
    | some _, '-' :: _ :: _ => .error .usage
    | some s, _ => do read grammar (← r.enterValue s arg) none rest
    | none, ['-', '-'] => do return (← readWords grammar.accepts r rest, none)
    | none, '-' :: '-' :: cs => do
      let (r, waiting?) ← readName grammar.table r cs
      read grammar r waiting? rest
    | none, '-' :: c :: cs => do
      let (r, waiting?) ← readLetters grammar.table r (c :: cs)
      read grammar r waiting? rest
    | none, _ =>
      if grammar.isLast arg then .ok (r, some (arg, rest))
      else if grammar.accepts arg then read grammar { r with words := r.words ++ [arg] } none rest
      else .error .usage

end GlslToMetal.CommandLine
