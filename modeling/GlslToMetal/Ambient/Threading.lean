import GlslToMetal.Ambient.Overload
import GlslToMetal.Ambient.Usage
import GlslToMetal.Call
import GlslToMetal.Diagnostic.Basic
import GlslToMetal.Lowering.Step
import GlslToMetal.Text.Edit

/-! Threading ambient values. Every function that uses a value gets it as a last parameter, and
every call of such a function passes it on. A caller that did not name the value names it then, so
threading again reaches one call further: a single hop stops after one round and reports the
functions that still lack a value, and the transitive mode goes on until none does. -/

namespace GlslToMetal

/-- How far ambient values are threaded along calls. -/
inductive Propagation where
  | singleHop
  | transitive
  deriving DecidableEq, Repr

namespace Propagation

def name : Propagation → String
  | .singleHop => "single-hop"
  | .transitive => "transitive"

def ofName? (s : String) : Option Propagation := [singleHop, transitive].find? (·.name == s)

def advice : Propagation → String
  | .singleHop => "use transitive propagation to thread ambient values through call chains"
  | .transitive => "raise the propagation round limit"

end Propagation

namespace Threading

def callWords : List Text := ["return", "else", "case", "do"]

def append (last? : Option Range) (openParen closeParen : Nat) (new : Text) : Edit :=
  match last? with
  | some last => Edit.insert last.stop ((", " : Text) ++ new)
  | none => Edit.replace ⟨openParen + 1, closeParen⟩ new

def declarationEdit? (ambient : Ambient) (f : Signature) : Option Edit :=
  if f.hasParam ambient.name then none
  else some (append (f.params.getLast?.map (·.range)) f.openParen f.closeParen ambient.declaration)

/-- A call stands here and no declaration: the word before the name, if any, is one that may stand
before a call. -/
def isCall (masked : Text) (c : Call) : Checked Bool := do
  return (← masked.previousWord c.nameRange.start).all callWords.contains

/-- The edit that passes the value in a call of `name`, if it means one of the users. -/
def callEdit? (masked : Text) (ambient : Ambient) (users : List Nat) (overloads : Overloads)
    (name : Text) (c : Call) : Checked (Option Edit) := do
  if !(← isCall masked c) then return none
  let some closeParen := c.closeParen? masked | return none
  let args ← masked.splitArgs c.openParen closeParen
  let texts := (← args.mapM masked.slice).map Text.trim
  if (overloads.resolve? name texts).any users.contains then
    return some (append args.getLast? c.openParen closeParen ambient.name)
  else return none

def namesOf (overloads : Overloads) (ids : List Nat) : List Text :=
  (ids.filterMap fun id => overloads.table[id]?.map (·.name)).foldl
    (fun names name => name.placeName names) []

/-- The program with a value threaded into the overloads `users` and their calls. -/
def threadValue (source : Text) (ambient : Ambient) (users : List Nat) (overloads : Overloads) :
    Checked Text := do
  let masked := source.mask
  let functions ← Program.functions source
  let declarations := (functions.zip overloads.ofFunction).filterMap fun (f, id) =>
    if users.contains id then declarationEdit? ambient f else none
  let calls ← (namesOf overloads users).mapM fun name => do
    let found ← (Call.sites masked name).mapM (callEdit? masked ambient users overloads name)
    return found.filterMap id
  Edit.apply (declarations ++ calls.flatten) source

def users (uses : List Use) (ambient : Text) (overloads : Overloads) : List Nat :=
  ((Usage.usersOf uses ambient).filterMap fun u => overloads.ofFunction[u.index]?).eraseDups

def round : List Ambient → Text → Overloads → Checked (Text × Overloads)
  | [], source, overloads => return (source, overloads)
  | a :: rest, source, overloads => do
    let users := users (← Usage.discover source [a]) a.name overloads
    if users.isEmpty then round rest source overloads
    else
      let threaded ← threadValue source a users overloads
      round rest threaded (overloads.thread users a.name)

def rounds (ambients : List Ambient) : Nat → Text → Overloads → Checked Text
  | 0, source, _ => return source
  | n + 1, source, overloads => do
    if (← Usage.discover source ambients).isEmpty then return source
    let (source, overloads) ← round ambients source overloads
    rounds ambients n source overloads

def unthreaded (mode : Propagation) (function ambient : Text) (nameRange? : Option Range) :
    Diagnostic where
  level := .warning
  message := "`" ++ function.toString ++ "` reaches `" ++ ambient.toString ++
    "` only through a helper call and does not receive it"
  span := nameRange?.map Span.ofRange
  suggestions := [mode.advice]
  sourceContext := Step.ambients.name
  code := "transitive-uniform-use"

def report (mode : Propagation) (source : Text) (uses : List Use) : Checked (List Diagnostic) := do
  if uses.isEmpty then return []
  let functions ← Program.functions source
  return uses.flatMap fun u =>
    u.ambients.map fun a => unthreaded mode u.name a (functions[u.index]?.map (·.nameRange))

/-- How many rounds there may be: one for a single hop, and otherwise as many as given, or one more
than there are pairs of a definition and a value. -/
def roundLimit (mode : Propagation) (ambients : List Ambient) (maxRounds : Option Nat)
    (functions : List Signature) : Nat :=
  match mode with
  | .singleHop => 1
  | .transitive =>
    maxRounds.getD ((functions.filter (·.isDefinition)).length * ambients.length + 1)

/-- The program with ambient values threaded through it, and reports on the functions that still
lack one. -/
def lower (mode : Propagation) (ambients : List Ambient) (maxRounds : Option Nat) (source : Text) :
    Checked (List Diagnostic × Text) := do
  let functions ← Program.functions source
  let limit := roundLimit mode ambients maxRounds functions
  let result ← rounds ambients limit source (Overloads.collect functions)
  return (← report mode result (← Usage.discover result ambients), result)

end Threading

end GlslToMetal
