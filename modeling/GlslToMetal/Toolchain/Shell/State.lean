import GlslToMetal.Files.Tree
import GlslToMetal.Toolchain.Shell.Octets
import GlslToMetal.Toolchain.Shell.Syntax

/-! The state of a shell: the files it sees, its parameters, and where its descriptors lead. Inputs
are what is left to read of them, outputs what was written to them; the first two outputs are those
of the whole program. -/

namespace GlslToMetal.Shell

/-- How a program ends. -/
inductive ExitStatus where
  | code (n : Nat)
  | signal (n : Nat)
  deriving DecidableEq, Repr

def signalNames : List String :=
  ["HUP", "INT", "QUIT", "ILL", "TRAP", "ABRT", "BUS", "FPE", "KILL", "USR1", "SEGV", "USR2",
    "PIPE", "ALRM", "TERM"]

def signal? (word : String) : Option Nat :=
  word.toNat?.or ((signalNames.idxOf? word).map (· + 1))

def ExitStatus.message : ExitStatus → String
  | .code n => "exit status: " ++ toString n
  | .signal n =>
    "signal: " ++ toString n ++
      ((signalNames[n - 1]?).map fun name => " (SIG" ++ name ++ ")").getD ""

/-- Where a descriptor leads. -/
inductive Channel where
  | input (i : Nat)
  | output (i : Nat)
  | file (place : Place)
  | null
  deriving DecidableEq, Repr

structure State where
  files : FileTree
  cwd : Place
  name : String := "sh"
  args : List String := []
  bindings : List (String × String) := []
  /-- A command that fails ends the script. -/
  strict : Bool := false
  status : Nat := 0
  line : Nat := 1
  channels : List (Nat × Channel) := [(0, .input 0), (1, .output 0), (2, .output 1)]
  inputs : List String := [""]
  outputs : List String := ["", ""]

/-- Why commands are left before their end. -/
inductive Halt where
  | break
  | continue
  | exit
  | killed (signal : Nat)
  deriving DecidableEq, Repr

abbrev Run := ExceptT Halt (StateM State)

def processId : Nat := 2

namespace State

def assign (s : State) (name value : String) : State :=
  { s with bindings := (name, value) :: s.bindings.filter (·.1 != name) }

def channel? (s : State) (descriptor : Nat) : Option Channel := s.channels.lookup descriptor

def connect (s : State) (descriptor : Nat) (c : Channel) : State :=
  { s with channels := (descriptor, c) :: s.channels.filter (·.1 != descriptor) }

def parameter? (s : State) (name : String) : Option String :=
  match name with
  | "#" => some (toString s.args.length)
  | "?" => some (toString s.status)
  | "$" => some (toString processId)
  | "0" => some s.name
  | name =>
    match name.toNat? with
    | some n => s.args[n - 1]?
    | none => s.bindings.lookup name

end State

def emit (descriptor : Nat) (text : String) : Run Unit := do
  let s ← get
  match s.channel? descriptor with
  | some (.output i) => set { s with outputs := s.outputs.modify i (· ++ text) }
  | some (.file place) =>
    let old : Text := match s.files.get? place with
      | some (.file content) => content
      | _ => []
    match s.files.store place (old ++ toText text) with
    | .ok files => set { s with files }
    | .error _ => return
  | _ => return

def complain (message : String) : Run Unit := do
  let s ← get
  emit 2 (s.name ++ ": " ++ toString s.line ++ ": " ++ message ++ "\n")

def setStatus (n : Nat) : Run Unit := modify ({ · with status := n })

def exit {α : Type} (code : Nat) : Run α := do
  setStatus code
  throw .exit

def fatal {α : Type} (message : String) : Run α := do
  complain message
  exit 2

def drain : Run String := do
  let s ← get
  match s.channel? 0 with
  | some (.input i) =>
    set { s with inputs := s.inputs.set i "" }
    return s.inputs.getD i ""
  | _ => return ""

def always {α : Type} (act : Run α) (after : Run Unit) : Run α := do
  let ended ← ExceptT.lift act.run
  after
  match ended with
  | .ok a => return a
  | .error e => throw e

def keepChannels {α : Type} (act : Run α) : Run α := do
  let channels := (← get).channels
  always act (modify ({ · with channels }))

/-- Runs something as a process of its own would: of its changes only those to files, inputs and
outputs are kept, and how it ended. -/
def apart (act : Run Unit) : Run Unit := do
  let before ← get
  let ended ← ExceptT.lift act.run
  let after ← get
  set { before with
    files := after.files, inputs := after.inputs, outputs := after.outputs, status := after.status }
  match ended with
  | .error (.killed signal) => throw (.killed signal)
  | _ => return

def feed (text : String) : Run Unit :=
  modify fun s => { s with inputs := s.inputs ++ [text] }.connect 0 (.input s.inputs.length)

def capture (act : Run Unit) : Run String := do
  let o := (← get).outputs.length
  keepChannels do
    modify fun s => { s with outputs := s.outputs ++ [""] }.connect 1 (.output o)
    act
  return (← get).outputs.getD o ""

/-- Why a file cannot be opened, in the words of the shell. -/
def openReason (mode : Mode) : FileError → String
  | .notFound => if mode == .read then "No such file" else "Directory nonexistent"
  | .notDirectory => if mode == .read then "No such file" else "Directory nonexistent"
  | .isDirectory => "Is a directory"
  | .permissionDenied => "Permission denied"
  | e => e.message

def openChannel (mode : Mode) (path : String) : Run (Except FileError Channel) := do
  let s ← get
  match mode with
  | .read =>
    match s.files.find s.cwd (decode path) with
    | .error e => return .error e
    | .ok (_, .directory) => return .ok .null
    | .ok (_, .file content) =>
      set { s with inputs := s.inputs ++ [ofText content] }
      return .ok (.input s.inputs.length)
  | mode =>
    match s.files.target s.cwd (decode path) with
    | .error e => return .error e
    | .ok place =>
      match Device.at? place with
      | some .stdout => return .ok ((s.channel? 1).getD .null)
      | some .stderr => return .ok ((s.channel? 2).getD .null)
      | some _ => return .ok .null
      | none =>
        let kept : Text := match mode, s.files.get? place with
          | .append, some (.file content) => content
          | _, _ => []
        set { s with files := s.files.set place (.file kept) }
        return .ok (.file place)

/-- Opens a file in the place of a descriptor, and says whether that worked. -/
def openFile (descriptor : Nat) (mode : Mode) (path : String) : Run Bool := do
  match ← openChannel mode path with
  | .ok channel =>
    modify (·.connect descriptor channel)
    return true
  | .error e =>
    let verb := if mode == .read then "open" else "create"
    complain ("cannot " ++ verb ++ " " ++ path ++ ": " ++ openReason mode e)
    return false

/-- Makes a descriptor another name of one that is open. -/
def copyDescriptor (descriptor : Nat) (target : String) : Run Bool := do
  match target.toNat?.bind (← get).channel? with
  | some channel =>
    modify (·.connect descriptor channel)
    return true
  | none =>
    complain (if target.isNat then target ++ ": Bad file descriptor"
      else "Syntax error: Bad fd number")
    return false

end GlslToMetal.Shell
