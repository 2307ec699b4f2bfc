import GlslToMetal.Toolchain.Shell.Reader
import GlslToMetal.Toolchain.Shell.Utility

/-! Running scripts and programs. A script can loop, so a number bounds how long a loop and how deep
a command may go. -/

namespace GlslToMetal.Shell

/-- A program that is found. -/
inductive Program where
  | shell
  | utility (u : Utility)

def Program.named? (name : String) : Option Program :=
  if name == "sh" || name == "dash" then some .shell else (utilities.lookup name).map .utility

/-- The program that a word names: by its name, or by a path with a slash in it. -/
def findProgram (files : FileTree) (cwd : Place) (word : String) : Except FileError Program := do
  if word.toList.contains '/' then
    match files.find cwd (decode word) with
    | .ok _ => throw .permissionDenied
    | .error e =>
      match ← files.locate cwd (decode word) with
      | .name directory name false =>
        let standard := directory == ["bin"] || directory == ["usr", "bin"]
        match if standard then Program.named? name else none with
        | some p => return p
        | none => throw e
      | _ => throw e
  else
    FileTree.checkName (decode word)
    match Program.named? word with
    | some p => return p
    | none => throw .notFound

def checkStatus (tested : Bool) : Run Unit := do
  let s ← get
  if s.status != 0 && !tested && s.strict then throw .exit

/-- The commands that change the shell itself. -/
def builtin? : String → Option Utility
  | "exit" => some fun args => do
    match args with
    | [] => exit (← get).status
    | code :: _ =>
      match code.toNat? with
      | some n => exit (n % 256)
      | none => fatal ("exit: Illegal number: " ++ code)
  | "cd" => some fun args => do
    let s ← get
    let path := args.headD "/root"
    match s.files.find s.cwd (decode path) with
    | .ok (cwd, .directory) =>
      set { s with cwd }
      return 0
    | _ =>
      complain ("cd: can't cd to " ++ path)
      return 2
  | "set" => some fun args => do
    match args with
    | "-e" :: _ => modify ({ · with strict := true })
    | "+e" :: _ => modify ({ · with strict := false })
    | "--" :: args => modify ({ · with args })
    | _ => return 0
    return 0
  | "shift" => some fun _ => do
    modify fun s => { s with args := s.args.drop 1 }
    return 0
  | "break" => some fun _ => throw .break
  | "continue" => some fun _ => throw .continue
  | _ => none

/-- Runs a pass of a loop, and says whether the loop goes on. -/
def runPass (act : Run Unit) : Run Bool := do
  match ← ExceptT.lift act.run with
  | .ok () => return true
  | .error .break => return false
  | .error .continue => return true
  | .error e => throw e

mutual

def runList : Nat → Bool → Script → Run Unit
  | 0, _, _ => return
  | _ + 1, _, [] => return
  | n + 1, tested, c :: rest => do
    runCommand n tested c
    runList n tested rest

/-- Runs a command. Where its status is tested, a failure does not end the script. -/
def runCommand : Nat → Bool → Command → Run Unit
  | 0, _, _ => return
  | n + 1, tested, c => do
    match c with
    | .simple line assignments words redirections =>
      modify ({ · with line })
      runSimple n assignments words redirections
      checkStatus tested
    | .pipe stages =>
      keepChannels (runPipe n tested stages)
      checkStatus tested
    | .not c =>
      runCommand n true c
      setStatus (if (← get).status == 0 then 1 else 0)
    | .and a b =>
      runCommand n true a
      if (← get).status == 0 then runCommand n tested b
    | .or a b =>
      runCommand n true a
      if (← get).status != 0 then runCommand n tested b
    | .group own body redirections =>
      keepChannels do
        if ← redirectAll (substitute n) redirections then
          if own then apart (runList n tested body) else runList n tested body
        else setStatus 2
    | .choose condition body alternative =>
      runList n true condition
      if (← get).status == 0 then runList n tested body
      else
        setStatus 0
        runList n tested alternative
    | .loop untilTrue condition body => runLoop n tested untilTrue condition body 0
    | .each name words body =>
      let values ← expandWords (substitute n) words
      setStatus 0
      runEach n tested name body values

def runLoop : Nat → Bool → Bool → Script → Script → Nat → Run Unit
  | 0, _, _, _, _, _ => return
  | n + 1, tested, untilTrue, condition, body, last => do
    runList n true condition
    if ((← get).status == 0) == untilTrue then setStatus last
    else if ← runPass (runList n tested body) then
      runLoop n tested untilTrue condition body (← get).status

def runEach : Nat → Bool → String → Script → List String → Run Unit
  | 0, _, _, _, _ => return
  | _ + 1, _, _, _, [] => return
  | n + 1, tested, name, body, value :: rest => do
    modify (·.assign name value)
    if ← runPass (runList n tested body) then runEach n tested name body rest

def runPipe : Nat → Bool → List Command → Run Unit
  | 0, _, _ => return
  | _ + 1, _, [] => return
  | n + 1, tested, [c] => apart (runCommand n tested c)
  | n + 1, tested, c :: rest => do
    feed (← capture (apart (runCommand n tested c)))
    runPipe n tested rest

/-- What commands print. -/
def substitute : Nat → Script → Run String
  | 0, _ => return ""
  | n + 1, body => capture (apart (runList n false body))

def runSimple : Nat → List (String × Word) → List Word → List Redirection → Run Unit
  | 0, _, _, _ => return
  | n + 1, assignments, words, redirections => keepChannels do
    let args ← expandWords (substitute n) words
    if !(← redirectAll (substitute n) redirections) then setStatus 2
    else
      if args.isEmpty then setStatus 0
      assignments.forM fun (name, w) => do
        let value ← expandText (substitute n) w
        modify (·.assign name value)
      match args with
      | [] => return
      | name :: args => setStatus (← runWord n name args)

/-- Runs a command by its name: one of the shell, or a program. -/
def runWord : Nat → String → List String → Run Nat
  | 0, _, _ => return 0
  | n + 1, "exec", name :: args => do exit (← runWord n name args)
  | n + 1, name, args => do
    match builtin? name with
    | some u => u args
    | none =>
      let s ← get
      match findProgram s.files s.cwd name with
      | .ok (.utility u) => u args
      | .ok .shell => do
        apart (runShell n args)
        return (← get).status
      | .error .permissionDenied =>
        complain (name ++ ": Permission denied")
        return 126
      | .error _ =>
        complain (name ++ ": not found")
        return 127

/-- Runs a shell on a script with parameters. -/
def runShell : Nat → List String → Run Unit
  | 0, _ => return
  | n + 1, args => do
    let (letters, operands) := splitOptions (args.take 1)
    let operands := operands ++ args.drop 1
    let s ← get
    if !letters.contains 'c' then return
    match operands with
    | [] =>
      emit 2 "sh: 0: -c requires an argument\n"
      exit 2
    | source :: params =>
      set { s with
        name := params.headD "sh", args := params.drop 1, strict := letters.contains 'e', status := 0
        line := 1 }
      match readScript source with
      | .ok script => runList n false script
      | .error e =>
        modify ({ · with line := e.line })
        fatal ("Syntax error: " ++ e.message)

end

/-- What is left of a program that ended. -/
structure Finished where
  status : ExitStatus
  stdout : Text
  stderr : Text
  files : FileTree

def bound : Nat := 20000

/-- Runs a program with arguments. Its input is empty. -/
def run (files : FileTree) (cwd : Place) (word : String) (args : List String) :
    Except FileError Finished := do
  let program ← findProgram files cwd (encode word)
  let act : Run Unit := match program with
    | .shell => runShell bound (args.map encode)
    | .utility u => do setStatus (← u (args.map encode))
  let (ended, s) := act.run.run { files, cwd }
  let status : ExitStatus := match ended with
    | .error (.killed signal) => .signal signal
    | _ => .code s.status
  return {
    status, files := s.files
    stdout := toText (s.outputs.getD 0 ""), stderr := toText (s.outputs.getD 1 "") }

end GlslToMetal.Shell
