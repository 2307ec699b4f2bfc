import GlslToMetal.Text.Words
import GlslToMetal.Toolchain.Basic
import GlslToMetal.Toolchain.Shell.Run

/-! Running a toolchain. The source is put into a directory of its own; what the command makes of it
is the result file if the arguments speak of one, and else what the command prints. -/

namespace GlslToMetal

/-- A compiled function. -/
structure Artifact where
  entrySymbol : Text
  bytes : Text
  deriving DecidableEq, Repr

namespace Toolchain

def holds (piece : List Char) : List Char → Bool
  | [] => piece.isEmpty
  | c :: rest => piece.isPrefixOf (c :: rest) || holds piece rest

/-- Puts something in the place of every occurrence of a mark. `skip` characters belong to an
occurrence that was replaced. -/
def substitute (mark new : List Char) (skip : Nat) : List Char → List Char
  | [] => []
  | c :: rest =>
    match skip with
    | n + 1 => substitute mark new n rest
    | 0 =>
      if mark.isPrefixOf (c :: rest) then new ++ substitute mark new (mark.length - 1) rest
      else c :: substitute mark new 0 rest

def expand (t : Toolchain) (input output : String) : List String :=
  t.args.map fun arg =>
    let filled := substitute inputMark.toList input.toList 0 arg.toList
    String.ofList (substitute outputMark.toList output.toList 0 filled)

def writesFile (t : Toolchain) : Bool := t.args.any fun arg => holds outputMark.toList arg.toList

def workshop : Place := ["tmp", "vulpes-shader"]

def tidy (files : FileTree) : FileTree :=
  ⟨files.entries.filter fun (place, _) => !workshop.isPrefixOf place⟩

def failure (program : String) (f : Shell.Finished) : String :=
  let said := f.stderr.trim
  if said.isEmpty then "`" ++ program ++ "` exited with " ++ f.status.message else said.toString

/-- Runs the command on a source with a symbol, and gives the files that are there afterwards. -/
def run (t : Toolchain) (files : FileTree) (cwd : Place) (source symbol : Text) :
    Except String Artifact × FileTree :=
  let path (ending : String) : String :=
    Path.join (Path.ofParts true workshop) (symbol.toString ++ ending)
  let prepared := files.set workshop .directory
  match prepared.write cwd (path ".metal") source with
  | .error e => (.error ("failed to write " ++ path ".metal" ++ ": " ++ e.message), files)
  | .ok prepared =>
    let args := t.expand (path ".metal") (path ".air")
    if (t.program :: args).any (·.toList.contains '\x00') then
      (.error ("failed to run `" ++ t.program ++ "`: nul byte found in provided data"), files)
    else
      match Shell.run prepared cwd t.program args with
      | .error e => (.error ("failed to run `" ++ t.program ++ "`: " ++ e.message), files)
      | .ok f =>
        let left := tidy f.files
        if f.status != .code 0 then (.error (failure t.program f), left)
        else if t.writesFile then
          match f.files.read cwd (path ".air") with
          | .ok bytes => (.ok ⟨symbol, bytes⟩, left)
          | .error e => (.error ("failed to read " ++ path ".air" ++ ": " ++ e.message), left)
        else (.ok ⟨symbol, f.stdout⟩, left)

end Toolchain

end GlslToMetal
