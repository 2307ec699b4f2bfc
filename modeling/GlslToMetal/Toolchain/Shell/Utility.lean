import GlslToMetal.Toolchain.Shell.Expansion
import GlslToMetal.Toolchain.Shell.Regex

/-! The commands of a shell that are no part of its language. Each is given its arguments, works on
the files, the input and the outputs of the shell, and gives its status. -/

namespace GlslToMetal.Shell

abbrev Utility := List String → Run Nat

def reason : FileError → String
  | .notFound => "No such file or directory"
  | .permissionDenied => "Permission denied"
  | .alreadyExists => "File exists"
  | .notDirectory => "Not a directory"
  | .isDirectory => "Is a directory"
  | .noSpace => "No space left on device"
  | .nameTooLong => "File name too long"
  | e => e.message

def splitAt (separator : Char) : List Char → List (List Char)
  | [] => [[]]
  | c :: rest =>
    match splitAt separator rest with
    | [] => [[c]]
    | piece :: others =>
      if c == separator then [] :: piece :: others else (c :: piece) :: others

def linesOf (s : String) : List (List Char) :=
  let pieces := splitAt '\n' s.toList
  if pieces.getLast? == some [] then pieces.dropLast else pieces

def printLines (lines : List (List Char)) : Run Unit :=
  emit 1 (String.ofList (lines.flatMap (· ++ ['\n'])))

/-- The letters of the options at the front of arguments, and the others. -/
def splitOptions : List String → List Char × List String
  | [] => ([], [])
  | arg :: rest =>
    match arg.toList with
    | ['-', '-'] => ([], rest)
    | '-' :: c :: more =>
      let (letters, others) := splitOptions rest
      (c :: more ++ letters, others)
    | _ => ([], arg :: rest)

/-- The contents of files with their paths, or the input if there are none. A message says which
cannot be read, and the Boolean that there is one. -/
def readAll (utility : String) (paths : List String) : Run (List (String × String) × Bool) := do
  let contents ← (if paths.isEmpty then ["-"] else paths).mapM fun path => do
    if path == "-" then return some (path, ← drain)
    let s ← get
    match s.files.read s.cwd (decode path) with
    | .ok content => return some (path, ofText content)
    | .error e =>
      emit 2 (utility ++ ": " ++ path ++ ": " ++ reason e ++ "\n")
      return none
  return (contents.filterMap id, contents.any Option.isNone)

/-- The character that a letter behind a backslash stands for. -/
def escape? : Char → Option Char
  | 'n' => some '\n'
  | 't' => some '\t'
  | 'r' => some '\r'
  | 'a' => some '\x07'
  | 'b' => some '\x08'
  | 'f' => some '\x0c'
  | 'v' => some '\x0b'
  | '\\' => some '\\'
  | _ => none

def isOctal (c : Char) : Bool := '0' ≤ c && c ≤ '7'

/-- Puts characters in the place of what stands for them, `skip` of which was read. -/
def unescapeFrom : Nat → List Char → List Char
  | _, [] => []
  | skip + 1, _ :: rest => unescapeFrom skip rest
  | 0, '\\' :: rest =>
    let digits := (rest.take 3).takeWhile isOctal
    match rest with
    | [] => ['\\']
    | c :: _ =>
      if digits.isEmpty then
        match escape? c with
        | some e => e :: unescapeFrom 1 rest
        | none => '\\' :: unescapeFrom 0 rest
      else
        let code := digits.foldl (fun n d => 8 * n + (d.toNat - 48)) 0
        Char.ofNat (code % 256) :: unescapeFrom digits.length rest
  | 0, c :: rest => c :: unescapeFrom 0 rest

def unescape (cs : List Char) : List Char := unescapeFrom 0 cs

def echo : Utility := fun args => do
  let (words, ending) := if args.head? == some "-n" then (args.drop 1, "") else (args, "\n")
  emit 1 (String.ofList (unescape (" ".intercalate words).toList) ++ ending)
  return 0

/-- One pass through a format: what it prints, and the arguments that are left. -/
def formatPass : List Char → List String → List Char × List String
  | '%' :: '%' :: rest, args =>
    let (out, args) := formatPass rest args
    ('%' :: out, args)
  | '%' :: c :: rest, args =>
    let arg := args.headD ""
    let (out, left) := formatPass rest (args.drop 1)
    let printed := match c with
      | 'd' => (toString (arg.toInt?.getD 0)).toList
      | 'c' => arg.toList.take 1
      | 'b' => unescape arg.toList
      | _ => arg.toList
    (printed ++ out, left)
  | c :: rest, args =>
    let (out, args) := formatPass rest args
    (c :: out, args)
  | [], args => ([], args)

/-- What a format prints: it is used again as long as it takes arguments and some are left. -/
def format (f : List Char) : Nat → List String → List Char
  | 0, _ => []
  | n + 1, args =>
    let (out, left) := formatPass f args
    if left.isEmpty || left.length == args.length then out else out ++ format f n left

def printf : Utility := fun
  | [] => do
    emit 2 "printf: usage: printf format [arg ...]\n"
    return 2
  | f :: args => do
    emit 1 (String.ofList (format (unescape f.toList) (args.length + 1) args))
    return 0

def test (args : List String) : Run Nat := do
  let s ← get
  let number (word : String) : Run Int := match word.trimAscii.toInt? with
    | some n => return n
    | none => do
      complain ("[: Illegal number: " ++ word)
      throw .break
  let found (path : String) : Except FileError (Place × Entry) := s.files.find s.cwd (decode path)
  let simple : List String → Run Bool := fun
    | [] => return false
    | [a] => return !a.isEmpty
    | ["-z", a] => return a.isEmpty
    | ["-n", a] => return !a.isEmpty
    | ["-e", a] => return (found a).isOk
    | ["-r", a] => return (found a).isOk
    | ["-f", a] => return s.files.isFile s.cwd (decode a)
    | ["-d", a] => return s.files.isDirectory s.cwd (decode a)
    | ["-s", a] => return match found a with
      | .ok (_, .file content) => !content.isEmpty
      | other => other.isOk
    | [a, "=", b] => return a == b
    | [a, "!=", b] => return a != b
    | [a, "-eq", b] => return (← number a) == (← number b)
    | [a, "-ne", b] => return (← number a) != (← number b)
    | [a, "-lt", b] => return (← number a) < (← number b)
    | [a, "-le", b] => return (← number a) ≤ (← number b)
    | [a, "-gt", b] => return (← number a) > (← number b)
    | [a, "-ge", b] => return (← number a) ≥ (← number b)
    | words => do
      complain ("[: " ++ words.getD 1 "" ++ ": unexpected operator")
      throw .break
  let held : Run Bool := match args with
    | "!" :: a :: rest => do return !(← simple (a :: rest))
    | args => simple args
  -- a message has been printed where no answer was found
  match ← ExceptT.lift held.run with
  | .ok true => return 0
  | .ok false => return 1
  | .error _ => return 2

def bracketTest : Utility := fun args =>
  if args.getLast? == some "]" then test args.dropLast
  else do
    complain "[: missing ]"
    return 2

def cat : Utility := fun args => do
  let (contents, failed) ← readAll "cat" (splitOptions args).2
  contents.forM fun (_, content) => emit 1 content
  return if failed then 1 else 0

/-- Prints the lines that match a pattern, or with options says how many or whether. -/
def grep : Utility := fun args => do
  let (letters, operands) := splitOptions args
  let has (c : Char) : Bool := letters.contains c
  let lower (cs : List Char) : List Char := if has 'i' then cs.map Char.toLower else cs
  match operands with
  | [] =>
    emit 2 ("Usage: grep [OPTION]... PATTERNS [FILE]...\n" ++
      "Try 'grep --help' for more information.\n")
    return 2
  | pattern :: paths =>
    let pattern := String.ofList (lower pattern.toList)
    match if has 'F' then .ok (Regex.literal pattern) else Regex.parse (has 'E') pattern with
    | .error message =>
      emit 2 ("grep: " ++ message ++ "\n")
      return 2
    | .ok r =>
      let (contents, failed) ← readAll "grep" paths
      let found ← contents.mapM fun (path, content) => do
        let lead := if 1 < paths.length && !has 'h' then path ++ ":" else ""
        let chosen := (linesOf content).zipIdx 1 |>.filter fun (line, _) =>
          r.occurs (lower line) != has 'v'
        if has 'q' then return !chosen.isEmpty
        if has 'c' then emit 1 (lead ++ toString chosen.length ++ "\n")
        else if has 'l' then
          if !chosen.isEmpty then emit 1 (path ++ "\n")
        else
          printLines (chosen.map fun (line, n) =>
            (lead ++ if has 'n' then toString n ++ ":" else "").toList ++ line)
        return !chosen.isEmpty
      return if found.contains true && (has 'q' || !failed) then 0 else if failed then 2 else 1

/-- Puts something in the place of the matches of a line, all of them or the first. -/
def replaceMatches (r : Regex) (new : List Char) (all : Bool) (size : Nat) : Nat → List Char →
    List Char
  | 0, cs => cs
  | n + 1, cs =>
    match r.longest? size cs with
    | some (k + 1) =>
      let filled := new.flatMap fun c => if c == '&' then cs.take (k + 1) else [c]
      filled ++ if all then replaceMatches r new all size n (cs.drop (k + 1)) else cs.drop (k + 1)
    | _ =>
      match cs with
      | [] => []
      | c :: rest => c :: replaceMatches r new all size n rest

/-- Prints the lines of files with replacements made. -/
def sed : Utility := fun args => do
  let (letters, operands) := splitOptions args
  let fails (message : String) : Run Nat := do
    emit 2 ("sed: -e expression #1, char 0: " ++ message ++ "\n")
    return 1
  match operands with
  | [] => fails "missing command"
  | script :: paths =>
    match script.toList with
    | 's' :: d :: rest =>
      match splitAt d rest with
      | [old, new, flags] =>
        match Regex.parse (letters.contains 'E') (String.ofList old) with
        | .error message => fails message
        | .ok r =>
          let (contents, failed) ← readAll "sed" paths
          contents.forM fun (_, content) => printLines ((linesOf content).map fun line =>
            replaceMatches r new (flags.contains 'g') line.length (line.length + 1) line)
          return if failed then 2 else 0
      | _ => fails "unterminated \x60s' command"
    | _ => fails "unknown command"

/-- The last part of a path, without an ending. -/
def basename : Utility := fun args => do
  let path := (args.headD "").toList
  let name := ((splitAt '/' path).filter (!·.isEmpty)).getLastD (path.take 1)
  let ending := (args.getD 1 "").toList
  let kept := if ending.isSuffixOf name && ending != name then
    name.take (name.length - ending.length) else name
  if args.isEmpty then
    emit 2 "basename: missing operand\nTry 'basename --help' for more information.\n"
    return 1
  printLines [kept]
  return 0

def dirname : Utility := fun args => do
  let path := ((args.headD "").toList.reverse.dropWhile (· == '/')).dropWhile (· != '/')
  let parent := (path.dropWhile (· == '/')).reverse
  printLines [if path.isEmpty then ['.'] else if parent.isEmpty then ['/'] else parent]
  return 0

/-- Prints the front or the end of files, ten lines if no option says how many or that characters
count. -/
def part (name : String) (choose : {α : Type} → Nat → List α → List α) : Utility := fun args => do
  let (count, paths) : String × List String := match args with
    | "-n" :: n :: rest => (n, rest)
    | "-c" :: n :: rest => ("c" ++ n, rest)
    | arg :: rest =>
      match arg.toList with
      | '-' :: 'n' :: ds => (String.ofList ds, rest)
      | '-' :: ds => (String.ofList ds, rest)
      | _ => ("10", arg :: rest)
    | [] => ("10", [])
  let (contents, failed) ← readAll name paths
  contents.forM fun (_, content) =>
    match count.toList with
    | 'c' :: ds =>
      emit 1 (String.ofList (choose ((String.ofList ds).toNat?.getD 0) content.toList))
    | _ => printLines (choose (count.toNat?.getD 10) (linesOf content))
  return if failed then 1 else 0

/-- The characters of a set, of which a range gives all between its ends. -/
def setMembers (set : String) : List Char :=
  (Regex.ranges (unescape set.toList)).flatMap fun (a, b) =>
    (List.range (b.toNat + 1 - a.toNat)).map fun i => Char.ofNat (a.toNat + i)

/-- Puts the characters of one set in the place of those of another, or takes them out. -/
def tr : Utility := fun args => do
  let cs := (← drain).toList
  match args with
  | ["-d", set] => emit 1 (String.ofList (cs.filter (!(setMembers set).contains ·)))
  | [old, new] =>
    let table := (setMembers old).zipIdx.map fun (c, i) =>
      (c, (setMembers new).getD i ((setMembers new).getLastD c))
    emit 1 (String.ofList (cs.map fun c => (table.lookup c).getD c))
  | _ => emit 2 "tr: missing operand\nTry 'tr --help' for more information.\n"
  return if args.length == 2 then 0 else 1

def wc : Utility := fun args => do
  let (letters, paths) := splitOptions args
  let (contents, failed) ← readAll "wc" paths
  contents.forM fun (path, content) => do
    let cs := content.toList
    let counts := [('l', cs.count '\n'),
      ('w', (cs.splitBy fun a b => !Arithmetic.isBlank a && !Arithmetic.isBlank b).countP
        (!·.all Arithmetic.isBlank)), ('c', cs.length)]
    let shown := counts.filter fun (c, _) => letters.isEmpty || letters.contains c
    emit 1 (" ".intercalate (shown.map fun (_, n) => toString n) ++
      (if path == "-" then "" else " " ++ path) ++ "\n")
  return if failed then 1 else 0

/-- Does something to the files under some paths, or says which it cannot be done to. -/
def eachPath (act : FileTree → Place → String → Except FileError FileTree)
    (message : String → String) (paths : List String) : Run Nat := do
  let failed ← paths.mapM fun path => do
    let s ← get
    match act s.files s.cwd (decode path) with
    | .ok files =>
      set { s with files }
      return false
    | .error e =>
      emit 2 (message path ++ ": " ++ reason e ++ "\n")
      return true
  return if failed.contains true then 1 else 0

def removeFile (tree : FileTree) (cwd : Place) (path : String) : Except FileError FileTree := do
  match ← tree.find cwd path with
  | (place, .file _) => return tree.erase place
  | (_, .directory) => throw .isDirectory

def rm : Utility := fun args => do
  let (letters, paths) := splitOptions args
  let s ← get
  let wanted := if letters.contains 'f' then
    paths.filter fun p => (s.files.find s.cwd (decode p)).isOk else paths
  eachPath removeFile (fun path => "rm: cannot remove '" ++ path ++ "'") wanted

def mkdir : Utility := fun args => do
  let (letters, paths) := splitOptions args
  let s ← get
  let wanted := if letters.contains 'p' then
    paths.filter fun p => !s.files.isDirectory s.cwd (decode p) else paths
  eachPath FileTree.makeDirectory (fun path => "mkdir: cannot create directory '" ++ path ++ "'")
    wanted

def touch : Utility := eachPath
  (fun tree cwd path =>
    if (tree.find cwd path).isOk then .ok tree else tree.write cwd path [])
  (fun path => "touch: cannot touch '" ++ path ++ "'")

/-- Copies a file to a path or into a directory. -/
def cp : Utility := fun args => do
  match (splitOptions args).2 with
  | [source, target] =>
    let (contents, failed) ← readAll "cp" [source]
    if failed then return 1
    let s ← get
    let name := (splitAt '/' source.toList).getLastD []
    let path := if s.files.isDirectory s.cwd (decode target) then
      target ++ "/" ++ String.ofList name else target
    let content := contents.headD ("", "")
    eachPath (fun tree cwd path => tree.write cwd path (toText content.2))
      (fun path => "cp: cannot create regular file '" ++ path ++ "'") [path]
  | _ =>
    emit 2 "cp: missing file operand\nTry 'cp --help' for more information.\n"
    return 1

def mv : Utility := fun args => do
  let copied ← cp args
  if copied != 0 then return copied
  eachPath removeFile (fun path => "mv: cannot remove '" ++ path ++ "'")
    ((splitOptions args).2.take 1)

def kill : Utility := fun args => do
  let named? : Option (Nat × List String) := match args with
    | "-s" :: name :: rest => (signal? name).map (·, rest)
    | word :: rest =>
      match word.toList with
      | '-' :: name => (signal? (String.ofList name)).map (·, rest)
      | _ => some (15, word :: rest)
    | [] => none
  match named? with
  | some (0, _) => return 0
  | some (signal, [target]) =>
    if target == toString processId then throw (.killed signal)
    complain "kill: No such process"
    return 1
  | _ => fatal "kill: Illegal option"

def utilities : List (String × Utility) :=
  [(":", fun _ => return 0), ("true", fun _ => return 0), ("false", fun _ => return 1),
    ("echo", echo), ("printf", printf), ("test", test), ("[", bracketTest), ("kill", kill),
    ("cat", cat), ("grep", grep), ("sed", sed), ("basename", basename), ("dirname", dirname),
    ("head", part "head" List.take), ("tail", part "tail" fun n l => l.drop (l.length - n)),
    ("tr", tr), ("wc", wc),
    ("rm", rm), ("mkdir", mkdir), ("touch", touch), ("cp", cp), ("mv", mv),
    ("sleep", fun _ => return 0)]

end GlslToMetal.Shell
