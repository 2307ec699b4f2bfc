/-! Paths as text. A path is a sequence of parts between slashes; empty parts and dots count for
nothing, except that a trailing slash or dot demands a directory. -/

namespace GlslToMetal.Path

def splitSlashes : List Char → List (List Char)
  | [] => [[]]
  | c :: rest =>
    match splitSlashes rest with
    | [] => [[c]]
    | piece :: others => if c == '/' then [] :: piece :: others else (c :: piece) :: others

def pieces (path : String) : List String :=
  ((splitSlashes path.toList).map String.ofList).filter (· != "")

def isAbsolute (path : String) : Bool := path.toList.head? == some '/'

def hasTrailingSlash (path : String) : Bool := path.toList.getLast? == some '/'

def parts (path : String) : List String := (pieces path).filter (· != ".")

def ofParts (absolute : Bool) (ps : List String) : String :=
  (if absolute then "/" else "") ++ "/".intercalate ps

def parent? (path : String) : Option String :=
  match parts path with
  | [] => none
  | ps => some (ofParts (isAbsolute path) ps.dropLast)

def ancestors (path : String) : List String :=
  let ps := parts path
  path :: ((List.range (ps.length - 1)).map fun n =>
    ofParts (isAbsolute path) (ps.take (n + 1))).reverse

def join (directory name : String) : String :=
  if isAbsolute name then name
  else if directory == "" || hasTrailingSlash directory then directory ++ name
  else directory ++ "/" ++ name

def fileName? (path : String) : Option String := (parts path).getLast?.filter (· != "..")

def stem (name : String) : String :=
  let cs := name.toList
  let beforeDot := (cs.reverse.dropWhile (· != '.')).drop 1
  if beforeDot.isEmpty then name else String.ofList beforeDot.reverse

end GlslToMetal.Path
