/-! Writing TOML. A string is written in double quotes if that takes no escapes, else in single
quotes if it holds none, else in triple quotes or with escapes. An array of two or more stands on
lines of its own. -/

namespace GlslToMetal.Toml

def needsEscape (c : Char) : Bool :=
  (c.toNat < 32 && c != '\t' && c != '\n') || c.toNat == 127

def hexDigit (n : Nat) : Char := ("0123456789ABCDEF".toList)[n]?.getD '0'

/-- A character in double quotes, a quote apart. -/
def escaped (long : Bool) (c : Char) : List Char :=
  match c with
  | '\x08' => ['\\', 'b']
  | '\t' => ['\\', 't']
  | '\n' => if long then ['\n'] else ['\\', 'n']
  | '\x0c' => ['\\', 'f']
  | '\r' => ['\\', 'r']
  | '\\' => ['\\', '\\']
  | c =>
    if needsEscape c then
      ['\\', 'u', '0', '0', hexDigit (c.toNat / 16), hexDigit (c.toNat % 16)]
    else [c]

/-- What stands between double quotes, after `run` plain quotes. Over several lines up to two quotes
in a row stay plain. -/
def basicBody (long : Bool) (run : Nat) : List Char → List Char
  | [] => []
  | '"' :: rest =>
    if long && run < 2 then '"' :: basicBody long (run + 1) rest
    else '\\' :: '"' :: basicBody long 0 rest
  | c :: rest => escaped long c ++ basicBody long 0 rest

def longestRun (c : Char) (run : Nat) : List Char → Nat
  | [] => run
  | d :: rest => if d == c then longestRun c (run + 1) rest else max run (longestRun c 0 rest)

def quote (s : String) : String :=
  let cs := s.toList
  let codes := cs.any needsEscape
  let slash := cs.contains '\\'
  let breaks := cs.contains '\n'
  let doubles := longestRun '"' 0 cs
  let singles := longestRun '\'' 0 cs
  let lead := if breaks then "\n" else ""
  let basic := "\"" ++ String.ofList (basicBody false 0 cs) ++ "\""
  let longBasic := "\"\"\"" ++ lead ++ String.ofList (basicBody true 0 cs) ++ "\"\"\""
  if !codes && !slash && doubles == 0 && !breaks then basic
  else if !codes && singles == 0 && !breaks then "'" ++ s ++ "'"
  else if !codes && !slash && doubles ≤ 2 then longBasic
  else if !codes && singles ≤ 2 then "'''" ++ lead ++ s ++ "'''"
  else if breaks then longBasic
  else basic

def strings (items : List String) : String :=
  match items with
  | [] => "[]"
  | [only] => "[" ++ quote only ++ "]"
  | items => "[\n" ++ String.join (items.map fun s => "    " ++ quote s ++ ",\n") ++ "]"

def boolean (b : Bool) : String := if b then "true" else "false"

end GlslToMetal.Toml
