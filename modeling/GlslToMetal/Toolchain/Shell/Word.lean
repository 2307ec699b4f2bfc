import GlslToMetal.Toolchain.Shell.Syntax

/-! Reading the words of a script. Quotes, parameters and expressions nest in each other; which of
them is open decides what a character means and what ends the word. The commands in a substitution
are read by a reader that is handed in. -/

namespace GlslToMetal.Shell

/-- Why a script cannot be read. -/
structure SyntaxError where
  line : Nat
  message : String
  deriving DecidableEq, Repr

/-- A piece of a script between blanks. -/
inductive Token where
  | endOfFile
  | newline
  | semicolon
  | both
  | either
  | pipe
  | opening
  | closing
  /-- The operator of a redirection, which opens a file or copies a descriptor. -/
  | redirection (descriptor : Nat) (mode? : Option Mode)
  | word (w : Word)
  /-- A word that stands where it means a part of a command. -/
  | keyword (name : String)

/-- What is left of a script, the line that it starts in, and a token that was read too early. -/
structure Source where
  rest : List Char
  line : Nat := 1
  pending? : Option Token := none

abbrev Reader := StateT Source (Except SyntaxError)

namespace Reader

def fail {α : Type} (message : String) : Reader α := do
  throw ⟨(← get).line, message⟩

def peek : Reader (Option Char) := do return (← get).rest.head?

def skip (n : Nat) : Reader Unit := modify fun s =>
  { s with rest := s.rest.drop n, line := s.line + ((s.rest.take n).filter (· == '\n')).length }

def accept (word : String) : Reader Bool := do
  if word.toList.isPrefixOf (← get).rest then
    skip word.length
    return true
  else return false

def takeWhile (p : Char → Bool) : Reader (List Char) := do
  let taken := (← get).rest.takeWhile p
  skip taken.length
  return taken

end Reader

def isNameStart (c : Char) : Bool := c.isAlpha || c == '_'

def isNameChar (c : Char) : Bool := c.isAlphanum || c == '_'

def isName (s : String) : Bool :=
  match s.toList with
  | [] => false
  | c :: rest => isNameStart c && rest.all isNameChar

def isSpecialParameter (c : Char) : Bool := c.isDigit || "@*#?$".toList.contains c

def endsWord (c : Char) : Bool := " \t\n;&|<>()".toList.contains c

/-- What the characters being read stand in. -/
inductive Surrounding where
  | none
  | doubleQuotes
  /-- The braces of a parameter, in double quotes or not. -/
  | braces (inQuotes : Bool)
  /-- An expression with a number of open parentheses. -/
  | expression (depth : Nat)
  deriving DecidableEq, Repr

namespace Surrounding

def isQuoting : Surrounding → Bool
  | none => false
  | braces inQuotes => inQuotes
  | _ => true

def unterminated? : Surrounding → Option String
  | none => Option.none
  | doubleQuotes => some "Unterminated quoted string"
  | braces _ => some "Missing '\x7d'"
  | expression _ => some "Missing '))'"

def escapes (s : Surrounding) (c : Char) : Bool := !s.isQuoting || "$\x60\"\\".toList.contains c

end Surrounding

namespace Reader

/-- A parameter in braces, from behind the first, where `word` reads what stands in its place. -/
def braced (quoted : Bool) (word : Reader Word) : Reader Fragment := do
  let name ← if (← peek).any isNameStart then takeWhile isNameChar else takeWhile isSpecialParameter
  if name.isEmpty then fail "Bad substitution"
  if ← accept "\x7d" then return .parameter quoted (String.ofList name) []
  if (← accept ":-") || (← accept "-") then
    return .parameter quoted (String.ofList name) (← word)
  fail "Bad substitution"

def singleQuoted : Reader Word := do
  let inside ← takeWhile (· != '\'')
  if !(← accept "'") then fail "Unterminated quoted string"
  return if inside.isEmpty then [.nothing] else inside.map .quoted

/-- The fragments of a word up to what ends it, which is taken unless the word stands in nothing. -/
def fragments (nested : Reader Script) : Nat → Surrounding → Reader Word
  | 0, _ => fail "Word too long"
  | n + 1, s => do
    let behind (f : List Fragment) : Reader Word := do return f ++ (← fragments nested n s)
    let one (c : Char) : Fragment := if s.isQuoting then .quoted c else .plain c
    match ← peek with
    | none =>
      match s.unterminated? with
      | some message => fail message
      | none => return []
    | some c =>
      if s == .none && endsWord c then return []
      skip 1
      match c, s with
      | '\\', _ =>
        match ← peek with
        | none => behind [one '\\']
        | some d =>
          if d == '\n' || s.escapes d then
            skip 1
            behind (if d == '\n' then [] else [.quoted d])
          else behind [one '\\']
      | '\'', s => if s.isQuoting then behind [one c] else behind (← singleQuoted)
      | '"', .doubleQuotes => return []
      | '"', s =>
        if s.isQuoting then behind []
        else
          let inside ← fragments nested n .doubleQuotes
          behind (if inside.isEmpty then [.nothing] else inside)
      | '\x7d', .braces _ => return []
      | '(', .expression depth => return one c :: (← fragments nested n (.expression (depth + 1)))
      | ')', .expression 0 => if ← accept ")" then return [] else behind [one c]
      | ')', .expression (depth + 1) => return one c :: (← fragments nested n (.expression depth))
      | '$', s =>
        let quoted := s.isQuoting
        if ← accept "((" then
          behind [.arithmetic quoted (← fragments nested n (.expression 0))]
        else if ← accept "(" then behind [.substitution quoted (← nested)]
        else if ← accept "\x7b" then
          behind [← braced quoted (fragments nested n (.braces quoted))]
        else if (← peek).any isNameStart then
          behind [.parameter quoted (String.ofList (← takeWhile isNameChar)) []]
        else
          match ← peek with
          | some d =>
            if isSpecialParameter d then
              skip 1
              behind [.parameter quoted (String.ofList [d]) []]
            else behind [one c]
          | none => behind [one c]
      | c, _ => behind [one c]

/-- What the operator of a redirection does, if one comes next. -/
def redirectionMark? : Reader (Option (Nat × Option Mode)) := do
  if ← accept ">>" then return some (1, some .append)
  if ← accept ">&" then return some (1, none)
  if ← accept ">" then return some (1, some .write)
  if ← accept "<" then return some (0, some .read)
  return none

/-- A word, or the redirection that its digit belongs to. -/
def wordToken (nested : Reader Script) : Reader Token := do
  let w ← fragments nested (2 * (← get).rest.length + 2) .none
  let descriptor? : Option (Option Nat) := match w with
    | [] => some none
    | [.plain d] => if d.isDigit then some (some (d.toNat - 48)) else none
    | _ => none
  match descriptor? with
  | none => return .word w
  | some descriptor? =>
    match ← redirectionMark? with
    | some (default, mode?) => return .redirection (descriptor?.getD default) mode?
    | none => return .word w

def token (nested : Reader Script) : Reader Token := do
  let s ← get
  match s.pending? with
  | some t =>
    set { s with pending? := none }
    return t
  | none =>
    discard (takeWhile fun c => c == ' ' || c == '\t')
    if (← peek) == some '#' then discard (takeWhile (· != '\n'))
    if (← peek).isNone then return .endOfFile
    if ← accept "\n" then return .newline
    if ← accept "&&" then return .both
    if ← accept "||" then return .either
    if ← accept "|" then return .pipe
    if (← accept ";") || (← accept "&") then return .semicolon
    if ← accept "(" then return .opening
    if ← accept ")" then return .closing
    wordToken nested

def giveBack (t : Token) : Reader Unit := modify ({ · with pending? := some t })

end Reader

end GlslToMetal.Shell
