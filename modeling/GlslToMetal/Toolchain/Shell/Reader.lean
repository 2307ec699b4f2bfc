import GlslToMetal.Toolchain.Shell.Word

/-! Reading the commands of a script. -/

namespace GlslToMetal.Shell

def keywords : List String :=
  ["!", "do", "done", "elif", "else", "fi", "for", "if", "in", "then", "until", "while", "\x7b",
    "\x7d"]

def closingKeywords : List String := ["do", "done", "elif", "else", "fi", "then", "\x7d"]

def plainText? (w : Word) : Option String :=
  let char? : Fragment → Option Char
    | .plain c => some c
    | _ => none
  (w.mapM char?).map String.ofList

def assignment? (w : Word) : Option (String × Word) :=
  let name := w.takeWhile fun
    | .plain c => isNameChar c
    | _ => false
  match plainText? name, w.drop name.length with
  | some name, .plain '=' :: value => if isName name then some (name, value) else none
  | _, _ => none

namespace Token

def asKeyword : Token → Token
  | .word w =>
    match plainText? w with
    | some text => if keywords.contains text then .keyword text else .word w
    | none => .word w
  | t => t

def name : Token → String
  | endOfFile => "end of file"
  | newline => "newline"
  | semicolon => "\";\""
  | both => "\"&&\""
  | either => "\"||\""
  | pipe => "\"|\""
  | opening => "\"(\""
  | closing => "\")\""
  | redirection _ _ => "redirection"
  | word _ => "word"
  | keyword name => "\"" ++ name ++ "\""

def endsList : Token → Bool
  | endOfFile => true
  | closing => true
  | keyword name => closingKeywords.contains name
  | _ => false

end Token

namespace Reader

def unexpected {α : Type} (t : Token) (expecting : String) : Reader α :=
  fail (t.name ++ " unexpected" ++
    if expecting.isEmpty then "" else " (expecting \"" ++ expecting ++ "\")")

/-- A simple command while it is read. -/
structure Draft where
  assignments : List (String × Word) := []
  words : List Word := []
  redirections : List Redirection := []

mutual

/-- Commands up to a token that ends their list. -/
def list : Nat → Reader Script
  | 0 => fail "Script too long"
  | n + 1 => do
    match ← commandToken n with
    | .newline => list n
    | t =>
      giveBack t
      if t.endsList then return []
      let c ← further n (← pipe n)
      match ← commandToken n with
      | .semicolon => return c :: (← list n)
      | .newline => return c :: (← list n)
      | t =>
        giveBack t
        return [c]

def commandToken : Nat → Reader Token
  | 0 => fail "Script too long"
  | n + 1 => Token.asKeyword <$> token (substitution n)

/-- The commands of a substitution, and the parenthesis behind them. -/
def substitution : Nat → Reader Script
  | 0 => fail "Script too long"
  | n + 1 => do
    let body ← list n
    expect n ")" fun | .closing => true | _ => false
    return body

def expect : Nat → String → (Token → Bool) → Reader Unit
  | 0, _, _ => fail "Script too long"
  | n + 1, name, p => do
    let t ← commandToken n
    if !p t then unexpected t name

def expectKeyword : Nat → String → Reader Unit
  | 0, _ => fail "Script too long"
  | n + 1, name => expect n name fun | .keyword k => k == name | _ => false

/-- What stands behind `&&` and `||`. -/
def further : Nat → Command → Reader Command
  | 0, _ => fail "Script too long"
  | n + 1, first => do
    match ← commandToken n with
    | .both => further n (.and first (← pipe n))
    | .either => further n (.or first (← pipe n))
    | t =>
      giveBack t
      return first

/-- Commands with pipes between them, or the contrary of that. -/
def pipe : Nat → Reader Command
  | 0 => fail "Script too long"
  | n + 1 => do
    match ← commandToken n with
    | .newline => pipe n
    | .keyword "!" => return .not (← pipe n)
    | t =>
      giveBack t
      match ← stages n with
      | [c] => return c
      | cs => return .pipe cs

def stages : Nat → Reader (List Command)
  | 0 => fail "Script too long"
  | n + 1 => do
    let c ← command n
    match ← commandToken n with
    | .pipe => return c :: (← stages n)
    | t =>
      giveBack t
      return [c]

def command : Nat → Reader Command
  | 0 => fail "Script too long"
  | n + 1 => do
    match ← commandToken n with
    | .keyword "if" => branches n
    | .keyword "while" => loop n false
    | .keyword "until" => loop n true
    | .keyword "for" => do
      let name? : Option String := match ← commandToken n with
        | .word w => (plainText? w).filter isName
        | _ => none
      let some name := name? | fail "Bad for loop variable"
      expectKeyword n "in"
      let d ← draft n {}
      let body ← block n
      return .each name d.words body
    | .keyword "\x7b" =>
      let body ← list n
      expectKeyword n "\x7d"
      return .group false body (← draft n {}).redirections
    | .opening => return .group true (← substitution n) (← draft n {}).redirections
    | .word w =>
      giveBack (.word w)
      simple n
    | .redirection descriptor mode? =>
      giveBack (.redirection descriptor mode?)
      simple n
    | t => unexpected t ""

def simple : Nat → Reader Command
  | 0 => fail "Script too long"
  | n + 1 => do
    let line := (← get).line
    let d ← draft n {}
    return .simple line d.assignments d.words d.redirections

def loop : Nat → Bool → Reader Command
  | 0, _ => fail "Script too long"
  | n + 1, untilTrue => do
    let condition ← list n
    return .loop untilTrue condition (← block n)

/-- The body of a loop. -/
def block : Nat → Reader Script
  | 0 => fail "Script too long"
  | n + 1 => do
    match ← commandToken n with
    | .semicolon => block n
    | .newline => block n
    | t =>
      giveBack t
      expectKeyword n "do"
      let body ← list n
      expectKeyword n "done"
      return body

def branches : Nat → Reader Command
  | 0 => fail "Script too long"
  | n + 1 => do
    let condition ← list n
    expectKeyword n "then"
    let body ← list n
    match ← commandToken n with
    | .keyword "elif" => return .choose condition body [← branches n]
    | .keyword "else" =>
      let alternative ← list n
      expectKeyword n "fi"
      return .choose condition body alternative
    | .keyword "fi" => return .choose condition body []
    | t => unexpected t "fi"

/-- Assignments, words and redirections. -/
def draft : Nat → Draft → Reader Draft
  | 0, _ => fail "Script too long"
  | n + 1, d => do
    match ← token (substitution n) with
    | .word w =>
      match if d.words.isEmpty then assignment? w else none with
      | some a => draft n { d with assignments := d.assignments ++ [a] }
      | none => draft n { d with words := d.words ++ [w] }
    | .redirection descriptor mode? =>
      match ← token (substitution n) with
      | .word w =>
        let r := match mode? with
          | some mode => Redirection.file descriptor mode w
          | none => .copy descriptor w
        draft n { d with redirections := d.redirections ++ [r] }
      | t => unexpected t ""
    | t =>
      giveBack t
      return d

end

end Reader

def readScript (source : String) : Except SyntaxError Script :=
  let whole : Reader Script := do
    let n := 8 * source.length + 64
    let script ← Reader.list n
    match ← Reader.commandToken n with
    | .endOfFile => return script
    | t => Reader.unexpected t ""
  (whole.run { rest := source.toList }).map Prod.fst

end GlslToMetal.Shell
