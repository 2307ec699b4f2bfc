import GlslToMetal.Toml.Number
import GlslToMetal.Toml.Value

/-! Reading a TOML document. A document is a sequence of lines, each a header or a key with its
value, and reading it either gives a table or fails. Arrays and inline tables nest less than eighty
deep, and keys have less than eighty parts. -/

namespace GlslToMetal.Toml

abbrev Parser := StateT (List Char) Option

namespace Parser

def peek : Parser (Option Char) := do return (← get).head?

def takeWhile (p : Char → Bool) : Parser (List Char) := do
  let cs ← get
  set (cs.dropWhile p)
  return cs.takeWhile p

def accept (word : String) : Parser Bool := do
  let cs ← get
  if word.toList.isPrefixOf cs then
    set (cs.drop word.length)
    return true
  else return false

def expect (word : String) : Parser Unit := do guard (← accept word)

def isBlank (c : Char) : Bool := c == ' ' || c == '\t'

def blanks : Parser Unit := do discard (takeWhile isBlank)

def isPlain (c : Char) : Bool := c == '\t' || (' ' ≤ c && c != '\x7f')

def comment : Parser Unit := do
  if (← peek) == some '#' then discard (takeWhile isPlain)

def newline : Parser Bool := do
  if ← accept "\n" then return true else accept "\r\n"

def lineEnd : Parser Unit := do
  blanks
  comment
  if !(← newline) then guard (← get).isEmpty

def skipLines : Nat → Parser Unit
  | 0 => return
  | n + 1 => do
    blanks
    comment
    if ← newline then skipLines n

/-- The character of `n` hexadecimal digits. -/
def codePoint (n : Nat) : Parser Char := do
  let cs ← get
  let digits := cs.take n
  guard (digits.length == n && digits.all isHexDigit)
  set (cs.drop n)
  let code := digitsValue 16 digits
  if h : code.isValidChar then return Char.ofNatAux code h else failure

/-- The character that an escape stands for, from behind the backslash. -/
def escape : Parser Char := do
  match (← get) with
  | [] => failure
  | c :: rest =>
    set rest
    match c with
    | 'b' => return '\x08'
    | 't' => return '\t'
    | 'n' => return '\n'
    | 'f' => return '\x0c'
    | 'r' => return '\r'
    | '"' => return '"'
    | '\\' => return '\\'
    | 'u' => codePoint 4
    | 'U' => codePoint 8
    | _ => failure

/-- A basic string behind its quote, with at most `n` parts. -/
def basicTail : Nat → Parser (List Char)
  | 0 => failure
  | n + 1 => do
    match (← get) with
    | '"' :: rest =>
      set rest
      return []
    | '\\' :: rest =>
      set rest
      let c ← escape
      return c :: (← basicTail n)
    | c :: rest =>
      guard (isPlain c)
      set rest
      return c :: (← basicTail n)
    | [] => failure

def literalTail : Parser (List Char) := do
  let content ← takeWhile fun c => isPlain c && c != '\''
  expect "'"
  return content

/-- The quotes that close a string of several lines: three, and up to two more that belong to it. -/
def closingQuotes (quote : Char) : Parser (Option (List Char)) := do
  let cs ← get
  let run := cs.takeWhile (· == quote)
  if run.length < 3 then return none
  guard (run.length ≤ 5)
  set (cs.drop run.length)
  return some (run.drop 3)

def dropBreaks : List Char → List Char
  | ' ' :: rest => dropBreaks rest
  | '\t' :: rest => dropBreaks rest
  | '\n' :: rest => dropBreaks rest
  | '\r' :: '\n' :: rest => dropBreaks rest
  | cs => cs

/-- A basic string of several lines behind its quotes. A backslash at the end of a line takes the
line break and the white space behind it away. -/
def longBasicTail : Nat → Parser (List Char)
  | 0 => failure
  | n + 1 => do
    if let some quotes ← closingQuotes '"' then return quotes
    if ← newline then return '\n' :: (← longBasicTail n)
    match (← get) with
    | '\\' :: rest =>
      set rest
      let afterBlanks := rest.dropWhile isBlank
      if afterBlanks.head? == some '\n' || "\r\n".toList.isPrefixOf afterBlanks then
        set (dropBreaks rest)
        longBasicTail n
      else
        let c ← escape
        return c :: (← longBasicTail n)
    | c :: rest =>
      guard (isPlain c)
      set rest
      return c :: (← longBasicTail n)
    | [] => failure

def longLiteralTail : Nat → Parser (List Char)
  | 0 => failure
  | n + 1 => do
    if let some quotes ← closingQuotes '\'' then return quotes
    if ← newline then return '\n' :: (← longLiteralTail n)
    match (← get) with
    | c :: rest =>
      guard (isPlain c)
      set rest
      return c :: (← longLiteralTail n)
    | [] => failure

def shortString : Parser String := do
  let size := (← get).length
  if ← accept "'" then return String.ofList (← literalTail)
  expect "\""
  return String.ofList (← basicTail (size + 1))

/-- A string. A line break right behind the quotes of a long one is no part of it. -/
def string : Parser String := do
  let size := (← get).length
  if ← accept "\"\"\"" then
    discard newline
    return String.ofList (← longBasicTail (size + 1))
  if ← accept "'''" then
    discard newline
    return String.ofList (← longLiteralTail (size + 1))
  shortString

def isBareKeyChar (c : Char) : Bool := c.isAlphanum || c == '_' || c == '-'

def keyPart : Parser String := do
  match ← peek with
  | some '"' => shortString
  | some '\'' => shortString
  | _ =>
    let word ← takeWhile isBareKeyChar
    guard !word.isEmpty
    return String.ofList word

/-- A key of fewer than `n` parts: the parts before the last, and the last. -/
def key : Nat → Parser (List String × String)
  | 0 => failure
  | n + 1 => do
    blanks
    let part ← keyPart
    blanks
    if ← accept "." then
      let (parts, last) ← key n
      return (part :: parts, last)
    else return ([], part)

def limit : Nat := 80

def isScalarChar (c : Char) : Bool :=
  c.isAlphanum || c == '+' || c == '-' || c == '_' || c == '.' || c == ':'

/-- A number, a boolean, a date or a time. -/
def scalar : Parser Value := do
  let word ← takeWhile isScalarChar
  if word == "true".toList then return .boolean true
  if word == "false".toList then return .boolean false
  if let some n := integer? word then return .integer n
  if isFloat word then
    guard !isTooLarge word
    return .float
  guard (isDateTime word)
  if isDate word && (← peek) == some ' ' then
    let cs ← get
    let time := (cs.drop 1).takeWhile isScalarChar
    if isTimeWithOffset time then set (cs.drop (time.length + 1))
  return .dateTime

mutual

/-- A value. The first number bounds the nesting and the second the steps of reading. -/
def value : Nat → Nat → Parser Value
  | _, 0 => failure
  | depth, n + 1 => do
    match ← peek with
    | some '"' => return .string (← string)
    | some '\'' => return .string (← string)
    | some '[' =>
      guard (1 < depth)
      expect "["
      return .array (← items (depth - 1) n)
    | some '\x7b' =>
      guard (1 < depth)
      expect "\x7b"
      blanks
      if ← accept "\x7d" then return .table .inline []
      return .table .inline (← pairs (depth - 1) n [])
    | _ => scalar

/-- The rest of an array, from behind its bracket or a comma. -/
def items : Nat → Nat → Parser (List Value)
  | _, 0 => failure
  | depth, n + 1 => do
    skipLines (n + 1)
    if ← accept "]" then return []
    let first ← value depth n
    skipLines (n + 1)
    if ← accept "," then return first :: (← items depth n)
    expect "]"
    return [first]

/-- The rest of an inline table, from a key on, added to what it holds. -/
def pairs : Nat → Nat → Table → Parser Table
  | _, 0, _ => failure
  | depth, n + 1, t => do
    let (path, last) ← key limit
    expect "="
    blanks
    let v ← value depth n
    let some t := Table.addDotted? last v path t | failure
    blanks
    if ← accept "," then pairs depth n t
    else
      expect "\x7d"
      return t

end

def headerKey (closing : String) : Parser (List String × String) := do
  let k ← key limit
  expect closing
  return k

/-- A header with the line that it ends: the document with the table opened, and the way to it. -/
def header (doc : Table) : Parser (Table × List String) := do
  let double ← accept "[["
  if !double then expect "["
  let (path, last) ← headerKey (if double then "]]" else "]")
  lineEnd
  let opened := doc.at? (if double then Table.openNext? last else Table.openTable? last) path
  let some doc := opened | failure
  return (doc, path ++ [last])

/-- A key and its value with the line that they end, added to the table at `place`. -/
def keyValue (doc : Table) (place : List String) : Parser Table := do
  let (path, last) ← key limit
  expect "="
  blanks
  let v ← value limit ((← get).length + 1)
  lineEnd
  let some doc := doc.at? (Table.addDotted? last v path) place | failure
  return doc

/-- The lines of a document, with what it holds so far and the table that is open. -/
def lines : Nat → Table → List String → Parser Table
  | 0, _, _ => failure
  | n + 1, doc, place => do
    blanks
    match ← peek with
    | none => return doc
    | some '[' =>
      let (doc, place) ← header doc
      lines n doc place
    | some '#' =>
      lineEnd
      lines n doc place
    | some c =>
      if c == '\n' || c == '\r' then
        lineEnd
        lines n doc place
      else lines n (← keyValue doc place) place

end Parser

def parse? (source : List Char) : Option Table :=
  let cs := if source.head? == some '﻿' then source.drop 1 else source
  ((Parser.lines (cs.length + 1) [] []).run cs).map Prod.fst

end GlslToMetal.Toml
