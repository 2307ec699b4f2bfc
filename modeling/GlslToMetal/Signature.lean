import GlslToMetal.Item
import GlslToMetal.Text.Identifier
import GlslToMetal.Text.Words

/-! Function signatures. A block or a statement is a function when its header reads as a return
type, a name and a parameter list with nothing behind it; a statement makes a prototype. The name is
what follows the last character of the header that cannot stand in an identifier, one byte after
that character begins, so a header that ends in a wide character cannot be cut there. -/

namespace GlslToMetal

/-- How a parameter is passed. -/
inductive Qualifier where
  | unmarked
  | input
  | output
  | inOut
  /-- A reference to the caller's variable. -/
  | thread
  deriving DecidableEq, Repr

/-- A parameter of a function, and where it stands. -/
structure Parameter where
  type : Text
  qualifier : Qualifier
  name : Text
  isConst : Bool
  isReference : Bool
  /-- What follows the name from its first bracket on. -/
  arraySuffix : Option Text
  range : Range
  deriving DecidableEq, Repr

namespace Parameter

def qualifierWord? (word : Text) : Option Qualifier :=
  if word == ("in" : Text) then some .input
  else if word == ("out" : Text) then some .output
  else if word == ("inout" : Text) then some .inOut
  else if word == ("thread" : Text) then some .thread
  else none

/-- Takes the qualifier words off the front: the last of them decides, and `const` may stand
anywhere among them. -/
def takeQualifiers (qualifier : Qualifier) (isConst : Bool) :
    List Text → Qualifier × Bool × List Text
  | [] => (qualifier, isConst, [])
  | word :: rest =>
    if word == ("const" : Text) then takeQualifiers qualifier true rest
    else
      match qualifierWord? word with
      | some q => takeQualifiers q isConst rest
      | none => (qualifier, isConst, word :: rest)

def declarator (word : Text) : Text × Option Text :=
  let name := word.takeWhile (· != 91)
  (name, if name.length == word.length then none else some (word.drop name.length))

def declared : List Text → Option (Text × Text × Option Text)
  | [] => none
  | [type] => some (type, [], none)
  | first :: second :: rest =>
    let words := first :: second :: rest
    some (Text.unwords words.dropLast, declarator (words.getLast (by simp [words])))

/-- The parameter that words declare. No words, the word `void` alone, and qualifiers of nothing
declare none. -/
def ofWords? (words : List Text) (range : Range) : Option Parameter :=
  if words == [("void" : Text)] then none
  else do
    let (qualifier, isConst, rest) := takeQualifiers .unmarked false words
    let (type, name, arraySuffix) ← declared (rest.filter (· != ("&" : Text)))
    return {
      type, qualifier, name, isConst, arraySuffix, range
      isReference := rest.contains ("&" : Text) }

def spaceReferences (t : Text) : Text := t.flatMap fun b => if b == 38 then [32, 38, 32] else [b]

def ofRange? (masked : Text) (range : Range) : Checked (Option Parameter) := do
  let source ← masked.slice range
  return ofWords? (spaceReferences source).words range

end Parameter

/-- A function definition or prototype, and where its parts stand. -/
structure Signature where
  name : Text
  returnType : Text
  params : List Parameter
  range : Range
  nameRange : Range
  openParen : Nat
  closeParen : Nat
  /-- What stands between the braces; a prototype has none. -/
  body? : Option Range
  deriving DecidableEq, Repr

namespace Signature

def isDefinition (f : Signature) : Bool := f.body?.isSome

def arity (f : Signature) : Nat := f.params.length

def hasParam (f : Signature) (name : Text) : Bool := f.params.any (·.name == name)

def isColorOutput (p : Parameter) : Bool :=
  (p.type == ("vec4" : Text) || p.type == ("float4" : Text)) &&
    (p.qualifier == .output || p.qualifier == .inOut ||
      (p.qualifier == .thread && p.isReference)) &&
    p.arraySuffix.isNone && !p.name.isEmpty

def isCoordInput (p : Parameter) : Bool :=
  (p.type == ("vec2" : Text) || p.type == ("float2" : Text)) &&
    (p.qualifier == .input || p.qualifier == .unmarked) &&
    !p.isReference && p.arraySuffix.isNone && !p.name.isEmpty

/-- The names of the colour and the coordinate, if the function has the shape of an entry point,
`void f(out vec4 color, in vec2 coord)` in either language. -/
def entryContract? (f : Signature) : Option (Text × Text) :=
  match f.params with
  | [color, coord] =>
    if f.returnType == ("void" : Text) && isColorOutput color && isCoordInput coord then
      some (color.name, coord.name)
    else none
  | _ => none

def nonTypeWords : List Text :=
  ["return", "struct", "if", "else", "for", "while", "switch", "do", "case", "layout", "uniform",
    "typedef", "using"]

/-- The header of an item that may be a function: what stands before its brace or its `;`. A
statement with an `=` is none. -/
def header? (masked : Text) : Item → Option Range
  | .block start opened _ _ => some ⟨start, opened⟩
  | .statement start semicolon =>
    if (masked.cut ⟨start, semicolon⟩).contains 61 then none else some ⟨start, semicolon⟩
  | _ => none

def nameOffset (t : Text) : Nat :=
  ((t.reverse.dropWhile Text.isWordByte).dropWhile Text.isContinuation).length

def ofItem? (masked : Text) (item : Item) : Checked (Option Signature) := do
  let some header := header? masked item | return none
  let before := (masked.cut header).takeWhile (· != 40)
  let openParen := header.start + before.length
  if header.stop ≤ openParen then return none
  let some closeParen := masked.matching? openParen | return none
  if header.stop ≤ closeParen then return none
  if !(← masked.slice ⟨closeParen + 1, header.stop⟩).isWhite then return none
  let lead ← masked.trimRange ⟨header.start, openParen⟩
  let nameRange := ⟨lead.start + nameOffset (← masked.slice lead), lead.stop⟩
  let name ← masked.slice nameRange
  let returnType := (← masked.slice ⟨lead.start, nameRange.start⟩).trim
  if !name.isIdentifier || returnType.isEmpty || nonTypeWords.contains returnType ||
      nonTypeWords.contains name then
    return none
  let args ← masked.splitArgs openParen closeParen
  let params ← args.mapM (Parameter.ofRange? masked)
  return some {
    name, nameRange, openParen, closeParen
    returnType := Text.unwords returnType.words
    params := params.filterMap id
    range := item.range
    body? := item.body? }

end Signature

end GlslToMetal
