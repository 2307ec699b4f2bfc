import GlslToMetal.Diagnostic.Basic
import GlslToMetal.Item
import GlslToMetal.Lowering.Step
import GlslToMetal.Pattern
import GlslToMetal.Text.Words

/-! Global variables. In Metal a variable of the program lives in the `constant` address space, so
an initialised global is declared there, with the dimensions of an array behind its name and braces
around what an array constructor holds. A global that was not constant loses its mutability, which
is reported. -/

namespace GlslToMetal.Global

open Unicode

/-- What stands before the `=` of a declaration. -/
structure Head where
  isConst : Bool
  type : Text
  typeDims? : Option Text
  name : Text
  nameDims? : Option Text
  deriving DecidableEq, Repr

def isNameStart (c : Char) : Bool := c.isAlpha || c == '_'

def taking (p : List Char → Option (List Char)) (cs : List Char) : Option (Text × List Char) :=
  (p cs).map fun rest => (Text.ofChars (cs.take (cs.length - rest.length)), rest)

def pastName (cs : List Char) : Option (List Char) :=
  (Pattern.char isNameStart cs).map (·.dropWhile isWordChar)

def pastTemplate (cs : List Char) : List Char :=
  ((Pattern.char (· == '<') cs).bind fun inner =>
    Pattern.char (· == '>') (inner.dropWhile (· != '>'))).getD cs

def pastDims (cs : List Char) : Option (List Char) := do
  let inner ← Pattern.char (· == '[') cs
  let rest := ((inner.dropWhile isWhiteSpace).dropWhile isDigit).dropWhile isWhiteSpace
  Pattern.char (· == ']') rest

def takeDims (cs : List Char) : Option Text × List Char :=
  match taking pastDims cs with
  | some (dims, rest) => (some dims, rest)
  | none => (none, cs)

/-- Reads a type, the dimensions behind it, a name and the dimensions behind that, up to the end.
White space has to stand before the name. -/
def typed? (isConst : Bool) (cs : List Char) : Option Head := do
  let (type, cs) ← taking (fun cs => (pastName cs).map pastTemplate) cs
  let spaced := cs.dropWhile isWhiteSpace
  let (typeDims?, behind) := takeDims spaced
  let cs ← Pattern.run isWhiteSpace (if typeDims?.isSome then behind else cs)
  let (name, cs) ← taking pastName cs
  let (nameDims?, cs) := takeDims (cs.dropWhile isWhiteSpace)
  guard cs.isEmpty
  return ⟨isConst, type, typeDims?, name, nameDims?⟩

def pastConst (cs : List Char) : Option (List Char) :=
  (Pattern.literal "const" cs).bind (Pattern.run isWhiteSpace)

def Head.ofChars? (cs : List Char) : Option Head :=
  ((pastConst cs).bind (typed? true)).or (typed? false cs)

def storageWords : List Text :=
  ["constant", "constexpr", "static", "uniform", "in", "out", "varying", "attribute", "layout",
    "struct", "thread", "device", "threadgroup", "using", "typedef", "return"]

/-- The dimensions of the array that a head declares, none for a variable that is no array. Arrays
of arrays and arrays without a size have no dimensions that could be moved. -/
def Head.dims? (h : Head) : Option Text :=
  let dims := match h.typeDims?, h.nameDims? with
    | some _, some _ => none
    | some dims, none => some dims.words.flatten
    | none, some dims => some dims.words.flatten
    | none, none => some []
  dims.filter (· != ("[]" : Text))

def Head.constant (h : Head) (dims : Text) : Text :=
  ("constant " : Text) ++ h.type ++ (" " : Text) ++ h.name ++ dims

def isConstructor (cs : List Char) : Bool :=
  ((pastName cs).bind fun rest =>
    (pastDims (rest.dropWhile isWhiteSpace)).bind fun rest =>
      Pattern.char (· == '(') (rest.dropWhile isWhiteSpace)).isSome

/-- The edit that turns an initialiser into a list in braces, if all of it is the constructor of an
array. -/
def constructorEdit? (source : Text) (initializer : Range) : Checked (Option Edit) := do
  let masked := source.mask
  let content ← masked.slice initializer
  if !isConstructor content.chars then return none
  let opened := initializer.start + (content.takeWhile (· != 40)).length
  let some closed := masked.matching? opened | return none
  if closed + 1 != initializer.stop then return none
  let inner ← source.slice ⟨opened + 1, closed⟩
  return some ⟨initializer, ([123] : Text) ++ inner ++ ([125] : Text)⟩

def promoted (name : Text) (range : Range) : Diagnostic where
  level := .warning
  message := "global `" ++ name.toString ++ "` has an initializer but no `const`; " ++
    "promoted to `constant`, writes to it will not compile"
  span := Span.ofRange range
  suggestions := ["declare `" ++ name.toString ++ "` as `const` or move it into a function"]
  sourceContext := Step.globals.name
  code := "mutable-global-promoted"

/-- What becomes of an item: the edits of an initialised declaration and the warning about it. -/
def lowerItem (source : Text) : Item → Checked (List Diagnostic × List Edit)
  | .statement start semicolon => do
    let masked := source.mask
    let before := (masked.cut ⟨start, semicolon⟩).takeWhile (· != 61)
    let equals := start + before.length
    if semicolon ≤ equals then return ([], [])
    let headRange ← masked.trimRange ⟨start, equals⟩
    let some head := Head.ofChars? (← masked.slice headRange).chars | return ([], [])
    if storageWords.contains head.type then return ([], [])
    let some dims := head.dims? | return ([], [])
    let constructor? ← constructorEdit? source (← masked.trimRange ⟨equals + 1, semicolon⟩)
    return (if head.isConst then [] else [promoted head.name ⟨start, semicolon + 1⟩],
      ⟨headRange, head.constant dims⟩ :: constructor?.toList)
  | _ => return ([], [])

def lower (source : Text) : Checked (List Diagnostic × Text) := do
  let results ← source.mask.items.mapM (lowerItem source)
  let edits := results.flatMap Prod.snd
  return (results.flatMap Prod.fst, ← Edit.apply edits source)

end GlslToMetal.Global
