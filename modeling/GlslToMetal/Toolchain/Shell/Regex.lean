/-! Regular expressions in the basic and the extended form. A match is found by following all ways
through an expression at once, and the longest wins. -/

namespace GlslToMetal.Shell

inductive Regex where
  | empty
  | char (c : Char)
  | any
  | oneOf (negated : Bool) (ranges : List (Char × Char))
  | lineStart
  | lineEnd
  | sequence (first second : Regex)
  | either (first second : Regex)
  | repeated (r : Regex) (least : Nat) (once : Bool)
  deriving Repr

namespace Regex

abbrev Reader := StateT (List Char) (Except String)

def accept (word : List Char) : Reader Bool := do
  let cs ← get
  if word.isPrefixOf cs then
    set (cs.drop word.length)
    return true
  else return false

/-- How an operator is written in one of the two forms. -/
def mark (extended : Bool) (c : Char) : List Char := if extended then [c] else ['\\', c]

def ranges : List Char → List (Char × Char)
  | a :: '-' :: b :: rest => (a, b) :: ranges rest
  | c :: rest => (c, c) :: ranges rest
  | [] => []

def namedSets : List (String × List (Char × Char)) :=
  let digits := [('0', '9')]
  let letters := [('a', 'z'), ('A', 'Z')]
  [("[:digit:]", digits), ("[:alpha:]", letters), ("[:alnum:]", digits ++ letters),
    ("[:space:]", [(' ', ' '), ('\t', '\r')])]

def bracket : Reader Regex := do
  let negated ← accept ['^']
  let cs ← get
  match namedSets.find? fun (name, _) => name.toList.isPrefixOf cs with
  | some (name, set) =>
    modify (·.drop (name.length + 1))
    return .oneOf negated set
  | none =>
    -- a bracket at the front is a member
    let inside := cs.take 1 ++ (cs.drop 1).takeWhile (· != ']')
    if cs.length ≤ inside.length then throw "Unmatched [, [^, [:, [., or [="
    set (cs.drop (inside.length + 1))
    return .oneOf negated (ranges inside)

def atEnd (extended nested : Bool) : Reader Bool := do
  let cs ← get
  let comes (c : Char) : Bool := (mark extended c).isPrefixOf cs
  return cs.isEmpty || comes '|' || (nested && comes ')')

def repetitions (extended : Bool) : Nat → Regex → Reader Regex
  | 0, r => return r
  | n + 1, r => do
    if ← accept ['*'] then repetitions extended n (.repeated r 0 false)
    else if ← accept (mark extended '+') then repetitions extended n (.repeated r 1 false)
    else if ← accept (mark extended '?') then repetitions extended n (.repeated r 0 true)
    else return r

mutual

def alternatives : Nat → Bool → Bool → Reader Regex
  | 0, _, _ => throw "Regular expression too big"
  | n + 1, extended, nested => do
    let first ← branch n extended nested true
    if ← accept (mark extended '|') then return .either first (← alternatives n extended nested)
    return first

def branch : Nat → Bool → Bool → Bool → Reader Regex
  | 0, _, _, _ => throw "Regular expression too big"
  | n + 1, extended, nested, first => do
    if ← atEnd extended nested then return .empty
    match ← atom n extended nested first with
    | .lineStart => return .sequence .lineStart (← branch n extended nested first)
    | r =>
      let r ← repetitions extended n r
      return .sequence r (← branch n extended nested false)

/-- One piece. At the front of a branch a star means itself. -/
def atom : Nat → Bool → Bool → Bool → Reader Regex
  | 0, _, _, _ => throw "Regular expression too big"
  | n + 1, extended, nested, first => do
    if ← accept (mark extended '(') then
      let r ← alternatives n extended true
      if !(← accept (mark extended ')')) then throw "Unmatched ( or \\("
      return r
    match ← get with
    | [] => return .empty
    | c :: rest =>
      set rest
      match c with
      | '.' => return .any
      | '[' => bracket
      | '^' => return if extended || first then .lineStart else .char '^'
      | '$' =>
        let last ← atEnd extended nested
        return if extended || last then .lineEnd else .char '$'
      | '\\' =>
        match rest with
        | [] => throw "Trailing backslash"
        | c :: rest =>
          set rest
          return .char c
      | c => return .char c

end

def parse (extended : Bool) (text : String) : Except String Regex := do
  let (r, rest) ← (alternatives (8 * text.length + 16) extended false).run text.toList
  if rest.isEmpty then return r else throw "Unmatched ) or \\)"

def literal (text : String) : Regex :=
  text.toList.foldr (fun c r => .sequence (.char c) r) .empty

/-- Takes a step again and again, each time to a shorter rest. -/
def iterate (step : List Char → List (List Char)) (once : Bool) : Nat → List (List Char) →
    List (List Char)
  | 0, rests => rests
  | n + 1, rests =>
    let next := (rests.flatMap fun cs => (step cs).filter fun d => d.length < cs.length).eraseDups
    if next.isEmpty then rests
    else (rests ++ if once then next else iterate step once n next).eraseDups

/-- What may be left of the rest of a line of some length behind a match. -/
def follow (size : Nat) : Regex → List Char → List (List Char)
  | .empty, cs => [cs]
  | .char d, cs => if cs.head? == some d then [cs.drop 1] else []
  | .any, cs => if cs.isEmpty then [] else [cs.drop 1]
  | .oneOf negated ranges, cs =>
    match cs with
    | [] => []
    | c :: rest => if (ranges.any fun (a, b) => a ≤ c && c ≤ b) != negated then [rest] else []
  | .lineStart, cs => if cs.length == size then [cs] else []
  | .lineEnd, cs => if cs.isEmpty then [cs] else []
  | .sequence first second, cs => ((follow size first cs).flatMap (follow size second)).eraseDups
  | .either first second, cs => (follow size first cs ++ follow size second cs).eraseDups
  | .repeated r least once, cs =>
    iterate (follow size r) once size (if least == 0 then [cs] else follow size r cs)

/-- The longest match at the front of the rest of a line, as a number of characters. -/
def longest? (size : Nat) (r : Regex) (cs : List Char) : Option Nat :=
  ((follow size r cs).map fun rest => cs.length - rest.length).max?

def occurs (r : Regex) (line : List Char) : Bool :=
  (List.range (line.length + 1)).any fun i => (r.longest? line.length (line.drop i)).isSome

end Regex

end GlslToMetal.Shell
