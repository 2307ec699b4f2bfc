import GlslToMetal.Toolchain.Shell.State

/-! What words stand for. The fragments of a word become marks, which remember what came out of a
parameter, and the marks become fields. Expressions are of whole numbers in 64 bits. -/

namespace GlslToMetal.Shell

namespace Arithmetic

abbrev Reader := StateT (List Char) (Except String)

def isBlank (c : Char) : Bool := c == ' ' || ('\t' ≤ c && c ≤ '\r')

def operators : List String :=
  ["<=", ">=", "==", "!=", "&&", "||", "*", "/", "%", "+", "-", "<", ">", "!", "(", ")"]

/-- The operators with two operands, from those that bind most to those that bind least. -/
def levels : List (List String) :=
  [["*", "/", "%"], ["+", "-"], ["<=", ">=", "<", ">"], ["==", "!="], ["&&"], ["||"]]

def accept? (wanted : List String) : Reader (Option String) := do
  let cs := (← get).dropWhile isBlank
  match operators.find? fun o => o.toList.isPrefixOf cs with
  | some o =>
    if !wanted.contains o then return none
    set (cs.drop o.length)
    return some o
  | none => return none

def ofBool (b : Bool) : Int64 := if b then 1 else 0

def apply (operator : String) (a b : Int64) : Except String Int64 :=
  match operator with
  | "*" => .ok (a * b)
  | "/" => if b == 0 then .error "division by zero" else .ok (a / b)
  | "%" => if b == 0 then .error "division by zero" else .ok (a % b)
  | "+" => .ok (a + b)
  | "-" => .ok (a - b)
  | "<" => .ok (ofBool (a < b))
  | "<=" => .ok (ofBool (a ≤ b))
  | ">" => .ok (ofBool (b < a))
  | ">=" => .ok (ofBool (b ≤ a))
  | "==" => .ok (ofBool (a == b))
  | "!=" => .ok (ofBool (a != b))
  | "&&" => .ok (ofBool (a != 0 && b != 0))
  | _ => .ok (ofBool (a != 0 || b != 0))

section

variable (lookup : String → Int64)

mutual

/-- A number, a name, or an expression in parentheses. -/
def primary : Nat → Reader Int64
  | 0 => throw "expecting primary"
  | n + 1 => do
    match ← accept? ["+", "-", "!", "("] with
    | some "+" => primary n
    | some "-" => return -(← primary n)
    | some "!" => return ofBool ((← primary n) == 0)
    | some _ =>
      let v ← level n levels.reverse
      if (← accept? [")"]).isNone then throw "expecting ')'"
      return v
    | none =>
      let cs := (← get).dropWhile isBlank
      let word := cs.takeWhile fun c => c.isAlphanum || c == '_'
      set (cs.drop word.length)
      match word with
      | [] => throw "expecting primary"
      | c :: _ =>
        if c.isDigit then
          match (String.ofList word).toNat? with
          | some v => return Int64.ofNat v
          | none => throw "expecting EOF"
        else return lookup (String.ofList word)

/-- An expression of the operators of a level and of those that bind more. -/
def level : Nat → List (List String) → Reader Int64
  | 0, _ => throw "expecting primary"
  | n + 1, [] => primary n
  | n + 1, l :: tighter => do further n l tighter (← level n tighter)

def further : Nat → List String → List (List String) → Int64 → Reader Int64
  | 0, _, _, _ => throw "expecting EOF"
  | n + 1, l, tighter, a => do
    match ← accept? l with
    | none => return a
    | some operator =>
      let b ← level n tighter
      further n l tighter (← apply operator a b)

end

def evaluate (text : String) : Except String Int64 := do
  if text.toList.all isBlank then return 0
  let (v, rest) ← (level lookup (16 * text.length + 16) levels.reverse).run text.toList
  if rest.all isBlank then return v else throw "expecting EOF"

end

end Arithmetic

/-- What an expanded word is made of. -/
inductive Mark where
  | char (c : Char)
  /-- A character that came out of a parameter and may separate fields. -/
  | loose (c : Char)
  /-- Keeps a field that is otherwise empty. -/
  | present
  /-- Separates fields. -/
  | gap
  deriving DecidableEq, Repr

namespace Mark

def char? : Mark → Option Char
  | char c => some c
  | loose c => some c
  | gap => some ' '
  | present => none

def ofValue (quoted : Bool) (s : String) : List Mark :=
  if quoted then .present :: s.toList.map .char else s.toList.map .loose

/-- What a mark adds to the fields, of which the first may be open. -/
def add (fields : List (List Char) × Bool) (m : Mark) : List (List Char) × Bool :=
  let put (c : List Char) : List (List Char) × Bool := match fields with
    | (f :: rest, true) => ((c ++ f) :: rest, true)
    | (fs, _) => (c :: fs, true)
  match m with
  | char c => put [c]
  | present => put []
  | gap => (fields.1, false)
  | loose c => if c == ' ' || c == '\t' || c == '\n' then (fields.1, false) else put [c]

end Mark

def textOf (marks : List Mark) : String := String.ofList (marks.filterMap Mark.char?)

def splitFields (marks : List Mark) : List String :=
  let reversed := (marks.foldl Mark.add ([], false)).1
  reversed.reverse.map fun f => String.ofList f.reverse

section

variable (substitute : Script → Run String)

mutual

/-- The marks of a fragment. The number bounds how deep fragments nest. -/
def expandFragment : Nat → Fragment → Run (List Mark)
  | 0, _ => return []
  | n + 1, f => do
    match f with
    | .plain c => return [.char c]
    | .quoted c => return [.char c]
    | .nothing => return [.present]
    | .substitution quoted body =>
      let printed ← substitute body
      let kept := (printed.toList.reverse.dropWhile (· == '\n')).reverse
      return Mark.ofValue quoted (String.ofList kept)
    | .arithmetic quoted expression =>
      let text := textOf (← expandAll n expression)
      let s ← get
      let value (name : String) : Int64 :=
        Int64.ofInt ((s.parameter? name).bind String.toInt? |>.getD 0)
      match Arithmetic.evaluate value text with
      | .error reason => fatal ("arithmetic expression: " ++ reason ++ ": \"" ++ text ++ "\"")
      | .ok v => return Mark.ofValue quoted (toString v)
    | .parameter quoted name fallback =>
      let s ← get
      if name == "*" && quoted then return Mark.ofValue true (" ".intercalate s.args)
      if name == "@" || name == "*" then
        return [Mark.gap].intercalate (s.args.map (Mark.ofValue quoted))
      match s.parameter? name, fallback with
      | some v, [] => return Mark.ofValue quoted v
      | some v, w => if v.isEmpty then expandAll n w else return Mark.ofValue quoted v
      | none, w => do return Mark.ofValue quoted "" ++ (← expandAll n w)

def expandAll : Nat → List Fragment → Run (List Mark)
  | 0, _ => return []
  | _ + 1, [] => return []
  | n + 1, f :: rest => do
    let first ← expandFragment n f
    return first ++ (← expandAll n rest)

end

def expansionBound : Nat := 1000000

def expandText (w : Word) : Run String := do
  return textOf (← expandAll substitute expansionBound w)

def expandWords (words : List Word) : Run (List String) := do
  let fields ← words.mapM fun w => do
    return splitFields (← expandAll substitute expansionBound w)
  return fields.flatten

/-- Opens a redirection, and says whether that worked. -/
def redirect : Redirection → Run Bool
  | .file descriptor mode target => do
    openFile descriptor mode (← expandText substitute target)
  | .copy descriptor target => do copyDescriptor descriptor (← expandText substitute target)

def redirectAll : List Redirection → Run Bool
  | [] => return true
  | r :: rest => do if ← redirect substitute r then redirectAll rest else return false

end

end GlslToMetal.Shell
