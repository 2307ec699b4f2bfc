import GlslToMetal.Text.Basic

/-! Paired delimiters. Matching counts nesting of one kind only, on the bytes of a masked text.
An argument list is cut at the commas that no delimiter of any kind encloses; the depth of that
count is signed, because a list may close what it never opened. -/

namespace GlslToMetal

/-- The delimiters that enclose text. -/
inductive Delimiter where
  | brace
  | paren
  | bracket
  deriving DecidableEq, Repr

namespace Delimiter

def opener : Delimiter → UInt8
  | .brace => 123
  | .paren => 40
  | .bracket => 91

def closer : Delimiter → UInt8
  | .brace => 125
  | .paren => 41
  | .bracket => 93

def ofOpener? (b : UInt8) : Option Delimiter :=
  if b == 123 then some .brace
  else if b == 40 then some .paren
  else if b == 91 then some .bracket
  else none

def ofCloser? (b : UInt8) : Option Delimiter :=
  if b == 125 then some .brace
  else if b == 41 then some .paren
  else if b == 93 then some .bracket
  else none

/-- How many bytes stand before the closer of a delimiter inside which `depth` more are open. -/
def toCloser (d : Delimiter) (depth : Nat) : Text → Option Nat
  | [] => none
  | b :: rest =>
    if b == d.opener then (d.toCloser (depth + 1) rest).map (· + 1)
    else if b == d.closer then
      match depth with
      | 0 => some 0
      | depth + 1 => (d.toCloser depth rest).map (· + 1)
    else (d.toCloser depth rest).map (· + 1)

end Delimiter

namespace Text

/-- The offset of the delimiter that closes the one at `i`. -/
def matching? (t : Text) (i : Nat) : Option Nat :=
  match t.drop i with
  | [] => none
  | b :: rest => do
    let d ← Delimiter.ofOpener? b
    let n ← d.toCloser 0 rest
    return i + 1 + n

def leadingBlanks (t : Text) : Nat := (t.takeWhile isBlank).length

/-- The range without the blank bytes at its ends. A range of blanks shrinks to its end, and one
that covers nothing stays as it is. -/
def trimRange (t : Text) (r : Range) : Checked Range :=
  if r.start < r.stop then
    if t.length < r.stop then .error .outside
    else
      let start := r.start + leadingBlanks (t.cut r)
      .ok ⟨start, r.stop - leadingBlanks (t.cut ⟨start, r.stop⟩).reverse⟩
  else .ok r

/-- The stretches between the commas at depth 0. The bytes start at offset `i`, inside the stretch
that began at `start`. The depth has no bound here; 32 bits hold it in a text of less than `2 ^ 31`
delimiters. -/
def commaStretches (depth : Int) (start i : Nat) : Text → List Range
  | [] => [⟨start, i⟩]
  | b :: rest =>
    if (Delimiter.ofOpener? b).isSome then commaStretches (depth + 1) start (i + 1) rest
    else if (Delimiter.ofCloser? b).isSome then commaStretches (depth - 1) start (i + 1) rest
    else if b == 44 && depth == 0 then ⟨start, i⟩ :: commaStretches depth (i + 1) (i + 1) rest
    else commaStretches depth start (i + 1) rest

/-- The arguments between the delimiters at `opened` and `closed`, without the blanks around them.
A list with nothing in it has no arguments. -/
def splitArgs (t : Text) (opened closed : Nat) : Checked (List Range) :=
  if closed ≤ opened + 1 then .ok []
  else if t.length < closed then .error .outside
  else do
    let args ← (commaStretches 0 (opened + 1) (opened + 1) (t.cut ⟨opened + 1, closed⟩)).mapM
      t.trimRange
    return match args with
    | [only] => if only.isEmpty then [] else [only]
    | args => args

def nextNonBlank? (t : Text) (i : Nat) : Option Nat :=
  let rest := t.drop i
  let n := leadingBlanks rest
  if n < rest.length then some (i + n) else none

end Text

end GlslToMetal
