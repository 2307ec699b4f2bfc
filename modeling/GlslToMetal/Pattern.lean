import GlslToMetal.Text.Comment
import GlslToMetal.Text.Edit
import GlslToMetal.Text.Utf8
import GlslToMetal.Unicode.Digit
import GlslToMetal.Unicode.WhiteSpace
import GlslToMetal.Unicode.WordChar

/-! Patterns of characters. A pattern looks at the character before a place and at the characters
from there on, and gives the characters behind what it recognises. Its matches in a text are taken
from left to right, none overlapping the one before. -/

namespace GlslToMetal

abbrev Pattern := Option Char → List Char → Option (List Char)

namespace Pattern

open Unicode

def literal (word : String) (cs : List Char) : Option (List Char) :=
  if word.toList.isPrefixOf cs then some (cs.drop word.length) else none

def oneOf (words : List String) (cs : List Char) : Option (List Char) :=
  words.findSome? (literal · cs)

def char (p : Char → Bool) : List Char → Option (List Char)
  | [] => none
  | c :: rest => if p c then some rest else none

def run (p : Char → Bool) (cs : List Char) : Option (List Char) :=
  (char p cs).map (·.dropWhile p)

def atWordStart (before : Option Char) : Bool := !before.any isWordChar

def wordEnd (cs : List Char) : Option (List Char) :=
  if cs.head?.any isWordChar then none else some cs

def isInlineBlank (c : Char) : Bool := c == ' ' || c == '\t'

def width : List Char → Nat
  | [] => 0
  | c :: cs => c.utf8Size + width cs

/-- The ranges of the matches among characters that start at byte `i`, after the next `skip` of
them. -/
def matchesFrom (p : Pattern) (before : Option Char) (i skip : Nat) : List Char → List Range
  | [] => []
  | c :: rest =>
    let next := i + c.utf8Size
    match skip with
    | skip + 1 => matchesFrom p (some c) next skip rest
    | 0 =>
      match p before (c :: rest) with
      | none => matchesFrom p (some c) next 0 rest
      | some tail =>
        let n := rest.length + 1 - tail.length
        ⟨i, i + width ((c :: rest).take n)⟩ :: matchesFrom p (some c) next (n - 1) rest

def ranges (p : Pattern) (t : Text) : List Range := p.matchesFrom none 0 0 t.chars

/-- The edits that replace the matches in the code of a program, comments left out. The matched text
decides what is put in its place. -/
def codeEdits (p : Pattern) (source : Text) (replacement : Text → Text) : List Edit :=
  (p.ranges source.mask).map fun r => ⟨r, replacement (source.mask.cut r)⟩

end Pattern

end GlslToMetal
