import GlslToMetal.Text.Utf8

/-! Identifiers: ASCII letters, digits and underscores, not starting with a digit. A search for a
word looks at its occurrences from left to right, none overlapping the one before, and keeps those
that no identifier byte touches on either side. -/

namespace GlslToMetal.Text

def isLetter (b : UInt8) : Bool := (65 ≤ b && b ≤ 90) || (97 ≤ b && b ≤ 122)

def isDigit (b : UInt8) : Bool := 48 ≤ b && b ≤ 57

def isWordByte (b : UInt8) : Bool := isLetter b || isDigit b || b == 95

def isIdentifier : Text → Bool
  | [] => false
  | b :: rest => (isLetter b || b == 95) && rest.all isWordByte

/-- A text that is no identifier. -/
structure InvalidIdentifier where
  candidate : Text

def InvalidIdentifier.message (e : InvalidIdentifier) : String :=
  "Invalid identifier: `" ++ e.candidate.toString ++ "`"

def ensureIdentifier (t : Text) : Except InvalidIdentifier Text :=
  if t.isIdentifier then .ok t else .error ⟨t⟩

/-- Offsets at which `word` stands in the bytes that start at offset `i`, after the next `skip`
bytes, each beyond the end of the one before. The empty word stands before every character and at
the end. -/
def occurrencesFrom (word : Text) (i skip : Nat) : Text → List Nat
  | [] => if word.isEmpty then [i] else []
  | b :: rest =>
    match skip with
    | skip + 1 => occurrencesFrom word (i + 1) skip rest
    | 0 =>
      if word.isEmpty then
        if i != 0 && isContinuation b then occurrencesFrom word (i + 1) 0 rest
        else i :: occurrencesFrom word (i + 1) 0 rest
      else if word.isPrefixOf (b :: rest) then
        i :: occurrencesFrom word (i + 1) (word.length - 1) rest
      else occurrencesFrom word (i + 1) 0 rest

def before? (t : Text) (i : Nat) : Option UInt8 := if i == 0 then none else t[i - 1]?

def isWholeWord (t : Text) (r : Range) : Bool :=
  !(t.before? r.start).any isWordByte && !t[r.stop]?.any isWordByte

def findWord (t : Text) (word : Text) : List Nat :=
  (occurrencesFrom word 0 0 t).filter fun i => t.isWholeWord ⟨i, i + word.length⟩

def containsWord (t : Text) (word : Text) : Bool := !(t.findWord word).isEmpty

/-- The run of identifier bytes that ends before `i`, blanks between them and `i` skipped; none when
the nearest byte is punctuation. -/
def previousWord (t : Text) (i : Nat) : Checked (Option Text) :=
  if t.length < i then .error .outside
  else
    let word := ((t.take i).reverse.dropWhile isBlank).takeWhile isWordByte
    .ok (if word.isEmpty then none else some word.reverse)

end GlslToMetal.Text
