import GlslToMetal.Text.Utf8
import GlslToMetal.Unicode.WhiteSpace

/-! Words and trimming. Here white space is Unicode's, which holds more than the blank bytes of the
scanner: the words of a text are the runs of characters between white space. -/

namespace GlslToMetal.Text

open Unicode (isWhiteSpace)

/-- The runs of characters that are not white space. -/
def charWords : List Char → List (List Char)
  | [] => []
  | c :: rest =>
    if isWhiteSpace c then charWords rest
    else if rest.head?.all isWhiteSpace then [c] :: charWords rest
    else
      match charWords rest with
      | [] => [[c]]
      | word :: words => (c :: word) :: words

def words (t : Text) : List Text := (charWords t.chars).map ofChars

def unwords (ws : List Text) : Text := [32].intercalate ws

def charsTrimEnd (cs : List Char) : List Char := (cs.reverse.dropWhile isWhiteSpace).reverse

def trimEnd (t : Text) : Text := ofChars (charsTrimEnd t.chars)

def trim (t : Text) : Text := ofChars (charsTrimEnd (t.chars.dropWhile isWhiteSpace))

def isWhite (t : Text) : Bool := t.chars.all isWhiteSpace

end GlslToMetal.Text
