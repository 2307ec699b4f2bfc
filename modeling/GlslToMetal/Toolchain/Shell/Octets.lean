import GlslToMetal.Text.Utf8

/-! Text as a shell sees it: a byte is a character, the one with its number. Scripts, words, the
content of files and what programs print are strings of such characters; a name of a file is decoded
only where the file is looked up. -/

namespace GlslToMetal.Shell

def ofText (t : Text) : String := String.ofList (t.map fun b => Char.ofNat b.toNat)

def toText (s : String) : Text := s.toList.map fun c => c.toNat.toUInt8

def encode (s : String) : String := ofText (Text.ofString s)

def decode (s : String) : String := (toText s).toString

end GlslToMetal.Shell
