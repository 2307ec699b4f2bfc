import GlslToMetal.Text.Basic

/-! Comments. Masking blanks out what stands in `//` and `/* */` comments and keeps everything
else, newlines included, at its offset: scans look at the masked text, and what they find holds of
the text itself. A line comment ends before its newline, a block comment that is never closed runs
to the end of the text, and the two bytes that open a block comment take no part in closing it. -/

namespace GlslToMetal.Text

/-- Where a byte stands: in code, in a line comment, in a block comment, or at the second byte of
the mark that opens or closes a block comment. -/
inductive Place where
  | code
  | line
  | opening
  | block
  | closing
  deriving DecidableEq, Repr

/-- What becomes of a byte at a place, and the place of the byte behind it. The byte behind it is
`next`. -/
def maskByte (place : Place) (b : UInt8) (next : Option UInt8) : UInt8 × Place :=
  match place with
  | .code =>
    if b == 47 && next == some 47 then (32, .line)
    else if b == 47 && next == some 42 then (32, .opening)
    else (b, .code)
  | .line => if b == newline then (newline, .code) else (32, .line)
  | .opening => (32, .block)
  | .block =>
    if b == 42 && next == some 47 then (32, .closing)
    else (if b == newline then newline else 32, .block)
  | .closing => (32, .code)

def maskFrom (place : Place) : Text → Text
  | [] => []
  | b :: rest =>
    let (masked, after) := maskByte place b rest.head?
    masked :: maskFrom after rest

def mask (t : Text) : Text := maskFrom .code t

end GlslToMetal.Text
