/-! Shader text. A text is its UTF-8 bytes and every offset counts bytes, so the offsets that a
scan of one text finds can be used in any text of the same length. Cutting a text is a checked
operation: it fails when an end lies outside the text or inside a character, and a computation
that cuts texts says so in its type. -/

namespace GlslToMetal

abbrev Text := List UInt8

def Text.ofString (s : String) : Text := s.toList.flatMap String.utf8EncodeChar

instance : Coe String Text := ⟨Text.ofString⟩

/-- A half-open stretch of byte offsets. Nothing forces `start ≤ stop`. -/
structure Range where
  start : Nat
  stop : Nat
  deriving DecidableEq, Repr, Inhabited

def Range.isEmpty (r : Range) : Bool := r.stop ≤ r.start

def Range.shift (r : Range) (n : Nat) : Range := ⟨r.start + n, r.stop + n⟩

/-- Why a text cannot be read or cut at some offsets. -/
inductive Fault where
  /-- An offset lies past the end of the text. -/
  | outside
  /-- The start of a cut lies behind its end. -/
  | inverted
  /-- An offset lies inside a multi-byte character. -/
  | insideChar
  deriving DecidableEq, Repr

abbrev Checked := Except Fault

namespace Text

def isContinuation (b : UInt8) : Bool := 0x80 ≤ b && b < 0xC0

def isBoundary (t : Text) (i : Nat) : Bool :=
  match t.drop i with
  | [] => i == t.length
  | b :: _ => i == 0 || !isContinuation b

def cut (t : Text) (r : Range) : Text := (t.drop r.start).take (r.stop - r.start)

def slice (t : Text) (r : Range) : Checked Text :=
  if r.stop < r.start then .error .inverted
  else if t.length < r.stop then .error .outside
  else if t.isBoundary r.start && t.isBoundary r.stop then .ok (t.cut r)
  else .error .insideChar

def isBlank (b : UInt8) : Bool := b == 32 || b == 9 || b == 10 || b == 12 || b == 13

def newline : UInt8 := 10

end Text

end GlslToMetal
