import GlslToMetal.Text.Basic

/-! Reading bytes as characters. The decoder is the usual machine with the octets still owed and
the bounds of the next one. An octet that cannot continue a character closes it with the
replacement character and is read again as a first octet, so every list of bytes has a reading;
the bytes are UTF-8 exactly when encoding the reading gives them back. -/

namespace GlslToMetal.Text

def ofChars (cs : List Char) : Text := cs.flatMap String.utf8EncodeChar

/-- A character of which `owed + 1` octets are missing. The next one lies between `low` and `high`,
and `code` holds the bits read so far. -/
structure Pending where
  owed : Nat
  code : Nat
  low : UInt8
  high : UInt8
  deriving DecidableEq, Repr

def replacement : Char := '�'

/-- The characters that a first octet completes, and the character that it leaves open. -/
def firstOctet (b : UInt8) : List Char × Option Pending :=
  if b < 0x80 then ([Char.ofNat b.toNat], none)
  else if b < 0xC2 then ([replacement], none)
  else if b < 0xE0 then ([], some ⟨0, b.toNat - 0xC0, 0x80, 0xBF⟩)
  else if b == 0xE0 then ([], some ⟨1, 0, 0xA0, 0xBF⟩)
  else if b == 0xED then ([], some ⟨1, 0xD, 0x80, 0x9F⟩)
  else if b < 0xF0 then ([], some ⟨1, b.toNat - 0xE0, 0x80, 0xBF⟩)
  else if b == 0xF0 then ([], some ⟨2, 0, 0x90, 0xBF⟩)
  else if b < 0xF4 then ([], some ⟨2, b.toNat - 0xF0, 0x80, 0xBF⟩)
  else if b == 0xF4 then ([], some ⟨2, 4, 0x80, 0x8F⟩)
  else ([replacement], none)

/-- The characters that an octet completes after the open character `p`, and what stays open. -/
def nextOctet (p : Pending) (b : UInt8) : List Char × Option Pending :=
  if p.low ≤ b && b ≤ p.high then
    let code := p.code * 64 + (b.toNat - 0x80)
    match p.owed with
    | 0 => ([Char.ofNat code], none)
    | owed + 1 => ([], some ⟨owed, code, 0x80, 0xBF⟩)
  else
    let (done, left) := firstOctet b
    (replacement :: done, left)

def octet : Option Pending → UInt8 → List Char × Option Pending
  | none, b => firstOctet b
  | some p, b => nextOctet p b

def decodeFrom : Option Pending → Text → List Char
  | none, [] => []
  | some _, [] => [replacement]
  | p, b :: rest =>
    let (done, left) := octet p b
    done ++ decodeFrom left rest

def chars (t : Text) : List Char := decodeFrom none t

def toString (t : Text) : String := String.ofList t.chars

def isUtf8 (t : Text) : Bool := ofChars t.chars == t

end GlslToMetal.Text
