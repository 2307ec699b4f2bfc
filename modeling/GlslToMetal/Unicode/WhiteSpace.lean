import GlslToMetal.Unicode.Ranges

/-! The characters of Unicode's White_Space property. -/

namespace GlslToMetal.Unicode

def wideWhiteSpace : List (Nat × Nat) :=
  [(0x85, 0x85), (0xA0, 0xA0), (0x1680, 0x1680), (0x2000, 0x200A), (0x2028, 0x2029),
   (0x202F, 0x202F), (0x205F, 0x205F), (0x3000, 0x3000)]

/-- White space: in ASCII the tab, the line feed, the vertical tab, the form feed, the carriage
return and the space. -/
def isWhiteSpace (c : Char) : Bool :=
  if c.toNat < 128 then (9 ≤ c.toNat && c.toNat ≤ 13) || c.toNat == 32
  else inRanges wideWhiteSpace c

end GlslToMetal.Unicode
