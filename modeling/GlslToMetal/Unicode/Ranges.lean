/-! Sets of characters given by ranges of code points. -/

namespace GlslToMetal.Unicode

def inRanges (ranges : List (Nat × Nat)) (c : Char) : Bool :=
  ranges.any fun (lo, hi) => lo ≤ c.toNat && c.toNat ≤ hi

end GlslToMetal.Unicode
