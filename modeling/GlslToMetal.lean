import GlslToMetal.Choice
import GlslToMetal.Main
import GlslToMetal.Proofs.Ambient.Entry
import GlslToMetal.Proofs.Ambient.Headings
import GlslToMetal.Proofs.Ambient.Reachability
import GlslToMetal.Proofs.Ambient.Settling
import GlslToMetal.Proofs.Ambient.Target
import GlslToMetal.Proofs.Config.Store
import GlslToMetal.Proofs.Effect.Session
import GlslToMetal.Proofs.Extracted.Returns
import GlslToMetal.Proofs.Fragment
import GlslToMetal.Proofs.Lowering.DirectiveLine
import GlslToMetal.Proofs.Lowering.Naming
import GlslToMetal.Proofs.Lowering.Spans
import GlslToMetal.Proofs.Parameter.Passing
import GlslToMetal.Proofs.Parameter.Spacing
import GlslToMetal.Proofs.Program.Coherence
import GlslToMetal.Proofs.Program.Written
import GlslToMetal.Proofs.Sampling.Clearing
import GlslToMetal.Proofs.Text.Coordinates
import GlslToMetal.Proofs.Text.Search
