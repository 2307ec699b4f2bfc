import GlslToMetal.Text.Basic

/-! Spans: the ranges of diagnostics, which keep their ends in 32 bits, and the line and column of
an offset. Lines and columns count from one, and columns count bytes. -/

namespace GlslToMetal

/-- A range of a source, with the low 32 bits of its ends. -/
structure Span where
  lo : UInt32
  hi : UInt32
  deriving DecidableEq, Repr

namespace Span

def ofRange (r : Range) : Span := ⟨r.start.toUInt32, r.stop.toUInt32⟩

def range (s : Span) : Range := ⟨s.lo.toNat, s.hi.toNat⟩

def isEmpty (s : Span) : Bool := s.hi ≤ s.lo

def display (s : Span) : String := s!"Span({s.lo.toNat}-{s.hi.toNat})"

def lineColumn (s : Span) (source : Text) : Nat × Nat :=
  let before := source.take s.lo.toNat
  (before.count Text.newline + 1,
    (before.reverse.takeWhile (· != Text.newline)).length + 1)

end Span

end GlslToMetal
